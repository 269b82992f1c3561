import Peen.Lib.Run
import Peen.Session.Completion
import Peen.Session.Stop

/-!
# Runs of the session store

Any number of callers, in any order, open turns, write and end them, restore them for their
executions, create, claim, complete and control executions, send messages to them, deliver these and
stop the session.
-/

namespace Peen.Sessions

open Executions Tables

/-- What a caller was told. -/
inductive Entry where
  /-- A turn was admitted. -/
  | admitted (turnID : UUID)
  /-- An acquisition returned a lease. -/
  | acquired (lease : Lease)
  /-- `RestoreExecutionTurn` returned a lease. -/
  | restored (executionID : UUID) (lease : Lease)
  /-- The session was stopped. -/
  | stopped
  /-- An execution was resumed, by a request or by a message for a paused child. -/
  | resumed (executionID : UUID)
  /-- A claim of an activity was answered. -/
  | claimed (executionID : UUID) (decision : ActivityDecision)
  /-- A model activity appended the messages of an inbox row to a transcript. -/
  | delivered (requestID activityID : UUID)
  deriving DecidableEq

/-- The tables, what the process holds, and the history, the latest first. -/
structure World where
  tables : Tables
  active : Option ActiveTurn
  pending : List Lease
  history : List Entry
  deriving DecidableEq

section
variable (cfg : Config) (s : Tables) (w : World)

def World.new : World := ⟨.empty, none, [], []⟩

def Entry.lease? : Entry → Option Lease
  | .acquired lease | .restored _ lease => some lease
  | _ => none

def World.issued : List Lease := w.history.filterMap Entry.lease?

def World.fresh (leaseID : UUID) : Bool :=
  leaseID != UUID.nil && !(w.issued ++ w.pending).any (·.id == leaseID)

/-- The calls of a run. Not among them are `CreateCompaction`, with which a worker stores a compaction
of no activity, `RequestAgentRunCancellation`, which cancels a child with its activities,
`RecoverWorkerTurns`, which ends the turns of a lost worker, and `ResumeExecutionFromActivity`, whose
deferred form opens a stopped turn again. -/
inductive Action where
  /-- `AcquireTurn` reserves a lease. -/
  | reserveTurn (turnID leaseID : UUID)
  /-- `AcquireTurn` commits the turn. -/
  | admitTurn (lease : Lease) (input : StartTurnInput) (newID : Nat → UUID)
  /-- `AcquireTurn` fails, and gives the lease up. -/
  | abandonTurn (lease : Lease)
  | appendCheckpoint (lease : Lease) (messages : List MessageInput) (newID : Nat → UUID)
  | finalizeTurn (lease : Lease) (input : FinalizeTurnInput) (newID : Nat → UUID)
  | releaseTurn (lease : Lease)
  | endRunningTurn (turnID : UUID) (ending : TurnEnd) (newID : UUID)
  | recoverInterrupted (endMessage : UUID → String) (newID : UUID → UUID)
  | restoreExecutionTurn (executionID : UUID) (input : RestoreExecutionTurnInput)
      (newLeaseID : UUID)
  | acquireDeferred (boundary : Except Err Unit) (inboxID : UUID) (input : StartTurnInput)
      (newLeaseID : UUID) (newID : Nat → UUID)
  | createExecution (answers : CreationAnswers) (input : CreateExecutionInput)
  | cancel
  | acceptMessage (boundary : Except Err Unit) (executionID : UUID) (lease : Lease)
      (input : AcceptExecutionMessageInput) (deferred : Bool) (newID : UUID)
  | acceptChildMessage (executionID : UUID) (input : AcceptExecutionMessageInput)
      (noticeID newID : UUID)
  | queueReport (executionID requestID sourceEventID : UUID) (text : String) (newID : UUID)
  | deliverMessages (turnLease : Lease) (modelLease : ActivityLease) (requestIDs : List UUID)
      (newID : Nat → UUID)
  | deliverChildMessages (run : Except Err Unit) (lease : ActivityLease) (requestIDs : List UUID)
  | claim (answers : ClaimAnswers) (executionID generationID : UUID)
      (input : ScheduleActivityInput)
  | complete (answers : CompletionAnswers) (lease : ActivityLease)
      (input : CompleteActivityInput) (newID : Nat → UUID)
  | interrupt (lease : ActivityLease)
  | resolve (activityID : UUID) (input : ResolveActivityInput)
  | pause (executionID : UUID) (reason : String)
  | resume (executionID : UUID)
  | pauseUnfinished
  /-- The session's newest worker changes. -/
  | worker (worker : Option WorkerGeneration)

/-- Whether the caller of a call has the leases it presents, and draws a new lease id. -/
def World.presents : Action → Bool
  | .reserveTurn _ leaseID | .restoreExecutionTurn _ _ leaseID
  | .acquireDeferred _ _ _ leaseID _ => w.fresh leaseID
  | .admitTurn lease _ _ | .abandonTurn lease => w.pending.contains lease
  | .appendCheckpoint lease _ _ | .finalizeTurn lease _ _ | .releaseTurn lease
  | .acceptMessage _ _ lease _ _ _ | .deliverMessages lease _ _ _ => w.issued.contains lease
  | .complete _ _ input _ => (input.finish.bind (·.rootHolder)).all fun holder =>
      w.issued.any (·.id == holder.leaseID)
  | _ => true

/-- The world with other tables, and what its caller was told. -/
def World.commit (tables : Tables) (told : List Entry) : World :=
  { w with tables := tables, history := told ++ w.history }

def World.commitExecutions (executions : Store) (told : List Entry) : World :=
  w.commit { w.tables with executions := executions } told

/-- What a delivery appends: the rows it names that were not delivered before. -/
def deliveredEntries (activityID : UUID) (requestIDs : List UUID) : List Entry :=
  (requestIDs.filter fun id => (s.inboxRequest? id).any (·.state != .delivered)).map
    fun id => .delivered id activityID

/-- The turn an acquisition admitted, if it was not there before. -/
def admittedEntries (turnID : UUID) : List Entry :=
  if (s.turn? turnID).isNone then [.admitted turnID] else []

def resumedEntries (executionID requestID : UUID) : List Entry :=
  match s.executions.findExecution cfg.sessionID executionID with
  | .ok execution =>
    if execution.state = .paused ∧ s.inboxRequest? requestID = none then [.resumed executionID]
    else []
  | .error _ => []

/-- The check of `FinalizeTurn` on the state. -/
def validateTerminalState (input : FinalizeTurnInput) : Except Err Unit :=
  if isTerminalState input.state then .ok ()
  else .error ⟨.validationFailed, "invalid terminal state"⟩

/-- The mode of an acceptance: `AcceptExecutionMessage` or `DeferExecutionMessage`. -/
def acceptanceState (deferred : Bool) : InboxMessageState :=
  if deferred then .deferred else .queued

/-- A call. One that fails leaves the world, but an admission gives up its reserved lease. -/
def act : Action → Except Err World
  | .reserveTurn turnID leaseID =>
    if w.active.isSome then .error ⟨.sessionBusy, "session turn lease"⟩
    else .ok { w with active := some ⟨turnID, leaseID⟩
                      pending := ⟨leaseID, turnID⟩ :: w.pending }
  | .admitTurn lease input newID => do
    let s ← admitTurn cfg w.tables lease.turnID input newID
    .ok { w.commit s [.acquired lease, .admitted lease.turnID] with
          pending := w.pending.erase lease }
  | .abandonTurn lease =>
    .ok { w with active := releaseTurn w.active lease, pending := w.pending.erase lease }
  | .appendCheckpoint lease messages newID => do
    let _ ← holdLease w.active lease
    let s ← appendTranscript cfg w.tables lease.turnID newID messages
    .ok (w.commit s [])
  | .finalizeTurn lease input newID => do
    let _ ← validateTerminalState input
    let _ ← holdLease w.active lease
    let s ← finalizeTurn cfg w.tables lease.turnID input newID
    .ok (w.commit s [])
  | .releaseTurn lease => .ok { w with active := releaseTurn w.active lease }
  | .endRunningTurn turnID ending newID => do
    let (_, s) ← endRunningTurn cfg w.tables turnID newID ending
    .ok (w.commit s [])
  | .recoverInterrupted endMessage newID => do
    let running := w.tables.turns.filter (·.state == .running)
    let s ← interruptTurns cfg newID endMessage running w.tables
    .ok { w.commit s [] with
          active := w.active.filter fun a => !running.any (·.id == a.turnID) }
  | .restoreExecutionTurn executionID input newLeaseID => do
    let (lease, s) ← restoreExecutionTurn cfg w.tables w.active executionID input newLeaseID
    .ok { w.commit s [.restored executionID lease] with active := some ⟨lease.turnID, lease.id⟩ }
  | .acquireDeferred boundary inboxID input newLeaseID newID => do
    let (lease, s) ← acquireDeferredExecutionTurn cfg w.tables w.active boundary inboxID
      input newLeaseID newID
    .ok { w.commit s (.acquired lease :: admittedEntries w.tables lease.turnID) with
          active := some ⟨lease.turnID, lease.id⟩ }
  | .createExecution answers input => do
    let s ← createExecution cfg w.tables answers input
    .ok (w.commit s [])
  | .cancel => do
    let s ← cancel cfg w.tables w.active
    .ok (w.commit s [.stopped])
  | .acceptMessage boundary executionID lease input deferred newID => do
    let (_, s) ← acceptExecutionInbox cfg w.tables w.active boundary executionID lease input
      (acceptanceState deferred) newID
    .ok (w.commit s [])
  | .acceptChildMessage executionID input noticeID newID => do
    let (_, s) ← acceptChildExecutionMessage cfg w.tables executionID input noticeID newID
    .ok (w.commit s (resumedEntries cfg w.tables executionID input.requestID))
  | .queueReport executionID requestID sourceEventID text newID => do
    let s ← queueReport cfg w.tables executionID requestID sourceEventID text newID
    .ok (w.commit s [])
  | .deliverMessages turnLease modelLease requestIDs newID => do
    let s ← deliverMessages cfg w.tables w.active turnLease modelLease requestIDs newID
    .ok (w.commit s (deliveredEntries w.tables modelLease.id requestIDs))
  | .deliverChildMessages run lease requestIDs => do
    let s ← deliverChildExecutionMessages cfg w.tables run lease requestIDs
    .ok (w.commit s (deliveredEntries w.tables lease.id requestIDs))
  | .claim answers executionID generationID input => do
    let (claim, executions) ← w.tables.executions.beginExecutionActivity cfg.toConfig answers
      cfg.sessionID executionID generationID input
    .ok (w.commitExecutions executions [.claimed executionID claim.decision])
  | .complete answers lease input newID => do
    let (after, s) ← completeExecutionActivity cfg w.tables w.active answers lease input newID
    .ok { w.commit s [] with active := releaseFinishedExecutionTurn w.active after input }
  | .interrupt lease => do
    let executions ← w.tables.executions.interruptExecutionActivity cfg.sessionID lease
    .ok (w.commitExecutions executions [])
  | .resolve activityID input => do
    let (_, executions) ← w.tables.executions.resolveExecutionActivity cfg.toConfig cfg.sessionID
      activityID input
    .ok (w.commitExecutions executions [])
  | .pause executionID reason => do
    let (_, executions) ← w.tables.executions.pauseExecution cfg.toConfig cfg.sessionID executionID
      reason
    .ok (w.commitExecutions executions [])
  | .resume executionID => do
    let (_, executions) ← w.tables.executions.resumeExecution cfg.sessionID executionID
    .ok (w.commitExecutions executions [.resumed executionID])
  | .pauseUnfinished => do
    let (_, executions) ← w.tables.executions.pauseUnfinishedExecutions cfg.sessionID
    .ok (w.commitExecutions executions [])
  | .worker worker => .ok { w with tables := { w.tables with worker := worker } }

/-- A call that succeeds. A lease is presented by its holder, and an id that is drawn is new. -/
def step (a : Action) : Option World :=
  if w.presents a then (act cfg w a).toOption else none

end

/-! ## A plain session

A configuration whose texts are encoded as themselves, and the calls of a session without workers. -/

/-- A session with short texts. The saved input of a model activity names the request `8` when it has
an inbox. -/
def plainConfig : Config where
  maxExecutionStateBytes := 64
  maxStoredMessageBytes := 64
  valid := fun _ => true
  encode := fun input => input.evidence
  hash := fun _ => "digest"
  finishDecisionHash := fun _ => "digest"
  sessionID := 1
  encodeCompaction := fun input => input.summary
  encodeMessages := fun _ => "messages"
  encodeParts := fun _ => "parts"
  newSHA1 := fun id _ => 5000 + id
  uuidText := fun _ => "worker"
  parseUUID := fun _ => none
  inboxIDs := fun input => some (if input = emptyActivityJSON then [] else [8])

def plainTurn (requestID : UUID) (content : String) : StartTurnInput :=
  ⟨requestID, "/work", [.plain .user content], none, ""⟩

def plainRoot (id turnID : UUID) (task : String) : CreateExecutionInput :=
  ⟨id, turnID, none, none, "v1", "", task, "/work", emptyActivityJSON, none⟩

def plainRestore (controlRevision : Nat) (previousLeaseID : UUID) : RestoreExecutionTurnInput :=
  ⟨controlRevision, 7, UUID.nil, previousLeaseID⟩

/-- A completion that gives a result and may store a compaction. -/
def plainCompletion (compaction : Option CompactionInput) : CompleteActivityInput :=
  ⟨emptyActivityJSON, emptyActivityJSON, none, compaction, none, none⟩

def plainActivity (stepID : String) (kind : ActivityKind) (input : String) :
    ScheduleActivityInput :=
  ⟨stepID, kind, .retry, stepID, input⟩

def agreedCreation : CreationAnswers := ⟨.ok (), .ok ()⟩

def agreedCompletion : CompletionAnswers :=
  ⟨.ok (), .ok (), .ok (), .ok ⟨0, 0, 0⟩, .ok (), .ok (), .ok (), .ok (), .ok (), .ok ()⟩

end Peen.Sessions
