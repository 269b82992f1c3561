import Peen.Session.Transcript

/-!
# The holders of turns

A turn has one holder at a time.
-/

namespace Peen.Sessions

open Executions

/-- The lease the process accepts writes under. -/
structure ActiveTurn where
  turnID : UUID
  leaseID : UUID
  deriving DecidableEq

section
variable (active : Option ActiveTurn) (lease : Lease)

def hasLease : Bool :=
  lease.id != UUID.nil && active == some ⟨lease.turnID, lease.id⟩

def holdLease : Except Err Unit :=
  if hasLease active lease then .ok () else .error ⟨.invalidState, "hold turn lease"⟩

def releaseTurn : Option ActiveTurn :=
  if active = some ⟨lease.turnID, lease.id⟩ then none else active

end

/-- Who asks for a turn, and with which lease. -/
structure RestoreExecutionTurnInput where
  controlRevision : Nat
  ownerGenerationID : UUID
  workerGenerationID : UUID
  previousLeaseID : UUID

/-! ## Choosing a lease -/

section
variable (execution : Execution) (cfg : Config) (turn : Turn) (lease : Lease)
  (active : Option ActiveTurn) (input : RestoreExecutionTurnInput)

def mayReuseExecutionTurnHolder (stored : ExecutionTurnLease) (input : RestoreExecutionTurnInput) :
    Bool :=
  stored.ownerGenerationID == input.ownerGenerationID &&
    stored.controlRevision == input.controlRevision &&
    stored.workerGenerationID.getD UUID.nil == input.workerGenerationID &&
    !turn.cancelRequested && turn.state != .cancelled

def mayAdoptInitialTurnHolder (active : ActiveTurn) (input : RestoreExecutionTurnInput) : Bool :=
  active.turnID == turn.id && !turn.cancelRequested &&
    turn.workerGenerationID == Tables.workerLeaseReference cfg input.workerGenerationID

/-- The lease of a turn without a stored holder: the active one where it may be adopted. -/
def initialTurnLease (newLeaseID : UUID) : Lease :=
  match active with
  | none => ⟨newLeaseID, turn.id⟩
  | some active =>
    if mayAdoptInitialTurnHolder cfg turn active input then ⟨active.leaseID, turn.id⟩
    else ⟨newLeaseID, turn.id⟩

/-- Reuse the owner's lease, adopt one that was never restored, or draw one. -/
def chooseExecutionTurnLease (stored : Option ExecutionTurnLease) (active : Option ActiveTurn)
    (input : RestoreExecutionTurnInput) (newLeaseID : UUID) : Except Err Lease :=
  match stored with
  | none => .ok (initialTurnLease cfg turn active input newLeaseID)
  | some stored =>
    if stored.leaseID = UUID.nil ∨ stored.ownerGenerationID = UUID.nil then
      .error ⟨.invalidState, "stored execution turn holder is invalid"⟩
    else if mayReuseExecutionTurnHolder turn stored input then .ok ⟨stored.leaseID, turn.id⟩
    else if input.previousLeaseID ≠ stored.leaseID then
      .error ⟨.conflict, "execution turn holder changed"⟩
    else .ok ⟨newLeaseID, turn.id⟩

def executionTurnLeaseMatches (stored : Option ExecutionTurnLease) (turn : Turn)
    (lease : Lease) : Bool :=
  stored.any (·.leaseID == lease.id) && turn.state == .running

def validateExecutionTurnRestore : Except Err Unit :=
  if execution.kind ≠ .root then .error ⟨.conflict, "execution turn holder requires a root"⟩
  else if execution.state = .paused ∨ isExecutionTerminal execution.state then
    .error ⟨.invalidState, "execution cannot restore its turn in this state"⟩
  else .ok ()

/-- The check of `RestoreExecutionTurn` on the ids it is given. -/
def validateRestoreInput (executionID : UUID) (input : RestoreExecutionTurnInput) :
    Except Err Unit :=
  if input.ownerGenerationID = UUID.nil ∨ executionID = UUID.nil ∨
      (input.workerGenerationID ≠ UUID.nil ∧
        input.workerGenerationID ≠ input.ownerGenerationID) then
    .error ⟨.validationFailed, "execution turn holder identity"⟩
  else .ok ()

def validateRestoreRevision : Except Err Unit :=
  if execution.controlRevision ≠ input.controlRevision then
    .error ⟨.conflict, "execution turn control revision changed"⟩
  else .ok ()

def validateRestoreSession (turn : Turn) : Except Err Unit :=
  if active.any (·.turnID != turn.id) then
    .error ⟨.sessionBusy, "another turn owns the session"⟩
  else .ok ()

def holderRow : ExecutionTurnLease where
  executionID := execution.id
  turnID := execution.rootTurnID
  leaseID := lease.id
  ownerGenerationID := input.ownerGenerationID
  controlRevision := input.controlRevision
  workerGenerationID :=
    if input.workerGenerationID = UUID.nil then none else some input.workerGenerationID

end

namespace Tables

section
variable (s : Tables)

def turnLease? (executionID : UUID) : Option ExecutionTurnLease :=
  s.turnLeases.find? (·.executionID == executionID)

def findExecutionTurnLease (executionID : UUID) :
    Except Err ExecutionTurnLease :=
  match s.turnLease? executionID with
  | none => .error ⟨.notFound, "find execution turn lease"⟩
  | some stored => .ok stored

/-- `Save` of a holder, with the primary key of its execution and the key of its lease. -/
def saveTurnLease (row : ExecutionTurnLease) : Except Err Tables :=
  if s.turnLeases.any fun r => r.executionID != row.executionID && r.leaseID == row.leaseID then
    .error ⟨.storage, "save execution turn holder"⟩
  else if (s.turnLease? row.executionID).isSome then
    .ok { s with turnLeases := s.turnLeases.map fun r =>
      if r.executionID == row.executionID then row else r }
  else .ok { s with turnLeases := s.turnLeases ++ [row] }

def saveExecutionTurnLease (execution : Execution) (lease : Lease)
    (input : RestoreExecutionTurnInput) : Except Err Tables := do
  let row := holderRow execution lease input
  let s ← s.saveTurnLease row
  let (_, executions) ← s.executions.appendExecutionEvent execution .turnRestored
    (.turnHolder row.leaseID row.ownerGenerationID row.workerGenerationID)
  .ok { s with executions := executions }

def validateExecutionTurnWorker (generationID : UUID) : Except Err Unit :=
  if generationID = UUID.nil then .ok ()
  else
    match s.worker with
    | none => .error ⟨.notFound, "find root holder worker"⟩
    | some current =>
      if current.id ≠ generationID ∨ current.active = false then
        .error ⟨.permissionDenied, "root holder worker is not current and active"⟩
      else .ok ()

def findExecutionRootTurn (execution : Execution) : Except Err Turn :=
  match s.turn? execution.rootTurnID with
  | none => .error ⟨.notFound, "find original execution turn"⟩
  | some turn =>
    if turn.state = .completed ∨ turn.state = .failed then
      .error ⟨.invalidState, "original execution turn is terminal"⟩
    else .ok turn

end

section
variable (cfg : Config)

section
variable (s : Tables) (active : Option ActiveTurn) (boundary : Except Err Unit) (turn : Turn)
  (inboxID : UUID) (input : StartTurnInput) (newID : Nat → UUID)

def restoreExecutionTurnRow (execution : Execution) (turn : Turn)
    (input : RestoreExecutionTurnInput) (newLeaseID : UUID) : Except Err (Lease × Tables) := do
  let _ ← validateRestoreSession active turn
  let stored := s.turnLease? execution.id
  let lease ← chooseExecutionTurnLease cfg turn stored active input newLeaseID
  if executionTurnLeaseMatches stored turn lease && hasLease active lease then .ok (lease, s)
  else do
    let s ← s.saveExecutionTurnLease execution lease input
    .ok (lease, restoreRootTurnRow cfg s turn input.workerGenerationID)

/-- `RestoreExecutionTurn`: the lease, and the tables it commits. The process then accepts writes
under that lease. -/
def restoreExecutionTurn (executionID : UUID) (input : RestoreExecutionTurnInput)
    (newLeaseID : UUID) : Except Err (Lease × Tables) := do
  let _ ← validateRestoreInput executionID input
  let execution ← s.executions.findExecution cfg.sessionID executionID
  let _ ← validateExecutionTurnRestore execution
  let _ ← validateRestoreRevision execution input
  let _ ← s.validateExecutionTurnWorker input.workerGenerationID
  let turn ← s.findExecutionRootTurn execution
  restoreExecutionTurnRow cfg s active execution turn input newLeaseID

/-! ## Deferred turns -/

def deferredTurnIdentity : String := "deferredRootTurnV1"

def deferredTurnID : UUID :=
  cfg.newSHA1 inboxID deferredTurnIdentity

def validateDeferredStopRevision (expected : Option Int) (message : ExecutionInboxMessage) :
    Except Err Unit := do
  let revision ← s.admissionStopRevision expected
  if message.stopRevision ≠ revision then
    .error ⟨.invalidState, "deferred input remains stopped"⟩
  else .ok ()

def validateDeferredIdentity (message : ExecutionInboxMessage) (input : StartTurnInput) :
    Except Err Unit :=
  if message.state ≠ .deferred ∨ message.requestID ≠ input.requestID ∨
      message.workingDirectory ≠ input.workspace then
    .error ⟨.conflict, "deferred admission identity differs"⟩
  else .ok ()

/-- The check that the execution the message was sent to has completed. -/
def validateDeferredSource (source : Execution) : Except Err Unit :=
  if source.kind ≠ .root ∨ source.state ≠ .completed then
    .error ⟨.conflict, "deferred admission source is unfinished"⟩
  else .ok ()

def validateDeferredTurnWorker (workerID : String) : Except Err Unit :=
  if workerID = "" then .ok ()
  else
    match cfg.parseUUID workerID with
    | none => .error ⟨.validationFailed, "deferred admission worker identity"⟩
    | some generationID =>
      if generationID = UUID.nil then
        .error ⟨.validationFailed, "deferred admission worker identity"⟩
      else s.validateExecutionTurnWorker generationID

/-- `Store.validateDeferredTurnInput`. `boundary` answers `completedHookInboxWatermark`. -/
def validateDeferredTurnInput : Except Err Unit :=
  match s.inbox.find? (·.id == inboxID) with
  | none => .error ⟨.notFound, "read deferred admission input"⟩
  | some message => do
    let _ ← s.validateDeferredStopRevision input.expectedStopRevision message
    let _ ← validateDeferredIdentity message input
    let source ← s.executions.findExecution cfg.sessionID message.executionID
    let _ ← validateDeferredSource source
    let _ ← boundary
    validateDeferredTurnWorker cfg s input.workerGenerationID

/-- The checks of `Store.restoreDeferredTurn`. -/
def validateDeferredTurn : Except Err Unit :=
  if turn.requestID ≠ input.requestID ∨ turn.workspace ≠ input.workspace then
    .error ⟨.conflict, "stored deferred turn identity differs"⟩
  else if turn.cancelRequested ∨ (turn.state ≠ .running ∧ turn.state ≠ .interrupted) then
    .error ⟨.invalidState, "deferred turn remains stopped"⟩
  else if active.any fun a =>
      a.turnID != turn.id || turn.workerGenerationID != input.workerGenerationID then
    .error ⟨.sessionBusy, "deferred turn still has another holder"⟩
  else .ok ()

def restoreDeferredTurn : Except Err Tables := do
  let _ ← validateDeferredTurn active turn input
  .ok (s.updateTurn turn.id fun t =>
    { t with state := .running, workerGenerationID := input.workerGenerationID })

/-- `Store.admitDeferredTurn`. The notices of the admission are outside the tables. -/
def admitDeferredTurn : Except Err Tables := do
  let _ ← validateDeferredTurnInput cfg s boundary inboxID input
  match s.turn? (deferredTurnID cfg inboxID) with
  | some turn => s.restoreDeferredTurn active turn input
  | none => admitTurn cfg s (deferredTurnID cfg inboxID) input newID

/-- The lease of a deferred admission: the active one of that turn, or a new one. -/
def deferredLease (turnID newLeaseID : UUID) : Lease :=
  match active with
  | none => ⟨newLeaseID, turnID⟩
  | some active => ⟨active.leaseID, turnID⟩

/-- A deferred message as a turn of its own. -/
def acquireDeferredExecutionTurn (newLeaseID : UUID) (newID : Nat → UUID) :
    Except Err (Lease × Tables) :=
  let turnID := deferredTurnID cfg inboxID
  if inboxID = UUID.nil then .error ⟨.validationFailed, "deferred turn identity"⟩
  else if active.any (·.turnID != turnID) then
    .error ⟨.sessionBusy, "another turn owns deferred admission"⟩
  else do
    let s ← admitDeferredTurn cfg s active boundary inboxID input newID
    .ok (deferredLease active turnID newLeaseID, s)

end

end

end Tables

end Peen.Sessions
