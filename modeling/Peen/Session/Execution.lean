import Peen.Base

/-!
# Executions

The execution tables of the session store: executions, their activities and their events. A
transaction gives a result and the store it commits, or an error.
-/

namespace Peen.Executions

def maxInt64 : Nat := 2 ^ 63 - 1

/-! ## Rows -/

/-- A root serves a turn, a child an agent. -/
inductive ExecutionKind where
  | root
  | child
  deriving DecidableEq

inductive ExecutionState where
  | queued
  | running
  | paused
  | reconciling
  | completed
  | failed
  | cancelled
  deriving DecidableEq

/-- A row of `executions`; the columns of times are left out. -/
structure Execution where
  id : UUID
  sessionID : UUID
  kind : ExecutionKind
  state : ExecutionState
  parentExecutionID : Option UUID
  agentRunID : Option UUID
  workflowExecutionID : String
  workingDirectory : String
  contextJSON : String
  failureDetail : String
  pauseReason : String
  eventCount : Nat
  controlRevision : Nat
  rootTurnID : UUID := UUID.nil
  workflowVersion : String := ""
  task : String := ""
  deriving DecidableEq

/-- `models.ActivityKind`; an input may name a kind that does not exist. -/
inductive ActivityKind where
  | model
  | tool
  | compaction
  | preparation
  | unknown
  deriving DecidableEq

inductive ActivityState where
  | scheduled
  | running
  | completed
  | failed
  | paused
  | uncertain
  | cancelled
  deriving DecidableEq

/-- `models.ActivityReplayPolicy`; an input may name a policy that does not exist. -/
inductive ReplayPolicy where
  | retry
  | reconcile
  | unknown
  deriving DecidableEq

/-- What an inspection found. -/
inductive ActivityResolution where
  | retry
  | accept
  | unknown
  deriving DecidableEq

structure ResolveActivityInput where
  attempt : Nat
  resolution : ActivityResolution
  evidence : String
  output : String
  context : String
  deriving DecidableEq

/-- What the column `resolution_json` holds: nothing (`{}`), an encoded inspection, or the identity
of the request that completed the activity. -/
inductive ResolutionJSON where
  | empty
  | inspection (payload : String)
  | compaction (compactionHash : String)
  | projection (projectionHash : String)
  | finishDecision (inputHash : String) (continued : Bool)
  deriving DecidableEq

/-- `models.ExecutionActivity`. The owner is empty until the first attempt and after a retry. -/
structure ExecutionActivity where
  id : UUID
  sessionID : UUID
  executionID : UUID
  stepID : String
  kind : ActivityKind
  state : ActivityState
  replayPolicy : ReplayPolicy
  name : String
  inputJSON : String
  outputJSON : Option String
  contextJSON : String
  attempt : Nat
  ownerGenerationID : Option UUID
  failureDetail : String
  resolutionJSON : ResolutionJSON
  deriving DecidableEq

/-- `ExecutionEventType`, those the modelled operations append. -/
inductive EventType where
  | executionCreated
  | executionPaused
  | executionResumed
  | executionCompleted
  | executionFailed
  | executionCancelled
  | stepScheduled
  | stepStarted
  | stepCompleted
  | stepFailed
  | stepPaused
  | stepUncertain
  | stepCancelled
  | stepResolved
  | turnRestored
  | inboxQueued
  | inboxDelivered
  | inboxForwarded
  | completionSealed
  | inboxResumed
  deriving DecidableEq

/-- How far the inbox was read when the end was decided. -/
structure ExecutionCompletionSeal where
  activityID : UUID
  inputHash : String
  inboxSequence : Nat
  controlRevision : Nat
  deriving DecidableEq

/-- The right to complete an attempt. -/
structure ActivityLease where
  id : UUID
  generationID : UUID
  attempt : Nat
  deriving DecidableEq

structure ResumeExecutionInput where
  sourceLease : ActivityLease
  controlRevision : Nat
  deferredRequestID : Option UUID
  deferredStopRevision : Option Nat
  deriving DecidableEq

/-- What an event says. -/
inductive Payload where
  | empty
  | reason (reason : String)
  | request (requestID : UUID)
  | turnHolder (leaseID ownerGenerationID : UUID) (workerGenerationID : Option UUID)
  | inbox (inboxID requestID : UUID) (activityID agentRunID : Option UUID)
  | handoff (inboxID targetExecutionID : UUID)
  | activity (activityID : UUID) (stepID : String) (kind : ActivityKind) (attempt : Nat)
  | resolution (activityID : UUID) (input : ResolveActivityInput)
  | output (output : String)
  | completionSeal (saved : ExecutionCompletionSeal)
  | agentResume (sourceExecutionID : UUID) (input : ResumeExecutionInput)
  | deferredResume (sourceExecutionID inboxID : UUID) (stopRevision : Nat)
      (input : ResumeExecutionInput)
  deriving DecidableEq

structure ExecutionEvent where
  sessionID : UUID
  executionID : UUID
  sequence : Nat
  eventType : EventType
  payload : Payload
  deriving DecidableEq

/-- The execution tables; a table's order is that of creation. -/
structure Store where
  executions : List Execution
  activities : List ExecutionActivity
  events : List ExecutionEvent
  deriving DecidableEq

/-! ## Requests -/

/-- The lease a final result is presented with. -/
structure ExecutionFinishHolder where
  leaseID : UUID
  controlRevision : Nat

/-- `FinishExecutionInput`; of the turn and the child only whether they are given. -/
structure FinishExecutionInput where
  state : ExecutionState
  workingDirectory : String
  failureDetail : String
  pendingOutput : String
  rootHolder : Option ExecutionFinishHolder
  turn : Bool
  child : Bool

structure CompactionInput where
  encoded : String

/-- `ExecutionRootProjection`: its holder, and the whole of it encoded. -/
structure ExecutionRootProjection where
  holder : ExecutionFinishHolder
  encoded : String

/-- `ExecutionChildProjection`: its control revision, and the whole of it encoded. -/
structure ExecutionChildProjection where
  controlRevision : Nat
  encoded : String

structure CompleteActivityInput where
  output : String
  context : String
  finish : Option FinishExecutionInput
  compaction : Option CompactionInput
  rootProjection : Option ExecutionRootProjection
  childProjection : Option ExecutionChildProjection

/-- The limits of a store, and what it takes from the standard library. -/
structure Config where
  maxExecutionStateBytes : Nat
  maxStoredMessageBytes : Nat
  /-- `json.Valid`. -/
  valid : String → Bool
  /-- `json.Marshal` of a resolution. -/
  encode : ResolveActivityInput → String
  /-- The hex text of `sha256.Sum256`. -/
  hash : String → String
  /-- `finishDecisionHash`. -/
  finishDecisionHash : CompleteActivityInput → String

/-! ## Reads and writes -/

def isExecutionTerminal : ExecutionState → Bool
  | .completed | .failed | .cancelled => true
  | .queued | .running | .paused | .reconciling => false

def isExecutionContext (cfg : Config) (value : String) : Bool :=
  let trimmed := trimSpace value.toList
  trimmed.head? == some '{' && cfg.valid (String.ofList trimmed)

namespace Store

section
variable (s : Store) (sessionID : UUID) (execution : Execution)

def findExecution (sessionID executionID : UUID) : Except Err Execution :=
  match s.executions.find? fun e => e.sessionID == sessionID && e.id == executionID with
  | none => .error ⟨.notFound, "find session execution"⟩
  | some e => .ok e

def findExecutionActivity (sessionID activityID : UUID) : Except Err ExecutionActivity :=
  match s.activities.find? fun a => a.sessionID == sessionID && a.id == activityID with
  | none => .error ⟨.notFound, "find session activity"⟩
  | some a => .ok a

def updateExecution (sessionID executionID : UUID) (f : Execution → Execution) : Store :=
  { s with executions := s.executions.map fun e =>
      if e.sessionID == sessionID && e.id == executionID then f e else e }

/-- `UPDATE execution_activities … WHERE session_id = ? AND id = ?`. -/
def updateActivity (sessionID activityID : UUID) (f : ExecutionActivity → ExecutionActivity) :
    Store :=
  { s with activities := s.activities.map fun a =>
      if a.sessionID == sessionID && a.id == activityID then f a else a }

/-- `Store.appendExecutionEvent`. The caller's copy of the execution counts the event too. -/
def appendExecutionEvent (eventType : EventType) (payload : Payload) :
    Except Err (Execution × Store) :=
  if execution.eventCount = maxInt64 then
    .error ⟨.invalidState, "execution event sequence exhausted"⟩
  else
    let sequence := execution.eventCount + 1
    let event : ExecutionEvent := ⟨execution.sessionID, execution.id, sequence, eventType, payload⟩
    let s := { s with events := s.events ++ [event] }
    .ok ({ execution with eventCount := sequence },
      s.updateExecution execution.sessionID execution.id fun e => { e with eventCount := sequence })

def appendActivityEvent (activity : ExecutionActivity) (eventType : EventType) :
    Except Err (Execution × Store) :=
  s.appendExecutionEvent execution eventType
    (.activity activity.id activity.stepID activity.kind activity.attempt)

/-! ## Control of execution trees -/

/-- One round of the recursive query of `Subtree`: the ids reached and their children. -/
def withChildren (ids : List UUID) : List UUID :=
  (s.executions.filter fun e => e.sessionID == sessionID &&
    (ids.contains e.id || e.parentExecutionID.any ids.contains)).map (·.id)

/-- The executions below some, in so many rounds. -/
def reachable (s : Store) (sessionID : UUID) : Nat → List UUID → List UUID
  | 0, ids => ids
  | n + 1, ids => s.reachable sessionID n (s.withChildren sessionID ids)

/-- `Subtree`: the execution and its descendants. A path has no more executions than the table. -/
def subtree (sessionID executionID : UUID) : List Execution :=
  let target := (s.executions.filter fun e => e.sessionID == sessionID && e.id == executionID).map
    (·.id)
  let ids := s.reachable sessionID s.executions.length target
  s.executions.filter fun e => e.sessionID == sessionID && ids.contains e.id

/-- A decision about a tree of executions. -/
inductive Control where
  | pause
  | resume

def Control.eventType : Control → EventType
  | .pause => .executionPaused
  | .resume => .executionResumed

def shouldChangeExecutionState (state : ExecutionState) : Control → Bool
  | .pause => state != .paused && !isExecutionTerminal state
  | .resume => state == .paused

/-- Pause or resume one row and tell it. -/
def changeExecutionState (control : Control) (reason : String) : Except Err Store :=
  if execution.controlRevision = maxInt64 then
    .error ⟨.invalidState, "execution control revision exhausted"⟩
  else
    match control with
    | .pause =>
      .ok (s.updateExecution execution.sessionID execution.id fun e =>
        { e with controlRevision := e.controlRevision + 1, state := .paused, pauseReason := reason })
    | .resume =>
      let state := if execution.workflowExecutionID ≠ "" then .running else .queued
      .ok (s.updateExecution execution.sessionID execution.id fun e =>
        { e with controlRevision := e.controlRevision + 1, state := state })

/-- The loop of `Store.changeExecutionSubtree`. -/
def changeExecutions (control : Control) (reason : String) (payload : Payload) :
    List Execution → Store → Except Err (List UUID × Store)
  | [], s => .ok ([], s)
  | execution :: members, s =>
    if shouldChangeExecutionState execution.state control then do
      let s ← s.changeExecutionState execution control reason
      let (_, s) ← s.appendExecutionEvent execution control.eventType payload
      let (changed, s) ← changeExecutions control reason payload members s
      .ok (execution.id :: changed, s)
    else changeExecutions control reason payload members s

def changeExecutionSubtree (sessionID executionID : UUID) (control : Control) (reason : String)
    (payload : Payload) : Except Err (List UUID × Store) :=
  changeExecutions control reason payload (s.subtree sessionID executionID) s

/-- Pause or resume an execution and what is below it. -/
def changeExecutionTree (sessionID executionID : UUID) (control : Control) (reason : String)
    (payload : Payload) : Except Err (List UUID × Store) := do
  let _ ← s.findExecution sessionID executionID
  s.changeExecutionSubtree sessionID executionID control reason payload

def pauseExecution (cfg : Config) (sessionID executionID : UUID) (reason : String) :
    Except Err (List UUID × Store) :=
  if reason.utf8ByteSize > cfg.maxStoredMessageBytes then
    .error ⟨.validationFailed, "execution pause reason exceeds storage limit"⟩
  else s.changeExecutionTree sessionID executionID .pause reason (.reason reason)

def resumeExecution (sessionID executionID : UUID) : Except Err (List UUID × Store) :=
  s.changeExecutionTree sessionID executionID .resume "" .empty

def executionCrashPauseReason : String := "paused after a crash"

/-- The loop of `Store.PauseUnfinishedExecutions`. -/
def pauseEach : List Execution → Store → Except Err (Nat × Store)
  | [], s => .ok (0, s)
  | execution :: rest, s => do
    let (changed, s) ← s.changeExecutionSubtree execution.sessionID execution.id .pause
      executionCrashPauseReason (.reason executionCrashPauseReason)
    let (paused, s) ← pauseEach rest s
    .ok (changed.length + paused, s)

def pauseUnfinishedExecutions : Except Err (Nat × Store) :=
  pauseEach (s.executions.filter fun e => (e.state == .running || e.state == .reconciling) &&
    (sessionID == UUID.nil || e.sessionID == sessionID)) s

end

end Store

end Peen.Executions
