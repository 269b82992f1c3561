import Peen.Session.SessionRuns

/-!
# Cancelling a child, and settling an inbox

What the calls of `Session.SessionRuns` leave open: the cancellation of agent runs, and the answer
of the inbox to a completion.
-/

namespace Peen.Executions

def executionUserCancelReason : String := "user cancelled child agent"

/-- Whether the cancellation of an execution cancels an activity of it. -/
def ExecutionActivity.cancellable (a : ExecutionActivity) (execution : Execution) : Bool :=
  a.sessionID == execution.sessionID && a.executionID == execution.id &&
    a.state != .completed && a.state != .cancelled

namespace Store

/-- The loop of `Store.cancelExecutionActivities`. -/
def cancelEach (s : Store) (execution : Execution) :
    List ExecutionActivity → Except Err (Execution × Store)
  | [] => .ok (execution, s)
  | activity :: rest => do
    let s := s.updateActivity execution.sessionID activity.id fun a => { a with state := .cancelled }
    let (execution, s) ← s.appendActivityEvent execution activity .stepCancelled
    s.cancelEach execution rest

def cancelExecutionActivities (s : Store) (execution : Execution) :
    Except Err (Execution × Store) :=
  s.cancelEach execution (s.activities.filter (·.cancellable execution))

/-- The part of `Store.cancelNativeChild` on the execution tables. -/
def cancelNativeChild (s : Store) (execution : Execution) : Except Err (Execution × Store) :=
  if execution.agentRunID = none ∨ execution.controlRevision = maxInt64 then
    .error ⟨.invalidState, "cancelled child identity or revision is invalid"⟩
  else do
    let s := s.updateExecution execution.sessionID execution.id fun e =>
      { e with state := .cancelled, controlRevision := e.controlRevision + 1 }
    let (execution, s) ← s.cancelExecutionActivities execution
    s.appendExecutionEvent execution .executionCancelled (.reason executionUserCancelReason)

end Store

end Peen.Executions

namespace Peen.Sessions

open Executions

/-! ## Cancellation -/

/-- What the rows of an agent run give its cancellation: the event that records it, and the report
with the id of its row. -/
structure CancelledRun where
  eventID : UUID
  report : String
  newID : UUID

/-- What the tables of agent runs answer. -/
structure CancellationAnswers where
  /-- Whether the run still works, and its cancellation was not requested before. -/
  requested : Except Err Bool
  /-- The run of an execution. -/
  run : UUID → Except Err CancelledRun
  /-- The outcome that is read at the end. -/
  outcome : Except Err Unit

namespace Tables

section
variable (cfg : Config) (s : Tables) (answers : CancellationAnswers) (agentRunID : UUID)

def recordExecutionChildReport (child : Execution) (run : CancelledRun) : Except Err Tables :=
  match child.parentExecutionID with
  | none => .error ⟨.conflict, "reported child has no parent execution"⟩
  | some parentID => s.queueReport cfg parentID run.eventID run.eventID run.report run.newID

def cancelNativeChild (cfg : Config) (s : Tables) (run : Except Err CancelledRun)
    (execution : Execution) : Except Err Tables := do
  let (execution, executions) ← s.executions.cancelNativeChild execution
  let run ← run
  recordExecutionChildReport cfg { s with executions := executions } execution run

/-- The loop of `Store.cancelNativeChildTree`. -/
def cancelMembers (cfg : Config) (run : UUID → Except Err CancelledRun) :
    List Execution → Tables → Except Err Tables
  | [], s => .ok s
  | member :: rest, s => do
    let execution ← s.executions.findExecution cfg.sessionID member.id
    if isExecutionTerminal execution.state then cancelMembers cfg run rest s
    else do
      let s ← cancelNativeChild cfg s (run execution.id) execution
      cancelMembers cfg run rest s

def cancelNativeChildTree : Except Err Tables :=
  match s.executions.executions.find? fun e =>
      e.sessionID == cfg.sessionID && e.agentRunID == some agentRunID with
  | none => .ok s
  | some target => do
    let s ← cancelMembers cfg answers.run (s.executions.subtree cfg.sessionID target.id) s
    let _ ← answers.outcome
    .ok s

/-- Cancel the execution of a run and all below it. -/
def requestAgentRunCancellation : Except Err Tables := do
  let requested ← answers.requested
  if requested then cancelNativeChildTree cfg s answers agentRunID else .ok s

end

end Tables

/-! ## The inbox at the end of an execution -/

/-- What is read outside the tables about the inbox of an execution that ends. -/
structure InboxBoundary where
  /-- `completedHookInboxWatermark`. -/
  watermark : Except Err Nat
  /-- Whether an event is the end of a child of the execution. -/
  reported : UUID → Bool

/-- `CompletionBlockers`: a queued row, unless it is a child's report after the cutoff. -/
def ExecutionInboxMessage.blocks (row : ExecutionInboxMessage) (executionID : UUID) (cutoff : Nat)
    (reported : UUID → Bool) : Bool :=
  row.executionID == executionID && row.state == .queued &&
    !(decide (cutoff < row.sequence) && row.sourceEventID == some row.requestID &&
      reported row.requestID)

/-- `requireSettledExecutionInbox`, for an execution that completes. -/
def Tables.requireSettledExecutionInbox (s : Tables) (boundary : InboxBoundary)
    (executionID : UUID) : Except Err Unit := do
  let cutoff ← boundary.watermark
  if s.inbox.any (·.blocks executionID cutoff boundary.reported) then
    .error ⟨.executionInboxPending, "execution still has pending inbox messages"⟩
  else .ok ()

/-- What a completion is answered about the inbox of its execution. -/
def World.inboxAnswer (cfg : Config) (w : World) (boundary : InboxBoundary)
    (lease : ActivityLease) : Except Err Unit := do
  let (_, execution) ← w.tables.executions.activityForLease cfg.sessionID lease
  w.tables.requireSettledExecutionInbox boundary execution.id

/-- A call, with the answer about the inbox read from the rows. -/
def World.answered (cfg : Config) (w : World) (boundary : InboxBoundary) : Action → Action
  | .complete answers lease input newID =>
    .complete { answers with inbox := w.inboxAnswer cfg boundary lease } lease input newID
  | a => a

/-! ## Runs -/

/-- The calls of a session and the cancellation of agent runs. -/
inductive Call where
  | call (boundary : InboxBoundary) (a : Action)
  | cancelAgentRun (answers : CancellationAnswers) (agentRunID : UUID)

/-- One step of a run with cancellations: a call that succeeds. -/
def callStep (cfg : Config) (w : World) : Call → Option World
  | .call boundary a => step cfg w (w.answered cfg boundary a)
  | .cancelAgentRun answers agentRunID =>
    (Tables.requestAgentRunCancellation cfg w.tables answers agentRunID).toOption.map
      (w.commit · [])

end Peen.Sessions
