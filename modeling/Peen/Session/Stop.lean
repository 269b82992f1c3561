import Peen.Session.Inbox

/-!
# Stopping a session and creating executions

A stop advances the session's stop revision, pauses every execution that has not ended and requests
the cancellation of the active turn.
-/

namespace Peen.Sessions

open Executions

def executionUserStopReason : String := "user requested stop"

structure CreateExecutionInput where
  id : UUID
  rootTurnID : UUID
  parentExecutionID : Option UUID
  agentRunID : Option UUID
  workflowVersion : String
  workflowExecutionID : String
  task : String
  workingDirectory : String
  context : String
  deferredInboxID : Option UUID

section
variable (cfg : Config) (input : CreateExecutionInput)

/-- What is outside a creation: whether the child's agent run has the parent's lineage
(`findAgentRunWithQuery` and the checks on it), and `completedHookInboxWatermark` of the source of a
deferred message. -/
structure CreationAnswers where
  lineage : Except Err Unit
  boundary : Except Err Unit

def validateExecutionLineageInput : Except Err Unit :=
  match input.parentExecutionID with
  | none =>
    if input.agentRunID.isSome then
      .error ⟨.validationFailed, "root execution cannot name a child run"⟩
    else .ok ()
  | some parentID =>
    if input.agentRunID.getD UUID.nil = UUID.nil ∨ parentID = UUID.nil ∨ parentID = input.id then
      .error ⟨.validationFailed, "child execution identity"⟩
    else .ok ()

def validateExecutionInput : Except Err Unit :=
  if input.id = UUID.nil ∨ input.rootTurnID = UUID.nil ∨ input.workflowVersion = "" ∨
      input.workingDirectory = "" ∨
      isExecutionContext cfg.toConfig input.context = false then
    .error ⟨.validationFailed, "execution identity and context"⟩
  else if input.context.utf8ByteSize > cfg.maxExecutionStateBytes ∨
      input.task.utf8ByteSize > cfg.maxStoredMessageBytes then
    .error ⟨.validationFailed, "execution context or task exceeds storage limit"⟩
  else validateExecutionLineageInput input

def sameExecutionIdentity (existing : Execution) (input : CreateExecutionInput) : Bool :=
  existing.rootTurnID == input.rootTurnID && existing.workflowVersion == input.workflowVersion &&
    existing.workflowExecutionID == input.workflowExecutionID && existing.task == input.task &&
    existing.parentExecutionID == input.parentExecutionID && existing.agentRunID == input.agentRunID

def queuedExecution : Execution where
  id := input.id
  sessionID := cfg.sessionID
  kind := .root
  state := .queued
  parentExecutionID := input.parentExecutionID
  agentRunID := input.agentRunID
  workflowExecutionID := input.workflowExecutionID
  workingDirectory := input.workingDirectory
  contextJSON := input.context
  failureDetail := ""
  pauseReason := ""
  eventCount := 0
  controlRevision := 0
  rootTurnID := input.rootTurnID
  workflowVersion := input.workflowVersion
  task := input.task

end

namespace Tables

/-! ## Cancel -/

def advanceStopRevision (s : Tables) : Except Err Tables :=
  if s.stopRevision = maxInt64 then
    .error ⟨.invalidState, "session stop revision exhausted"⟩
  else .ok { s with stopRevision := s.stopRevision + 1 }

section
variable (cfg : Config)

section
variable (s : Tables) (active : Option ActiveTurn) (execution : Execution)
  (answers : CreationAnswers) (input : CreateExecutionInput) (created : Execution)
  (target : Execution) (message : ExecutionInboxMessage)

def pauseSessionExecutions : Except Err (List UUID × Tables) := do
  let (changed, executions) ← Store.changeExecutions .pause executionUserStopReason
    (.reason executionUserStopReason)
    (s.executions.executions.filter (·.sessionID == cfg.sessionID)) s.executions
  .ok (changed, { s with executions := executions })

/-- The request for cancellation of the active turn, while it runs. -/
def requestCancel : Tables :=
  match active with
  | none => s
  | some active => s.updateTurn active.turnID fun t =>
      if t.state = .running then { t with cancelRequested := true } else t

/-- `Cancel`: a new revision, a pause of everything, a request to the active turn. -/
def cancel : Except Err Tables := do
  let s ← s.advanceStopRevision
  let (_, s) ← pauseSessionExecutions cfg s
  .ok (s.requestCancel active)

/-! ## CreateExecution -/

/-- A root of a turn from before a stop is created paused. -/
def inheritSessionStop (turn : Turn) : Execution :=
  if turn.stopRevision ≠ s.stopRevision ∨ turn.cancelRequested ∨ turn.state = .cancelled then
    { execution with state := .paused, pauseReason := executionUserStopReason }
  else execution

/-- A child of a paused parent is created paused. -/
def inheritExecutionParent (parentID : UUID) : Except Err Execution := do
  let parent ← s.executions.findExecution cfg.sessionID parentID
  if parent.rootTurnID ≠ created.rootTurnID ∨ isExecutionTerminal parent.state then
    .error ⟨.conflict, "parent execution state"⟩
  else do
    let _ ← answers.lineage
    if parent.state = .paused then
      .ok { created with kind := .child, state := .paused, pauseReason := parent.pauseReason }
    else .ok { created with kind := .child }

def executionRecord : Except Err Execution :=
  match s.turn? input.rootTurnID with
  | none => .error ⟨.notFound, "find execution root turn"⟩
  | some turn =>
    match input.parentExecutionID with
    | none => .ok (s.inheritSessionStop (queuedExecution cfg input) turn)
    | some parentID =>
      inheritExecutionParent cfg s answers (queuedExecution cfg input) parentID

/-- `INSERT INTO executions`, with its keys: the id, the agent run, and the turn of a root. -/
def insertExecution : Except Err Tables :=
  if s.executions.executions.any fun e => e.id == created.id ||
      (created.agentRunID.isSome && e.agentRunID == created.agentRunID) ||
      (created.kind == .root && e.kind == .root && e.rootTurnID == created.rootTurnID) then
    .error ⟨.storage, "create execution record"⟩
  else .ok { s with executions := { s.executions with
    executions := s.executions.executions ++ [created] } }

def validateDeferredTarget : Except Err Unit :=
  if target.kind ≠ .root ∨ target.id = message.executionID ∨ target.task ≠ message.message ∨
      target.workingDirectory ≠ message.workingDirectory then
    .error ⟨.conflict, "deferred root text or directory differs"⟩
  else
    match s.turn? target.rootTurnID with
    | none => .error ⟨.notFound, "read deferred target turn"⟩
    | some turn =>
      if turn.requestID ≠ message.requestID then
        .error ⟨.conflict, "deferred target request differs"⟩
      else .ok ()

/-- The check of `forwardExecutionMessage` on the execution the message was sent to. -/
def validateForwardSource (source : Execution) : Except Err Unit :=
  if source.state ≠ .completed ∨ source.eventCount = maxInt64 then
    .error ⟨.conflict, "deferred source completion is unavailable"⟩
  else .ok ()

def forwardExecutionMessage : Except Err Tables := do
  let source ← s.executions.findExecution cfg.sessionID message.executionID
  let _ ← validateForwardSource source
  let _ ← answers.boundary
  let s := s.updateInbox message.id fun r =>
    { r with state := .forwarded, forwardedExecutionID := some target.id }
  let (_, executions) ← s.executions.appendExecutionEvent source .inboxForwarded
    (.handoff message.id target.id)
  .ok { s with executions := executions }

/-- The check that a message is deferred and its new root has not started. -/
def validateHandoff : Except Err Unit :=
  if message.state ≠ .deferred ∨ target.state ≠ .queued then
    .error ⟨.conflict, "deferred handoff requires an unclaimed input and new root"⟩
  else .ok ()

def bindDeferredExecution (inboxID : Option UUID) : Except Err Tables :=
  match inboxID with
  | none => .ok s
  | some inboxID =>
    match s.inbox.find? (·.id == inboxID) with
    | none => .error ⟨.notFound, "read deferred root input"⟩
    | some message =>
      if message.state = .forwarded then
        if message.forwardedExecutionID = some target.id then .ok s
        else .error ⟨.conflict, "deferred message already belongs to another root"⟩
      else do
        let _ ← s.validateDeferredTarget target message
        let _ ← validateHandoff target message
        forwardExecutionMessage cfg s answers target message

def recordInitialExecutionPause : Except Err Tables :=
  if execution.state ≠ .paused then .ok s
  else do
    let (_, executions) ← s.executions.appendExecutionEvent execution .executionPaused
      (.reason execution.pauseReason)
    .ok { s with executions := executions }

def recordExecutionCreation : Except Err Tables := do
  let (execution, executions) ← s.executions.appendExecutionEvent execution .executionCreated .empty
  { s with executions := executions }.recordInitialExecutionPause execution

/-- Create an execution once, by its identity. -/
def createExecution : Except Err Tables := do
  let _ ← validateExecutionInput cfg input
  match s.executions.findExecution cfg.sessionID input.id with
  | .ok existing =>
    if sameExecutionIdentity existing input then
      bindDeferredExecution cfg s answers existing input.deferredInboxID
    else .error ⟨.conflict, "execution identity changed"⟩
  | .error _ => do
    let created ← executionRecord cfg s answers input
    let s ← s.insertExecution created
    let s ← bindDeferredExecution cfg s answers created input.deferredInboxID
    s.recordExecutionCreation created

end

end

end Tables

end Peen.Sessions
