import Peen.Session.Execution

/-!
# Activities of executions

An activity is a step of an execution: its input is saved before the work begins, and its result
before the work is acknowledged. What is asked of other tables is answered by `ClaimAnswers` and
`CompletionAnswers`, which every theorem leaves open.
-/

namespace Peen.Executions

/-- The answer to a claim. -/
inductive ActivityDecision where
  | execute
  | reuse
  | paused
  | reconcile
  deriving DecidableEq

/-- The activity a claim is about. -/
structure ScheduleActivityInput where
  stepID : String
  kind : ActivityKind
  replayPolicy : ReplayPolicy
  name : String
  input : String

/-- `ActivityClaim`. The lease is there exactly if the decision is to execute. -/
structure ActivityClaim where
  activity : ExecutionActivity
  lease : Option ActivityLease
  decision : ActivityDecision

/-- What is outside a claim: the id `newID` returns, and the answer of `claimExecutionChild`. -/
structure ClaimAnswers where
  newID : UUID
  child : Except Err Unit

/-- A turn lease as `findExecutionTurnLease` reads it. -/
structure TurnLease where
  leaseID : UUID
  ownerGenerationID : UUID
  controlRevision : Nat

/-- What is outside a completion: the checks of the messages and events of its projections and of the
turn and child it finishes, the turn lease, and the writes to transcripts, turns, agent runs and
inboxes. -/
structure CompletionAnswers where
  rootProjectionInput : Except Err Unit
  childProjectionInput : Except Err Unit
  finishChildInput : Except Err Unit
  turnLease : Except Err TurnLease
  compaction : Except Err Unit
  rootProjection : Except Err Unit
  childProjection : Except Err Unit
  inbox : Except Err Unit
  turn : Except Err Unit
  child : Except Err Unit

def maximumActivityIdentityBytes : Nat := 512

def interruptedActivityReason : String := "previous activity outcome is unknown"

def emptyActivityJSON : String := "\x7b\x7d"

def executionFinishActivityName : String := "finishExecutionV1"

def executionFinishStepID : String := "finish"

/-! ## BeginExecutionActivity -/

def validateActivityPolicy (input : ScheduleActivityInput) : Except Err Unit :=
  if input.replayPolicy = .unknown then .error ⟨.validationFailed, "activity replay policy"⟩
  else
    match input.kind with
    | .model | .compaction | .preparation =>
      if input.replayPolicy ≠ .retry then
        .error ⟨.validationFailed, "activity kind requires retry policy"⟩
      else .ok ()
    | .tool => .ok ()
    | .unknown => .error ⟨.validationFailed, "activity kind"⟩

def validateActivityInput (cfg : Config) (input : ScheduleActivityInput) : Except Err Unit :=
  if input.stepID == "" || input.name == "" ||
      input.stepID.utf8ByteSize > maximumActivityIdentityBytes ||
      input.name.utf8ByteSize > maximumActivityIdentityBytes ||
      !isExecutionContext cfg input.input ||
      input.input.utf8ByteSize > cfg.maxExecutionStateBytes then
    .error ⟨.validationFailed, "activity input"⟩
  else validateActivityPolicy input

/-- A repeated claim names the same work. -/
def sameActivityInput (activity : ExecutionActivity) (input : ScheduleActivityInput) : Bool :=
  activity.kind == input.kind && activity.name == input.name &&
    activity.replayPolicy == input.replayPolicy && activity.inputJSON == input.input

/-- The row `ensureExecutionActivity` creates. -/
def scheduledActivity (newID : UUID) (execution : Execution) (input : ScheduleActivityInput) :
    ExecutionActivity where
  id := newID
  sessionID := execution.sessionID
  executionID := execution.id
  stepID := input.stepID
  kind := input.kind
  state := .scheduled
  replayPolicy := input.replayPolicy
  name := input.name
  inputJSON := input.input
  outputJSON := none
  contextJSON := emptyActivityJSON
  attempt := 0
  ownerGenerationID := none
  failureDetail := ""
  resolutionJSON := .empty

def ExecutionActivity.started (a : ExecutionActivity) (generationID : UUID) : ExecutionActivity :=
  { a with state := .running, attempt := a.attempt + 1, ownerGenerationID := some generationID,
           failureDetail := "", resolutionJSON := .empty }

def ExecutionActivity.uncertain (a : ExecutionActivity) : ExecutionActivity :=
  { a with state := .uncertain, failureDetail := interruptedActivityReason }

def ExecutionActivity.withResult (a : ExecutionActivity) (output context : String) :
    ExecutionActivity :=
  { a with state := .completed, outputJSON := some output, contextJSON := context,
           failureDetail := "" }

namespace Store

section
variable (s : Store)

section
variable (child : Except Err Unit) (execution : Execution) (activity : ExecutionActivity)
  (generationID : UUID)

/-- `INSERT INTO execution_activities`, with the primary key and the key (execution, step). -/
def createActivity : Except Err Store :=
  if s.activities.any fun a => a.id == activity.id ||
      (a.executionID == activity.executionID && a.stepID == activity.stepID) then
    .error ⟨.storage, "schedule execution activity"⟩
  else .ok { s with activities := s.activities ++ [activity] }

def ensureExecutionActivity (newID : UUID) (execution : Execution)
    (input : ScheduleActivityInput) : Except Err (ExecutionActivity × Execution × Store) :=
  match s.activities.find? fun a => a.sessionID == execution.sessionID &&
      a.executionID == execution.id && a.stepID == input.stepID with
  | some activity =>
    if sameActivityInput activity input then .ok (activity, execution, s)
    else .error ⟨.conflict, "saved activity input differs"⟩
  | none => do
    let activity := scheduledActivity newID execution input
    let s ← s.createActivity activity
    let (execution, s) ← s.appendActivityEvent execution activity .stepScheduled
    .ok (activity, execution, s)

def markActivityUncertain : Except Err (ExecutionActivity × Store) := do
  let s := s.updateActivity activity.sessionID activity.id ExecutionActivity.uncertain
  let s := if execution.state ≠ .paused ∧ isExecutionTerminal execution.state = false then
      s.updateExecution execution.sessionID execution.id fun e => { e with state := .reconciling }
    else s
  let (_, s) ← s.appendActivityEvent execution activity.uncertain .stepUncertain
  .ok (activity.uncertain, s)

/-- `Store.claimExecutionChild`: only a child asks for its agent run. -/
def claimExecutionChild (child : Except Err Unit) : Except Err Unit :=
  if execution.kind = .child then child else .ok ()

/-- The check of `Store.startActivityAttempt` before it counts an attempt. -/
def checkActivityAttempt : Except Err Unit :=
  if activity.attempt = maxInt64 then .error ⟨.invalidState, "activity attempt overflow"⟩
  else .ok ()

def markExecutionRunning : Execution × Store :=
  if execution.state = .queued then
    ({ execution with state := .running },
      s.updateExecution execution.sessionID execution.id fun e => { e with state := .running })
  else (execution, s)

def startActivityAttempt : Except Err (ExecutionActivity × Store) := do
  let _ ← claimExecutionChild execution child
  let _ ← checkActivityAttempt activity
  let s := s.updateActivity activity.sessionID activity.id (·.started generationID)
  let (execution, s) := s.markExecutionRunning execution
  let (_, s) ← s.appendActivityEvent execution (activity.started generationID) .stepStarted
  .ok (activity.started generationID, s)

/-- The answer to a claim that executes: an attempt is started, and its lease handed out. -/
def executeActivity : Except Err (ActivityClaim × Store) := do
  let (activity, s) ← s.startActivityAttempt child execution activity generationID
  .ok (⟨activity, some ⟨activity.id, generationID, activity.attempt⟩, .execute⟩, s)

/-- The decision, and a lease where the work is to be executed. -/
def claimExecutionActivity : Except Err (ActivityClaim × Store) :=
  if execution.state = .paused then .ok (⟨activity, none, .paused⟩, s)
  else if activity.state = .completed then .ok (⟨activity, none, .reuse⟩, s)
  else if isExecutionTerminal execution.state then
    .error ⟨.invalidState, "execution is terminal"⟩
  else if activity.state = .uncertain then .ok (⟨activity, none, .reconcile⟩, s)
  else if activity.state = .running then
    if activity.ownerGenerationID = some generationID then
      .error ⟨.conflict, "activity already has a live claim"⟩
    else if activity.replayPolicy = .reconcile then do
      let (activity, s) ← s.markActivityUncertain execution activity
      .ok (⟨activity, none, .reconcile⟩, s)
    else s.executeActivity child execution activity generationID
  else s.executeActivity child execution activity generationID

end

/-- Find or create the activity, and decide the claim. -/
def beginExecutionActivity (cfg : Config) (answers : ClaimAnswers)
    (sessionID executionID generationID : UUID) (input : ScheduleActivityInput) :
    Except Err (ActivityClaim × Store) :=
  if generationID = UUID.nil then .error ⟨.validationFailed, "activity worker generation"⟩
  else do
    let _ ← validateActivityInput cfg input
    let execution ← s.findExecution sessionID executionID
    let (activity, execution, s) ← s.ensureExecutionActivity answers.newID execution input
    s.claimExecutionActivity answers.child execution activity generationID

end

end Store

/-! ## Checks of a completion -/

def validateExecutionFinishHolder (holder : ExecutionFinishHolder) : Except Err Unit :=
  if holder.leaseID = UUID.nil then .error ⟨.validationFailed, "final root holder identity"⟩
  else .ok ()

section
variable (cfg : Config)

section
variable (answers : CompletionAnswers) (activity : ExecutionActivity) (execution : Execution)
  (input : CompleteActivityInput)

def validateRootProjection : Except Err Unit :=
  match input.rootProjection with
  | none => .ok ()
  | some projection =>
    if input.finish.isSome || input.compaction.isSome then
      .error ⟨.validationFailed, "root projection cannot replace finalization or compaction"⟩
    else do
      let _ ← validateExecutionFinishHolder projection.holder
      if projection.encoded.utf8ByteSize > cfg.maxExecutionStateBytes then
        .error ⟨.validationFailed, "root projection exceeds storage limit"⟩
      else answers.rootProjectionInput

def validateChildProjection : Except Err Unit :=
  match input.childProjection with
  | none => .ok ()
  | some projection =>
    if input.rootProjection.isSome || input.finish.isSome || input.compaction.isSome then
      .error ⟨.validationFailed, "child projection cannot mix completion payloads"⟩
    else if projection.encoded.utf8ByteSize > cfg.maxExecutionStateBytes then
      .error ⟨.validationFailed, "child projection exceeds storage limit"⟩
    else answers.childProjectionInput

def validExecutionFinishState (state : ExecutionState) : Bool :=
  state == .completed || state == .failed

def validatePendingFinishOutput (input : FinishExecutionInput) : Except Err Unit :=
  if input.pendingOutput ≠ "" ∧ (input.state ≠ .completed ∨
      isExecutionContext cfg input.pendingOutput = false ∨
      input.pendingOutput.utf8ByteSize > cfg.maxExecutionStateBytes) then
    .error ⟨.validationFailed, "execution pending continuation output"⟩
  else .ok ()

def validateFinishInput : Option FinishExecutionInput → Except Err Unit
  | none => .ok ()
  | some input =>
    if !validExecutionFinishState input.state ||
        (input.state == .completed && input.failureDetail != "") ||
        (input.state == .failed && input.failureDetail == "") ||
        input.failureDetail.utf8ByteSize > cfg.maxStoredMessageBytes ||
        input.workingDirectory.utf8ByteSize > cfg.maxStoredMessageBytes then
      .error ⟨.validationFailed, "execution terminal result"⟩
    else do
      let _ ← validatePendingFinishOutput cfg input
      answers.finishChildInput

/-- The part of `Store.validateActivityResult` that checks an output and a context. -/
def validateResultJSON (output context : String) : Except Err Unit :=
  if !isExecutionContext cfg output || !isExecutionContext cfg context ||
      output.utf8ByteSize > cfg.maxExecutionStateBytes ||
      context.utf8ByteSize > cfg.maxExecutionStateBytes then
    .error ⟨.validationFailed, "activity result"⟩
  else .ok ()

def validateActivityResult : Except Err Unit := do
  let _ ← validateResultJSON cfg input.output input.context
  let _ ← validateRootProjection cfg answers input
  let _ ← validateChildProjection cfg answers input
  validateFinishInput cfg answers input.finish

/-- `validExecutionFinishStepID`: `finish`, or `finish:` and the decimal text of a positive
integer. -/
def validExecutionFinishStepID (step : String) : Bool :=
  step == executionFinishStepID ||
    match (executionFinishStepID ++ ":").toList.isPrefixOf? step.toList with
    | none => false
    | some value =>
      match value with
      | [] => false
      | digit :: _ => digit != '0' && value.all Char.isDigit &&
          value.foldl (fun n c => 10 * n + (c.toNat - '0'.toNat)) 0 ≤ maxInt64

def validateFinishIdentity : Except Err Unit :=
  match input.finish with
  | none =>
    if activity.name = executionFinishActivityName then
      .error ⟨.validationFailed, "final activity requires an execution result"⟩
    else .ok ()
  | some _ =>
    if activity.name ≠ executionFinishActivityName ∨
        validExecutionFinishStepID activity.stepID = false ∨ activity.kind ≠ .preparation then
      .error ⟨.validationFailed, "activity cannot finish an execution"⟩
    else .ok ()

def validateChildFinishClaim (input : FinishExecutionInput) : Except Err Unit :=
  if input.child ∧ (execution.kind ≠ .child ∨ execution.agentRunID = none) then
    .error ⟨.conflict, "child terminal result belongs to another execution kind"⟩
  else .ok ()

def validateFinishClaim : Except Err Unit := do
  let _ ← validateFinishIdentity activity input
  match input.finish with
  | none => .ok ()
  | some finish => do
    let _ ← validateChildFinishClaim execution finish
    if execution.state = .paused ∨ execution.state = .reconciling ∨
        isExecutionTerminal execution.state then
      .error ⟨.conflict, "execution cannot finish in its current state"⟩
    else .ok ()

/-- `checkExecutionFinishHolder`, for the holder of a final result or of a root projection. -/
def checkExecutionFinishHolder : Option ExecutionFinishHolder → Except Err Unit
  | none => .ok ()
  | some proof =>
    if execution.kind ≠ .root then
      .error ⟨.conflict, "final holder belongs to a root execution"⟩
    else do
      let holder ← answers.turnLease
      if holder.leaseID ≠ proof.leaseID ∨
          some holder.ownerGenerationID ≠ activity.ownerGenerationID ∨
          holder.controlRevision ≠ proof.controlRevision ∨
          execution.controlRevision ≠ proof.controlRevision then
        .error ⟨.conflict, "final root callback holder changed"⟩
      else .ok ()

/-! ## Repeats of a completion -/

def ResolutionJSON.projectionHash : ResolutionJSON → String
  | .projection hash => hash
  | _ => ""

def ResolutionJSON.compactionHash : ResolutionJSON → String
  | .compaction hash => hash
  | _ => ""

def activityProjectionInput : Option String :=
  match input.rootProjection with
  | some projection => some projection.encoded
  | none => input.childProjection.map (·.encoded)

/-- `validateProjectionRepeat`. An absent projection is encoded as `null`. -/
def validateProjectionRepeat : Except Err Unit :=
  let projection := activityProjectionInput input
  let saved := activity.resolutionJSON.projectionHash
  if projection = none ∧ saved = "" then .ok ()
  else if cfg.hash (projection.getD "null") ≠ saved then
    .error ⟨.conflict, "activity transcript projection changed"⟩
  else .ok ()

def validateCompactionRepeat (input : Option CompactionInput) : Except Err Unit :=
  let saved := activity.resolutionJSON.compactionHash
  if input = none ∧ saved = "" then .ok ()
  else if cfg.hash ((input.map (·.encoded)).getD "null") ≠ saved then
    .error ⟨.conflict, "compaction completion changed"⟩
  else .ok ()

def validateFinishDecisionOutput (continued : Bool) : Except Err Unit :=
  match input.finish with
  | none => .error ⟨.conflict, "saved finish decision requires original result"⟩
  | some finish =>
    let expected := if continued then finish.pendingOutput else input.output
    if activity.outputJSON ≠ some expected ∨ activity.contextJSON ≠ input.context then
      .error ⟨.conflict, "saved finish continuation differs"⟩
    else .ok ()

/-- `repeatFinishDecision`: whether the saved decision continued the execution. -/
def repeatFinishDecision : Except Err Bool :=
  match activity.resolutionJSON with
  | .finishDecision inputHash continued => do
    let _ ← validateFinishDecisionOutput activity input continued
    if cfg.finishDecisionHash input ≠ inputHash then
      .error ⟨.conflict, "finish decision input changed"⟩
    else .ok continued
  | _ => .ok false

/-- A repeated completion has the same result. -/
def sameActivityResult : Bool :=
  activity.outputJSON == some input.output && activity.contextJSON == input.context

def validateFinishedRepeat : Except Err Unit :=
  match input.finish with
  | none => .ok ()
  | some finish =>
    if execution.state ≠ finish.state ∨ execution.failureDetail ≠ finish.failureDetail ∨
        execution.contextJSON ≠ input.context ∨
        (finish.workingDirectory ≠ "" ∧ execution.workingDirectory ≠ finish.workingDirectory) then
      .error ⟨.conflict, "completed execution result differs"⟩
    else .ok ()

/-- The saved finish decision of an activity, where it is consulted. -/
def matchedFinishDecision : Except Err Bool :=
  if activity.resolutionJSON ≠ .empty ∧ input.finish.isSome then
    repeatFinishDecision cfg activity input
  else .ok false

/-- `completedExecutionActivity`: the answer to the completion of a completed activity. -/
def completedExecutionActivity : Except Err ExecutionActivity := do
  let _ ← validateProjectionRepeat cfg activity input
  let _ ← validateCompactionRepeat cfg activity input.compaction
  let _ ← validateFinishIdentity activity input
  let matched ← matchedFinishDecision cfg activity input
  if matched then .ok activity
  else if sameActivityResult activity input = false then
    .error ⟨.conflict, "completed activity result differs"⟩
  else do
    let _ ← validateFinishedRepeat execution input
    .ok activity

end

end

/-! ## CompleteExecutionActivity -/

namespace Store

section
variable (s : Store)

section
variable (cfg : Config) (answers : CompletionAnswers) (sessionID : UUID) (lease : ActivityLease)
  (activity : ExecutionActivity) (execution : Execution) (terminal : ExecutionState)
  (input : CompleteActivityInput) (finish : FinishExecutionInput)

def activityForLease : Except Err (ExecutionActivity × Execution) :=
  if lease.id = UUID.nil ∨ lease.generationID = UUID.nil ∨ lease.attempt < 1 then
    .error ⟨.validationFailed, "activity lease"⟩
  else do
    let activity ← s.findExecutionActivity sessionID lease.id
    if activity.ownerGenerationID ≠ some lease.generationID then
      .error ⟨.permissionDenied, "activity belongs to another worker"⟩
    else if activity.attempt ≠ lease.attempt then
      .error ⟨.conflict, "activity attempt was replaced"⟩
    else do
      let execution ← s.findExecution sessionID activity.executionID
      .ok (activity, execution)

def saveActivityResult (output context : String) : ExecutionActivity × Store :=
  (activity.withResult output context,
    s.updateActivity activity.sessionID activity.id fun a =>
      if a.attempt = activity.attempt ∧ a.ownerGenerationID = activity.ownerGenerationID then
        a.withResult output context
      else a)

def saveResolution (resolution : ResolutionJSON) : ExecutionActivity × Store :=
  ({ activity with resolutionJSON := resolution },
    s.updateActivity activity.sessionID activity.id fun a => { a with resolutionJSON := resolution })

/-- The check of `Store.saveActivityCompaction`, and of `Store.saveChildActivityCompaction`. -/
def checkActivityCompaction : Except Err Unit :=
  match execution.kind with
  | .child =>
    if activity.kind ≠ .compaction ∨ input.finish.isSome ∨ execution.agentRunID = none ∨
        execution.agentRunID = some UUID.nil then
      .error ⟨.validationFailed, "compaction requires a child compaction activity"⟩
    else .ok ()
  | .root =>
    if activity.kind ≠ .compaction ∨ input.finish.isSome then
      .error ⟨.validationFailed, "compaction requires a root compaction activity"⟩
    else .ok ()

/-- `Store.saveActivityCompaction` and `Store.saveChildActivityCompaction`. -/
def saveActivityCompaction : Except Err (ExecutionActivity × Store) :=
  match input.compaction with
  | none => .ok (activity, s)
  | some compaction => do
    let _ ← checkActivityCompaction activity execution input
    let _ ← answers.compaction
    .ok (s.saveResolution activity (.compaction (cfg.hash compaction.encoded)))

def saveRootActivityProjection : Except Err (ExecutionActivity × Store) :=
  match input.rootProjection with
  | none => .ok (activity, s)
  | some projection =>
    if execution.kind ≠ .root ∨ execution.state ≠ .running then
      .error ⟨.conflict, "root projection requires a running root execution"⟩
    else do
      let _ ← checkExecutionFinishHolder answers activity execution (some projection.holder)
      let _ ← answers.rootProjection
      .ok (s.saveResolution activity (.projection (cfg.hash projection.encoded)))

def saveChildActivityProjection : Except Err (ExecutionActivity × Store) :=
  match input.childProjection with
  | none => .ok (activity, s)
  | some projection =>
    if execution.kind ≠ .child ∨ execution.agentRunID = none ∨ execution.state ≠ .running ∨
        execution.controlRevision ≠ projection.controlRevision then
      .error ⟨.conflict, "child projection execution changed"⟩
    else do
      let _ ← answers.childProjection
      .ok (s.saveResolution activity (.projection (cfg.hash projection.encoded)))

def saveActivityProjection : Except Err (ExecutionActivity × Store) := do
  let (activity, s) ← s.saveRootActivityProjection cfg answers activity execution input
  s.saveChildActivityProjection cfg answers activity execution input

def requireSettledExecutionActivities : Except Err Unit :=
  if s.activities.any fun a => a.sessionID == execution.sessionID &&
      a.executionID == execution.id &&
      !(a.state == .completed || (terminal == .failed && a.state == .failed)) then
    .error ⟨.conflict, "execution still has unsettled activities"⟩
  else .ok ()

/-- `requireSettledExecutionInbox`: only a completed execution asks for a settled inbox. -/
def requireSettledExecutionInbox : Except Err Unit :=
  if terminal = .completed then answers.inbox else .ok ()

def finishExecutionTurn : Except Err Unit :=
  if finish.turn then answers.turn else .ok ()

def finishExecutionChild : Except Err Unit :=
  if finish.child then answers.child else .ok ()

/-- End the execution with its final activity. -/
def finishExecution : Except Err Store :=
  match input.finish with
  | none => .ok s
  | some finish => do
    let _ ← s.requireSettledExecutionActivities execution finish.state
    let _ ← requireSettledExecutionInbox answers finish.state
    let directory := if finish.workingDirectory ≠ "" then finish.workingDirectory
      else execution.workingDirectory
    let _ ← finishExecutionTurn answers finish
    let _ ← finishExecutionChild answers finish
    let s := s.updateExecution execution.sessionID execution.id fun e =>
      { e with state := finish.state, contextJSON := input.context, workingDirectory := directory,
               failureDetail := finish.failureDetail }
    let kind := if finish.state = .failed then EventType.executionFailed else .executionCompleted
    let (_, s) ← s.appendExecutionEvent execution kind (.output input.output)
    .ok s

def saveFinishDecision (continued : Bool) : ExecutionActivity × Store :=
  s.saveResolution activity (.finishDecision (cfg.finishDecisionHash input) continued)

def savePendingFinishDecision : ExecutionActivity × Store :=
  let (activity, s) := s.saveActivityResult activity finish.pendingOutput input.context
  s.saveFinishDecision cfg activity input true

def finishActivityCompletion : Except Err (ExecutionActivity × Store) :=
  match s.finishExecution answers execution input, input.finish with
  | .ok s, some finish =>
    if finish.pendingOutput ≠ "" ∨ finish.turn ∨ finish.child then
      .ok (s.saveFinishDecision cfg activity input false)
    else .ok (activity, s)
  | .ok s, none => .ok (activity, s)
  | .error e, some finish =>
    if e.kind = .executionInboxPending ∧ finish.pendingOutput ≠ "" then
      .ok (s.savePendingFinishDecision cfg activity input finish)
    else .error e
  | .error e, none => .error e

/-- The writes of `Store.completeActivityWithQuery` for a running activity. -/
def saveCompletion : Except Err (ExecutionActivity × Store) := do
  let (activity, s) := s.saveActivityResult activity input.output input.context
  let (activity, s) ← s.saveActivityCompaction cfg answers activity execution input
  let (activity, s) ← s.saveActivityProjection cfg answers activity execution input
  let (execution, s) ← s.appendActivityEvent execution activity .stepCompleted
  s.finishActivityCompletion cfg answers activity execution input

def completeActivityWithQuery : Except Err (ExecutionActivity × Store) := do
  let (activity, execution) ← s.activityForLease sessionID lease
  if activity.state = .completed then do
    let activity ← completedExecutionActivity cfg activity execution input
    .ok (activity, s)
  else if activity.state ≠ .running then .error ⟨.conflict, "activity is not running"⟩
  else do
    let _ ← validateFinishClaim activity execution input
    let _ ← checkExecutionFinishHolder answers activity execution (input.finish.bind (·.rootHolder))
    s.saveCompletion cfg answers activity execution input

/-- Complete an attempt under its lease. -/
def completeExecutionActivity : Except Err (ExecutionActivity × Store) := do
  let _ ← validateActivityResult cfg answers input
  s.completeActivityWithQuery cfg answers sessionID lease input

/-! ## InterruptExecutionActivity -/

/-- How an attempt that may be repeated ends, and the event that records it. -/
def interruptedState : ActivityState × EventType :=
  if execution.state = .paused then (.paused, .stepPaused) else (.failed, .stepFailed)

/-- Give an attempt up under its lease. -/
def interruptExecutionActivity : Except Err Store := do
  let (activity, execution) ← s.activityForLease sessionID lease
  if activity.state ≠ .running then .ok s
  else if activity.replayPolicy = .reconcile then do
    let (_, s) ← s.markActivityUncertain execution activity
    .ok s
  else do
    let (state, kind) := interruptedState execution
    let s := s.updateActivity sessionID activity.id fun a =>
      { a with state := state, failureDetail := interruptedActivityReason }
    let (_, s) ← s.appendActivityEvent execution { activity with state := state } kind
    .ok s

/-! ## ResolveExecutionActivity -/

/-- `activityResolutionStatus`: whether the resolution is recorded already. -/
def activityResolutionStatus (input : ResolveActivityInput) (payload : String) : Except Err Bool :=
  if activity.attempt ≠ input.attempt then
    .error ⟨.conflict, "activity resolution attempt was replaced"⟩
  else if activity.resolutionJSON = .inspection payload then .ok true
  else if activity.state ≠ .uncertain then .error ⟨.conflict, "activity is not uncertain"⟩
  else .ok false

/-- `Store.validateActivityResolution`. An accepted result has no projection and finishes nothing. -/
def validateActivityResolution (input : ResolveActivityInput) : Except Err Unit :=
  if input.attempt < 1 ∨ input.evidence = "" ∨
      input.evidence.utf8ByteSize > cfg.maxStoredMessageBytes then
    .error ⟨.validationFailed, "activity resolution requires inspection evidence"⟩
  else
    match input.resolution with
    | .retry =>
      if input.output ≠ "" ∨ input.context ≠ "" then
        .error ⟨.validationFailed, "retry resolution cannot supply a result"⟩
      else .ok ()
    | .accept => validateResultJSON cfg input.output input.context
    | .unknown => .error ⟨.validationFailed, "activity resolution"⟩

def applyActivityResolution (input : ResolveActivityInput) (payload : String) :
    ExecutionActivity × Store :=
  let (activity, s) := s.saveResolution activity (.inspection payload)
  if input.resolution = .accept then s.saveActivityResult activity input.output input.context
  else
    ({ activity with state := .scheduled, ownerGenerationID := none, failureDetail := "" },
      s.updateActivity activity.sessionID activity.id fun a =>
        { a with state := .scheduled, ownerGenerationID := none, failureDetail := "" })

def restoreReconciledExecution : Store :=
  if execution.state ≠ .reconciling then s
  else if s.activities.any fun a => a.executionID == execution.id &&
      a.sessionID == execution.sessionID && a.state == .uncertain then s
  else s.updateExecution execution.sessionID execution.id fun e => { e with state := .running }

def resolveActivityWithQuery (sessionID activityID : UUID)
    (input : ResolveActivityInput) (payload : String) : Except Err (ExecutionActivity × Store) := do
  let activity ← s.findExecutionActivity sessionID activityID
  let isDuplicate ← activityResolutionStatus activity input payload
  if isDuplicate then .ok (activity, s)
  else do
    let execution ← s.findExecution sessionID activity.executionID
    let (activity, s) := s.applyActivityResolution activity input payload
    let (_, s) ← s.appendExecutionEvent execution .stepResolved (.resolution activity.id input)
    .ok (activity, s.restoreReconciledExecution execution)

/-- Record the inspection of an uncertain effect. -/
def resolveExecutionActivity (sessionID activityID : UUID) (input : ResolveActivityInput) :
    Except Err (ExecutionActivity × Store) := do
  let _ ← validateActivityResolution cfg input
  s.resolveActivityWithQuery sessionID activityID input (cfg.encode input)

end

end

end Store

end Peen.Executions
