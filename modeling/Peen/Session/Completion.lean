import Peen.Session.CompactionStore
import Peen.Session.TurnHolder

/-!
# Completing an activity of a root

The completion of an activity commits its result together with what it asks the session to write: a
compaction of the history, messages of the turn, or the end of the turn.
-/

namespace Peen.Sessions

open Executions

/-- What a completion writes to the transcript. -/
structure ExecutionRootProjection where
  holder : ExecutionFinishHolder
  messages : List MessageInput

/-- `FinishExecutionInput`; of the child only whether it is given. -/
structure FinishExecutionInput where
  state : ExecutionState
  workingDirectory : String
  failureDetail : String
  pendingOutput : String
  rootHolder : Option ExecutionFinishHolder
  turn : Option FinalizeTurnInput
  child : Bool

/-- The request of a completion, with what the session writes. -/
structure CompleteActivityInput where
  output : String
  context : String
  finish : Option FinishExecutionInput
  compaction : Option CompactionInput
  rootProjection : Option ExecutionRootProjection
  childProjection : Option ExecutionChildProjection

def CompleteActivityInput.request (cfg : Config) (input : CompleteActivityInput) :
    Executions.CompleteActivityInput where
  output := input.output
  context := input.context
  finish := input.finish.map fun f =>
    ⟨f.state, f.workingDirectory, f.failureDetail, f.pendingOutput, f.rootHolder, f.turn.isSome,
      f.child⟩
  compaction := input.compaction.map fun c => ⟨cfg.encodeCompaction c⟩
  rootProjection := input.rootProjection.map fun p => ⟨p.holder, cfg.encodeMessages p.messages⟩
  childProjection := input.childProjection

/-- The part of `validateExecutionFinishTurn` on the turn; the check of the holder is
`validateExecutionFinishHolder`. -/
def validateExecutionFinishTurn (finish : Option FinishExecutionInput) : Except Err Unit :=
  match finish with
  | none => .ok ()
  | some finish => do
    let _ ← match finish.rootHolder with
      | none => .ok ()
      | some holder => validateExecutionFinishHolder holder
    match finish.turn with
    | none => .ok ()
    | some turn =>
      if finish.rootHolder.isNone ∨ isTerminalState turn.state = false ∨
          (finish.state = .completed ↔ turn.state ≠ .completed) then
        .error ⟨.validationFailed, "root turn terminal result"⟩
      else .ok ()

def checkProjectionMessages (cfg : Config) (projection : Option ExecutionRootProjection) :
    Except Err Unit :=
  match projection with
  | none => .ok ()
  | some projection => projection.messages.forM fun m => checkStoredMessageSize cfg m

namespace Tables

section
variable (cfg : Config)

section
variable (s : Tables) (active : Option ActiveTurn) (turnID : UUID) (outside : CompletionAnswers)
  (executionID : UUID) (input : CompleteActivityInput)

/-- The write of `Store.saveRootActivityProjection`. -/
def projectTranscript (projection : ExecutionRootProjection) (newID : Nat → UUID) :
    Except Err Tables :=
  if hasLease active ⟨projection.holder.leaseID, turnID⟩ then
    appendTranscript cfg s turnID newID projection.messages
  else .error ⟨.conflict, "root projection turn lease changed"⟩

/-- End the turn with its execution. -/
def finishExecutionTurn (holder : Option ExecutionFinishHolder) (input : FinalizeTurnInput)
    (newID : Nat → UUID) : Except Err Tables :=
  if hasLease active ⟨(holder.map (·.leaseID)).getD UUID.nil, turnID⟩ then
    finalizeTurn cfg s turnID input newID
  else .error ⟨.conflict, "root turn lease changed"⟩

/-- What a completion asks the session to write. `child` answers for the compaction of a child. -/
def completionWrite (execution : Execution) (child : Except Err Unit) (activityID : UUID)
    (input : CompleteActivityInput) (newID : Nat → UUID) : Except Err Tables :=
  match input.compaction, input.rootProjection, input.finish.bind (·.turn) with
  | some compaction, _, _ =>
    if execution.kind = .child then do
      let _ ← child
      .ok s
    else saveActivityCompaction cfg s activityID compaction
  | none, some projection, _ =>
    projectTranscript cfg s active execution.rootTurnID projection newID
  | none, none, some turn =>
    finishExecutionTurn cfg s active execution.rootTurnID (input.finish.bind (·.rootHolder)) turn
      newID
  | none, none, none => .ok s

def holderAnswer : Except Err TurnLease :=
  match s.turnLease? executionID with
  | none => .error ⟨.notFound, "find execution turn lease"⟩
  | some row => .ok ⟨row.leaseID, row.ownerGenerationID, row.controlRevision⟩

/-- What the execution store is answered about the request itself; `outside` answers about its
events and its child. -/
def inputAnswers : CompletionAnswers :=
  { outside with
    rootProjectionInput := do
      let _ ← checkProjectionMessages cfg input.rootProjection
      outside.rootProjectionInput
    finishChildInput := do
      let _ ← validateExecutionFinishTurn input.finish
      outside.finishChildInput }

/-- What the execution store is answered about the tables: the stored holder, and the write. -/
def completionAnswers (write : Except Err Tables) : CompletionAnswers :=
  { inputAnswers cfg outside input with
    turnLease := s.holderAnswer executionID
    compaction := write.map fun _ => ()
    rootProjection := write.map fun _ => ()
    turn := write.map fun _ => () }

/-- Whether the saved decision continued the execution instead of finishing it. -/
def continued : ResolutionJSON → Bool
  | .finishDecision _ continued => continued
  | _ => false

/-- The tables after a completion: the write takes place unless the activity was completed before,
or its execution continues. -/
def applyCompletion (before after : ExecutionActivity) (write : Except Err Tables)
    (executions : Store) : Tables :=
  match write with
  | .error _ => { s with executions := executions }
  | .ok written =>
    if before.state = .completed ∨ continued after.resolutionJSON then
      { s with executions := executions }
    else { written with executions := executions }

/-- `CompleteExecutionActivity`: the completed row and the tables. -/
def completeExecutionActivity (lease : ActivityLease) (input : CompleteActivityInput)
    (newID : Nat → UUID) : Except Err (ExecutionActivity × Tables) := do
  let _ ← validateActivityResult cfg.toConfig (inputAnswers cfg outside input) (input.request cfg)
  let (before, execution) ← s.executions.activityForLease cfg.sessionID lease
  let write := completionWrite cfg s active execution outside.compaction lease.id input newID
  let answers := completionAnswers cfg s outside execution.id input write
  let (after, executions) ← s.executions.completeActivityWithQuery cfg.toConfig answers
    cfg.sessionID lease (input.request cfg)
  .ok (after, s.applyCompletion before after write executions)

end

end

def releaseFinishedExecutionTurn (active : Option ActiveTurn) (after : ExecutionActivity)
    (input : CompleteActivityInput) : Option ActiveTurn :=
  match input.finish with
  | none => active
  | some finish =>
    if finish.turn.isNone ∨ continued after.resolutionJSON then active
    else if active.map (·.leaseID) = finish.rootHolder.map (·.leaseID) then none
    else active

end Tables

end Peen.Sessions
