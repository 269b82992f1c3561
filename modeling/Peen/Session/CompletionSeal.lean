import Peen.Session.ActivityRuns
import Peen.Session.ExecutionCancel
import Peen.Session.ExecutionWrites

/-!
# Sealed completions

The terminal hook of a root seals the completion: it saves how far the inbox had been read, and what
comes later belongs to a later decision.
-/

namespace Peen.Sessions

open Tables List Executions

/-! ## The seal -/

def executionTerminalHooksActivityName : String := "terminalHooksV1"

def isCompletionSealActivity (execution : Execution) (activity : ExecutionActivity) : Bool :=
  execution.kind == .root && activity.name == executionTerminalHooksActivityName &&
    activity.kind == .tool && activity.replayPolicy == .reconcile

/-- `ORDER BY sequence DESC`, the first row. -/
def latestEvent : List ExecutionEvent → Option ExecutionEvent
  | [] => none
  | event :: rest =>
    match latestEvent rest with
    | none => some event
    | some latest => if latest.sequence < event.sequence then some event else some latest

def completionSealInputHash (cfg : Config) (activity : ExecutionActivity) : String :=
  cfg.hash activity.inputJSON

def validateRepeatedCompletionSeal (cfg : Config) (saved : ExecutionCompletionSeal)
    (activity : ExecutionActivity) : Except Err ExecutionCompletionSeal :=
  if saved.activityID ≠ activity.id ∨ saved.inputHash ≠ completionSealInputHash cfg activity then
    .error ⟨.conflict, "completion boundary belongs to another activity input"⟩
  else .ok saved

namespace Tables

section
variable (cfg : Config) (s : Tables) (execution : Execution) (activity : ExecutionActivity)

def readExecutionCompletionSeal : Except Err (Option ExecutionCompletionSeal) :=
  match latestEvent (s.executions.events.filter fun e => e.sessionID == execution.sessionID &&
      e.executionID == execution.id && e.eventType == .completionSealed) with
  | none => .ok none
  | some event =>
    match event.payload with
    | .completionSeal saved =>
      if saved.activityID = UUID.nil then
        .error ⟨.invalidState, "stored completion boundary is invalid"⟩
      else .ok (some saved)
    | _ => .error ⟨.encoding, "decode completion boundary"⟩

def completedHookInboxWatermark : Except Err Nat := do
  match ← s.readExecutionCompletionSeal execution with
  | none => .ok maxInt64
  | some saved =>
    match s.executions.activities.find? fun a => a.sessionID == execution.sessionID &&
        a.executionID == execution.id && a.id == saved.activityID with
    | none => .error ⟨.notFound, "read sealed terminal hook"⟩
    | some hook =>
      if isCompletionSealActivity execution hook = false ∨ hook.state ≠ .completed then
        .error ⟨.conflict, "completion boundary requires a completed terminal hook"⟩
      else do
        let _ ← validateRepeatedCompletionSeal cfg saved hook
        .ok saved.inboxSequence

def validateCompletionReservation (lease : ActivityLease) : Except Err Unit :=
  if execution.state ≠ .running ∨ activity.state ≠ .running then
    .error ⟨.conflict, "completion reservation requires an active claim"⟩
  else do
    let holder ← s.findExecutionTurnLease execution.id
    if holder.ownerGenerationID ≠ lease.generationID ∨
        holder.controlRevision ≠ execution.controlRevision then
      .error ⟨.conflict, "completion reservation holder changed"⟩
    else .ok ()

def requireOtherCompletionActivities : Except Err Unit :=
  if s.executions.activities.any fun a => a.sessionID == execution.sessionID &&
      a.executionID == execution.id && a.id != activity.id && a.state != .completed then
    .error ⟨.conflict, "completion reservation has unfinished activities"⟩
  else .ok ()

/-- Save how far the inbox was read. -/
def createExecutionCompletionSeal : Except Err (ExecutionCompletionSeal × Tables) :=
  if execution.eventCount = maxInt64 then
    .error ⟨.invalidState, "execution completion event sequence exhausted"⟩
  else do
    let saved : ExecutionCompletionSeal := ⟨activity.id, completionSealInputHash cfg activity,
      s.latestInboxSequence execution.id, execution.controlRevision⟩
    let (_, executions) ← s.executions.appendExecutionEvent execution .completionSealed
      (.completionSeal saved)
    .ok (saved, { s with executions := executions })

/-- `Store.reserveExecutionCompletion`; without a seal the execution continues. -/
def reserveExecutionCompletion (reported : UUID → UUID → Bool) (lease : ActivityLease) :
    Except Err (Option ExecutionCompletionSeal × Tables) := do
  let (activity, execution) ← s.executions.activityForLease cfg.sessionID lease
  if isCompletionSealActivity execution activity = false then
    .error ⟨.conflict, "activity cannot reserve root completion"⟩
  else
    match ← s.readExecutionCompletionSeal execution with
    | some saved => do
      let saved ← validateRepeatedCompletionSeal cfg saved activity
      .ok (some saved, s)
    | none => do
      let _ ← s.validateCompletionReservation execution activity lease
      match s.requireSettledExecutionInbox
          ⟨completedHookInboxWatermark cfg s execution, reported execution.id⟩ execution.id with
      | .error e => if e.kind = .executionInboxPending then .ok (none, s) else .error e
      | .ok () => do
        let _ ← s.requireOtherCompletionActivities execution activity
        let (saved, s) ← createExecutionCompletionSeal cfg s execution activity
        .ok (some saved, s)

end

end Tables

/-! ## The ends of children -/

inductive AgentRunState where
  | running
  | interrupted
  | completed
  | failed
  | cancelled
  deriving DecidableEq

structure AgentRun where
  id : UUID
  state : AgentRunState

/-- `AgentRunEvent.EventType`. -/
inductive AgentRunEventType where
  | agentRunCompleted
  | agentRunFailed
  | agentRunCancelled
  | other

structure AgentRunEvent where
  id : UUID
  sessionID : UUID
  agentRunID : UUID
  eventType : AgentRunEventType

/-- The table `agent_run_events`, with its primary key. -/
structure AgentRunEvents where
  rows : List AgentRunEvent
  key : (rows.map (·.id)).Nodup

section
variable (cfg : Config) (s : Tables) (events : AgentRunEvents)

def isAgentRunTerminalEventType : AgentRunEventType → Bool
  | .agentRunCompleted | .agentRunFailed | .agentRunCancelled => true
  | .other => false

def AgentRunState.endEvent : AgentRunState → AgentRunEventType
  | .failed => .agentRunFailed
  | .cancelled => .agentRunCancelled
  | _ => .agentRunCompleted

/-- `recordExecutionChildTerminal`: the event, inserted under the id that was drawn. -/
def AgentRunEvents.recordExecutionChildTerminal (sessionID : UUID) (run : AgentRun) (newID : UUID) :
    Except Err (AgentRunEvent × AgentRunEvents) :=
  let event : AgentRunEvent := ⟨newID, sessionID, run.id, run.state.endEvent⟩
  if h : newID ∈ events.rows.map (·.id) then .error ⟨.storage, "save child terminal event"⟩
  else .ok (event, ⟨event :: events.rows, nodup_cons.2 ⟨h, events.key⟩⟩)

/-- The end of a child, by `finishExecutionChild` or `cancelExecutionAgentRun`: the event of its run,
and the report to its parent where there is a text. -/
def Tables.endChild (child : Execution) (run : AgentRun) (eventID : UUID) (text : String)
    (newID : UUID) : Except Err (Tables × AgentRunEvents) := do
  let (event, events) ← events.recordExecutionChildTerminal cfg.sessionID run eventID
  if text = "" then .ok (s, events)
  else do
    let s ← s.recordExecutionChildReport cfg child ⟨event.id, text, newID⟩
    .ok (s, events)

/-- The subquery of `CompletionBlockers`: an event of one of these kinds, of the run of a child. -/
def Tables.reportsChild (kinds : AgentRunEventType → Bool) (executionID eventID : UUID) : Bool :=
  events.rows.any fun event => event.id == eventID && event.sessionID == cfg.sessionID &&
    kinds event.eventType && s.executions.executions.any fun child =>
      child.agentRunID == some event.agentRunID && child.sessionID == event.sessionID &&
        child.parentExecutionID == some executionID

/-- The kinds `requireSettledExecutionInbox` passes to the query. -/
def settledKinds : AgentRunEventType → Bool
  | .agentRunCompleted | .agentRunFailed => true
  | .agentRunCancelled | .other => false

/-- What is read about the inbox of an execution that completes. -/
def Tables.inboxBoundary (execution : Execution) : InboxBoundary :=
  ⟨s.completedHookInboxWatermark cfg execution, s.reportsChild cfg events settledKinds execution.id⟩

/-! ## Late reports -/

/-- The row is the report of the end of a child, queued after a sequence. -/
def LateReport (executionID : UUID) (sequence : Nat) (row : ExecutionInboxMessage) : Prop :=
  sequence < row.sequence ∧ row.sourceEventID = some row.requestID ∧
    s.reportsChild cfg events isAgentRunTerminalEventType executionID row.requestID = true

def ReportsCancelled (row : ExecutionInboxMessage) : Prop :=
  ∃ event ∈ events.rows, event.id = row.requestID ∧ event.eventType = .agentRunCancelled

end

section
variable {cfg : Config} {s : Tables} {row : ExecutionInboxMessage} {sequence : Nat}

theorem reportsChild_iff :
    s.reportsChild cfg events kinds executionID eventID = true ↔ ∃ event ∈ events.rows,
      event.id = eventID ∧ event.sessionID = cfg.sessionID ∧ kinds event.eventType = true ∧
      ∃ child ∈ s.executions.executions, child.agentRunID = some event.agentRunID ∧
        child.sessionID = event.sessionID ∧ child.parentExecutionID = some executionID := by
  simp [reportsChild, and_assoc]

theorem reportsChild_settled_iff :
    s.reportsChild cfg events settledKinds executionID row.requestID = true ↔
      s.reportsChild cfg events isAgentRunTerminalEventType executionID row.requestID = true ∧
        ¬ ReportsCancelled events row := by
  simp only [reportsChild_iff]
  refine ⟨?_, ?_⟩
  · rintro ⟨event, hev, hid, hse, hkind, hchild⟩
    refine ⟨⟨event, hev, hid, hse, ?_, hchild⟩, ?_⟩
    · cases hk : event.eventType <;> simp_all [settledKinds, isAgentRunTerminalEventType]
    · rintro ⟨cancelled, hmem, hsame, hcan⟩
      cases inj_on_of_nodup_map events.key hev hmem (hid.trans hsame.symm)
      rw [hcan] at hkind
      cases hkind
  · rintro ⟨⟨event, hev, hid, hse, hkind, hchild⟩, hnot⟩
    refine ⟨event, hev, hid, hse, ?_, hchild⟩
    cases hk : event.eventType with
    | agentRunCompleted | agentRunFailed => rfl
    | agentRunCancelled => exact absurd ⟨event, hev, hid, hk⟩ hnot
    | other =>
      rw [hk] at hkind
      cases hkind

theorem blocks_iff (hof : row.executionID = executionID) (hque : row.state = .queued) :
    row.blocks executionID sequence (s.reportsChild cfg events settledKinds executionID) = true ↔
      ¬ (LateReport cfg s events executionID sequence row ∧ ¬ ReportsCancelled events row) := by
  have hlet : (decide (sequence < row.sequence) && row.sourceEventID == some row.requestID &&
      s.reportsChild cfg events settledKinds executionID row.requestID) = true ↔
      LateReport cfg s events executionID sequence row ∧ ¬ ReportsCancelled events row := by
    simp only [Bool.and_eq_true, decide_eq_true_eq, beq_iff_eq, reportsChild_settled_iff, LateReport,
      and_assoc]
  rw [ExecutionInboxMessage.blocks, hof, hque, beq_self_eq_true, beq_self_eq_true, Bool.true_and,
    Bool.true_and, Bool.not_eq_true', ← Bool.not_eq_true, hlet]

theorem watermark_of_sealed (hsealed : s.readExecutionCompletionSeal root = .ok (some saved))
    (hhook : s.completedHookInboxWatermark cfg root = .ok sequence) :
    sequence = saved.inboxSequence := by
  rw [completedHookInboxWatermark, hsealed] at hhook
  change (match s.executions.activities.find? _ with | none => _ | some hook => _) = _ at hhook
  split at hhook
  · cases hhook
  split at hhook
  · cases hhook
  obtain ⟨_, _, hhook⟩ := of_bind hhook
  cases hhook
  rfl

theorem requireSettled_iff {boundary : InboxBoundary} (h : boundary.watermark = .ok sequence) :
    s.requireSettledExecutionInbox boundary executionID = .ok () ↔
      ∀ row ∈ s.inbox, row.blocks executionID sequence boundary.reported = false := by
  rw [requireSettledExecutionInbox, h]
  show (if s.inbox.any _ = true then _ else _) = _ ↔ _
  split
  · next hany =>
    obtain ⟨row, hrow, hbl⟩ := any_eq_true.1 hany
    exact ⟨nofun, fun hnone => nomatch hbl.symm.trans (hnone row hrow)⟩
  · next hnone => exact iff_of_true rfl (by simpa using hnone)

theorem endChild_ok {run : AgentRun} (hchild : child ∈ s.executions.executions)
    (hse : child.sessionID = cfg.sessionID) (hrun : child.agentRunID = some run.id)
    (hpar : child.parentExecutionID = some executionID) (htext : text ≠ "")
    (hdrw : eventID ≠ UUID.nil)
    (h : s.endChild cfg events child run eventID text newID = .ok (s', events')) :
    ∃ row, s'.inbox = s.inbox ++ [row] ∧ row.executionID = executionID ∧ row.state = .queued ∧
      (sequence < row.sequence → LateReport cfg s' events' executionID sequence row) ∧
      (ReportsCancelled events' row ↔ run.state = .cancelled) := by
  obtain ⟨⟨event, events1⟩, hevs, h⟩ := of_bind h
  dsimp only at h
  rw [if_neg htext] at h
  obtain ⟨t, ht, h⟩ := of_bind h
  cases h
  rw [AgentRunEvents.recordExecutionChildTerminal] at hevs
  split at hevs
  · cases hevs
  next hfr =>
  cases hevs
  rw [recordExecutionChildReport, hpar] at ht
  obtain ⟨execution, row, e, executions, hfd, hins, ⟨hreq, hst, hsrc⟩, he, rfl⟩ :=
    queueReport_ok ht
  refine ⟨row, rfl, hins.execution.trans (Store.of_findExecution hfd).2, hst,
    fun hlate => ⟨hlate, (hsrc hdrw).trans (congrArg some hreq.symm), ?_⟩, ?_⟩
  · refine reportsChild_iff.2 ⟨_, mem_cons_self, hreq.symm, rfl, ?_, ?_⟩
    · cases hk : run.state <;> simp [AgentRunState.endEvent, isAgentRunTerminalEventType]
    · obtain ⟨_, he⟩ := of_check he
      cases he
      refine ⟨_, mem_map_of_mem hchild, ?_⟩
      split <;> exact ⟨hrun, hse, hpar⟩
  · have hkind : run.state.endEvent = .agentRunCancelled ↔ run.state = .cancelled := by
      cases run.state <;> simp [AgentRunState.endEvent]
    rw [← hkind]
    refine ⟨?_, fun hcan => ⟨_, mem_cons_self, hreq.symm, hcan⟩⟩
    rintro ⟨event, hmem, hid, hcan⟩
    rcases mem_cons.1 hmem with rfl | hmem
    · exact hcan
    · exact absurd (mem_map.2 ⟨event, hmem, hid.trans hreq⟩) hfr

end

/-- **Late reports leave a sealed completion alone, but for those of cancelled children.** With a
seal whose hook completed, the inbox is settled exactly if no queued row blocks. The rows that do not
block are the reports of ended children queued after the seal, and every other row blocks, exactly if
none of these reports is of a child that was cancelled. An ending child with a report queues such a
row, and it blocks exactly if the child was cancelled. -/
theorem late_reports_leave_completion_iff (cfg : Config) (s : Tables) (events : AgentRunEvents)
    (root : Execution) (saved : ExecutionCompletionSeal) (cutoff : Nat)
    (hsealed : s.readExecutionCompletionSeal root = .ok (some saved))
    (hhook : s.completedHookInboxWatermark cfg root = .ok cutoff) :
    (s.requireSettledExecutionInbox (s.inboxBoundary cfg events root) root.id = .ok () ↔
      ∀ row ∈ s.inbox, row.blocks root.id saved.inboxSequence
        (s.inboxBoundary cfg events root).reported = false) ∧
    ((∀ row ∈ s.inbox, row.executionID = root.id → row.state = .queued →
        (row.blocks root.id saved.inboxSequence (s.inboxBoundary cfg events root).reported = true ↔
          ¬ LateReport cfg s events root.id saved.inboxSequence row)) ↔
      ∀ row ∈ s.inbox, row.executionID = root.id → row.state = .queued →
        LateReport cfg s events root.id saved.inboxSequence row → ¬ ReportsCancelled events row) ∧
    ∀ child run eventID text newID s' events', child ∈ s.executions.executions →
      child.sessionID = cfg.sessionID → child.agentRunID = some run.id →
      child.parentExecutionID = some root.id → text ≠ "" → eventID ≠ UUID.nil →
      s.endChild cfg events child run eventID text newID = .ok (s', events') →
      ∃ row, s'.inbox = s.inbox ++ [row] ∧ row.executionID = root.id ∧ row.state = .queued ∧
        (saved.inboxSequence < row.sequence →
          LateReport cfg s' events' root.id saved.inboxSequence row ∧
          (row.blocks root.id saved.inboxSequence (s'.inboxBoundary cfg events' root).reported = true
            ↔ run.state = .cancelled)) := by
  rw [watermark_of_sealed hsealed hhook] at hhook
  refine ⟨requireSettled_iff hhook, ?_, ?_⟩
  · refine forall₄_congr fun row _ hof hqueued => ?_
    rw [inboxBoundary, blocks_iff hof hqueued]
    tauto
  · intro child run eventID text newID s' events' hchild hsession hrun hparent htext hdrawn h
    obtain ⟨row, hinbox, hof, hqueued, hlate, hcancelled⟩ :=
      endChild_ok hchild hsession hrun hparent htext hdrawn h
    refine ⟨row, hinbox, hof, hqueued, fun hsequence => ⟨hlate hsequence, ?_⟩⟩
    rw [inboxBoundary, blocks_iff hof hqueued, ← hcancelled]
    tauto

def sealedRoot : Execution :=
  ⟨10, 1, .root, .running, none, none, "", "/work", "", "", "", 1, 0, 100, "", ""⟩

def workingChild : Execution :=
  ⟨11, 1, .child, .running, some 10, some 20, "", "/work", "", "", "", 0, 0, 100, "", ""⟩

def sealedTables : Tables :=
  { empty with executions := ⟨[sealedRoot, workingChild],
      [⟨40, 1, 10, "terminalHooks:0", .tool, .completed, .reconcile,
        executionTerminalHooksActivityName, "input", some "output", "", 1, some 7, "", .empty⟩],
      [⟨1, 10, 1, .completionSealed, .completionSeal ⟨40, "digest", 0, 0⟩⟩]⟩ }

/-- The report of a child that fails after the seal does not block. -/
theorem late_reports_leave_completion_failed : ∃ s' events' row,
    sealedTables.endChild plainConfig ⟨[], .nil⟩ workingChild ⟨20, .failed⟩ 60 "report" 61 =
      .ok (s', events') ∧ s'.inbox = [row] ∧ row.sequence = 1 ∧
    LateReport plainConfig s' events' 10 0 row ∧
    row.blocks 10 0 (s'.inboxBoundary plainConfig events' sealedRoot).reported = false := by
  obtain ⟨row, hinbox, _, _, hlate⟩ := (late_reports_leave_completion_iff plainConfig sealedTables
    ⟨[], .nil⟩ sealedRoot ⟨40, "digest", 0, 0⟩ 0 rfl rfl).2.2 workingChild ⟨20, .failed⟩ 60 "report" 61
    _ _ (mem_cons_of_mem _ mem_cons_self) rfl rfl rfl (by decide) (by decide) rfl
  obtain rfl := singleton_inj.1 (hinbox : [_] = [row])
  obtain ⟨hreport, hblocks⟩ := hlate Nat.one_pos
  exact ⟨_, _, _, rfl, rfl, rfl, hreport, Bool.eq_false_iff.2 fun hb => nomatch hblocks.1 hb⟩

/-- The report of a child that is cancelled after the seal blocks the end of its parent. -/
theorem cancelled_report_blocks : ∃ s' events' row,
    sealedTables.requireSettledExecutionInbox
      (sealedTables.inboxBoundary plainConfig ⟨[], .nil⟩ sealedRoot) 10 = .ok () ∧
    sealedTables.endChild plainConfig ⟨[], .nil⟩ workingChild ⟨20, .cancelled⟩ 60 "report" 61 =
      .ok (s', events') ∧ s'.inbox = [row] ∧ row.sequence = 1 ∧
    LateReport plainConfig s' events' 10 0 row ∧
    s'.requireSettledExecutionInbox (s'.inboxBoundary plainConfig events' sealedRoot) 10 =
      .error ⟨.executionInboxPending, "execution still has pending inbox messages"⟩ :=
  ⟨_, _, _, rfl, rfl, rfl, rfl, ⟨by decide, rfl, rfl⟩, rfl⟩

end Peen.Sessions
