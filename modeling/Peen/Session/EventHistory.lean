import Peen.Session.CompletionSeal
import Peen.Session.ExecutionEnds

/-!
# The history of an execution

Every transaction of the execution store appends events from a copy of the row, which counts them.
-/

namespace Peen.Sessions

open Executions Tables Store

/-! ## Transactions -/

/-- What the rows of agent runs give the completion of a child's activity for the parent: its
question, where the parent is not a root, and the report of its end. -/
structure ChildReports where
  question : Option CancelledRun
  report : Option CancelledRun

namespace Tables

section
variable (cfg : Config)

section
variable (s : Tables) (executionID : UUID) (input : ResumeExecutionInput)
  (answers : CompletionAnswers) (execution : Execution)

/-- `recordExecutionChildReport`, where there is a text. -/
def reportChild (child : Execution) : Option CancelledRun → Except Err Tables
  | none => .ok s
  | some report => recordExecutionChildReport cfg s child report

/-- The checks of `finishExecution` before the report. -/
def checkFinish (finish : Executions.FinishExecutionInput) : Except Err Unit := do
  let _ ← s.executions.requireSettledExecutionActivities execution finish.state
  let _ ← Store.requireSettledExecutionInbox answers finish.state
  let _ ← Store.finishExecutionTurn answers finish
  Store.finishExecutionChild answers finish

/-- The report of `finishExecutionChild`. It is written once the checks passed, before the row of the
child; where one fails, nothing is. -/
def reportEnd (input : Executions.CompleteActivityInput) (report : Option CancelledRun) :
    Except Err Tables :=
  match input.finish with
  | none => .ok s
  | some finish =>
    match s.checkFinish answers execution finish with
    | .error _ => .ok s
    | .ok () => if finish.child then reportChild cfg s execution report else .ok s

/-- `completeActivityWithQuery`, for an activity of a child. -/
def completeChildActivity (reports : ChildReports) (lease : ActivityLease)
    (input : Executions.CompleteActivityInput) : Except Err Tables := do
  let _ ← validateActivityResult cfg.toConfig answers input
  let (activity, execution) ← s.executions.activityForLease cfg.sessionID lease
  if activity.state = .completed then do
    let _ ← completedExecutionActivity cfg.toConfig activity execution input
    .ok s
  else if activity.state ≠ .running then .error ⟨.conflict, "activity is not running"⟩
  else do
    let _ ← validateFinishClaim activity execution input
    let _ ← checkExecutionFinishHolder answers activity execution (input.finish.bind (·.rootHolder))
    let (activity, executions) := s.executions.saveActivityResult activity input.output input.context
    let (activity, executions) ←
      executions.saveActivityCompaction cfg.toConfig answers activity execution input
    let (activity, executions) ←
      executions.saveActivityProjection cfg.toConfig answers activity execution input
    let s ← reportChild cfg { s with executions := executions } execution reports.question
    let (execution, executions) ← s.executions.appendActivityEvent execution activity .stepCompleted
    let s ← reportEnd cfg { s with executions := executions } answers execution input reports.report
    let (_, executions) ←
      s.executions.finishActivityCompletion cfg.toConfig answers activity execution input
    .ok { s with executions := executions }

def authorizeExecutionControl : Except Err Execution :=
  if executionID = UUID.nil then .error ⟨.validationFailed, "execution control target"⟩
  else do
    let (activity, source) ← s.executions.activityForLease cfg.sessionID input.sourceLease
    if activity.state ≠ .running ∨ activity.kind ≠ .tool ∨ source.state ≠ .running then
      .error ⟨.conflict, "execution control caller is no longer active"⟩
    else do
      let target ← s.executions.findExecution cfg.sessionID executionID
      if target.controlRevision ≠ input.controlRevision then
        .error ⟨.conflict, "execution control target changed after inspection"⟩
      else .ok source

def reopenDeferredTurn (message : ExecutionInboxMessage) : Except Err Tables :=
  let id := deferredTurnID cfg message.id
  match s.turn? id with
  | none => .ok s
  | some turn =>
    if turn.requestID ≠ message.requestID ∨ turn.workspace ≠ message.workingDirectory ∨
        turn.state = .completed then
      .error ⟨.conflict, "selected deferred turn identity or outcome differs"⟩
    else .ok (s.updateTurn id fun t => { t with
      state := .interrupted, cancelRequested := false, stopRevision := s.stopRevision })

def resumeDeferredInput (executionID requestID : UUID) (caller : Execution)
    (input : ResumeExecutionInput) : Except Err Tables := do
  let target ← s.executions.findExecution cfg.sessionID executionID
  if target.kind ≠ .root ∨ target.state ≠ .completed then
    .error ⟨.conflict, "deferred resume source has not completed"⟩
  else do
    let _ ← completedHookInboxWatermark cfg s target
    match s.inbox.find? fun r => r.executionID == executionID && r.requestID == requestID with
    | none => .error ⟨.notFound, "read selected deferred input"⟩
    | some message =>
      if message.state ≠ .deferred ∨ message.forwardedExecutionID ≠ none ∨
          some message.stopRevision ≠ input.deferredStopRevision then
        .error ⟨.conflict, "deferred input changed after inspection"⟩
      else do
        let s ← reopenDeferredTurn cfg s message
        let s := s.updateInbox message.id fun r => { r with stopRevision := s.stopRevision }
        let (_, executions) ← s.executions.appendExecutionEvent target .inboxResumed
          (.deferredResume caller.id message.id s.stopRevision input)
        .ok { s with executions := executions }

/-- `ResumeExecutionFromActivity`, also of a deferred input. -/
def resumeExecutionFromActivity : Except Err Tables :=
  if (input.deferredRequestID.isSome ∨ input.deferredStopRevision.isSome) ∧
      (input.deferredRequestID.getD UUID.nil = UUID.nil ∨ input.deferredStopRevision = none) then
    .error ⟨.validationFailed, "deferred resume requires inspected request and stop revision"⟩
  else do
    let source ← authorizeExecutionControl cfg s executionID input
    match input.deferredRequestID with
    | some requestID => resumeDeferredInput cfg s executionID requestID source input
    | none => do
      let (_, executions) ← s.executions.changeExecutionSubtree cfg.sessionID executionID .resume ""
        (.agentResume source.id input)
      .ok { s with executions := executions }

/-- `ResolveExecutionActivityFromActivity`; what its event says about the caller is left out. -/
def resolveExecutionActivityFromActivity (activityID : UUID) (origin : ResumeExecutionInput)
    (input : ResolveActivityInput) : Except Err Tables := do
  let activity ← s.executions.findExecutionActivity cfg.sessionID activityID
  let _ ← authorizeExecutionControl cfg s activity.executionID origin
  let (_, executions) ← s.executions.resolveExecutionActivity cfg.toConfig cfg.sessionID activityID
    input
  .ok { s with executions := executions }

end

end

end Tables

/-- `queueChildNotice`; the ids are those of the request and of the row. -/
def queueChildNotice (cfg : Config) (noticeID : UUID) (text : String) (ids : UUID → UUID × UUID)
    (w : World) (child : Execution) : Except Err World :=
  if child.agentRunID = none then .error ⟨.conflict, "child has no agent run"⟩
  else act cfg w (.queueReport child.id (ids child.id).1 noticeID text (ids child.id).2)

/-- `broadcastNoticeToChildren`, for the notice of a turn that failed or was stopped. -/
def broadcastNoticeToChildren (cfg : Config) (noticeID : UUID) (text : String)
    (ids : UUID → UUID × UUID) (w : World) : Except Err World :=
  (w.rows.filter fun e => e.sessionID == cfg.sessionID && e.kind == .child &&
    (e.state == .queued || e.state == .running)).foldlM (queueChildNotice cfg noticeID text ids) w

/-- A call, or what the calls leave out: ends of turns with their notice, cancellations, children,
seals and controls. -/
inductive Transaction where
  | act (a : Action)
  /-- A call that ends a turn, with the broadcast of its notice. -/
  | endTurn (a : Action) (noticeID : UUID) (text : String) (ids : UUID → UUID × UUID)
  | cancelAgentRun (answers : CancellationAnswers) (agentRunID : UUID)
  | completeChild (answers : CompletionAnswers) (reports : ChildReports)
      (lease : ActivityLease) (input : Executions.CompleteActivityInput)
  | reserveCompletion (reported : UUID → UUID → Bool) (lease : ActivityLease)
  | resumeFromActivity (executionID : UUID) (input : ResumeExecutionInput)
  | resolveFromActivity (activityID : UUID) (origin : ResumeExecutionInput)
      (input : ResolveActivityInput)

def transact (cfg : Config) (w : World) : Transaction → Except Err World
  | .act a => Sessions.act cfg w a
  | .endTurn a noticeID text ids =>
    Sessions.act cfg w a >>= broadcastNoticeToChildren cfg noticeID text ids
  | .cancelAgentRun answers agentRunID =>
    (w.commit · []) <$> Tables.requestAgentRunCancellation cfg w.tables answers agentRunID
  | .completeChild answers reports lease input =>
    (w.commit · []) <$> Tables.completeChildActivity cfg w.tables answers reports lease input
  | .reserveCompletion reported lease =>
    (w.commit ·.2 []) <$> Tables.reserveExecutionCompletion cfg w.tables reported lease
  | .resumeFromActivity executionID input =>
    (w.commit · []) <$> Tables.resumeExecutionFromActivity cfg w.tables executionID input
  | .resolveFromActivity activityID origin input =>
    (w.commit · []) <$>
      Tables.resolveExecutionActivityFromActivity cfg w.tables activityID origin input

def transactionStep (cfg : Config) (w : World) (t : Transaction) : Option World :=
  (transact cfg w t).toOption

/-! ## Steps -/

def Lineage (rows : List Execution) : Prop := ∀ e ∈ rows, e.parentExecutionID ≠ some e.id

/-- Events are numbered, and a child is another row than its parent. -/
structure Numbers (w : World) : Prop where
  rooted : Rooted w.rows
  lineage : Lineage w.rows
  recorded : w.tables.executions.Recorded

section Steps
variable {s : Tables} {child : Execution}

theorem Lineage.changes (h : Lineage rows) (hch : RowChanges R rows rows') : Lineage rows' := by
  intro e he
  obtain ⟨old, hold, hup⟩ := hch.exists_left he
  have hident := RowUpdates.identity hup
  rw [Execution.parent_of_identity hident, Execution.id_of_identity hident]
  exact h old hold

theorem Numbers.changes (h : Numbers w)
    (hch : StoreChanges R w.tables.executions s.executions) : Numbers (w.commit s []) :=
  ⟨h.rooted.changes hch.rows, h.lineage.changes hch.rows, hch.recorded h.recorded⟩

theorem Numbers.act (h : Numbers w) (hact : act cfg w a = .ok w') : Numbers w' := by
  obtain ⟨told, _, hstep, hrec⟩ := executions_act h.rooted.ids hact
  refine ⟨hstep.rooted h.rooted, ?_, hrec h.recorded⟩
  cases hstep with
  | changed R reached _ rows => exact h.lineage.changes rows
  | created row inherited rows =>
    refine Lineage.changes (fun e he => ?_) rows
    rcases mem_snoc.1 he with he | he
    · exact h.lineage e he
    rw [he]
    intro hpar
    rcases inherited.lineage with ⟨_, hnone⟩ | ⟨_, parent, hmem, hsome, _⟩
    · cases hnone.symm.trans hpar
    · exact inherited.insertable.id parent hmem (Option.some.inj (hsome.symm.trans hpar))

theorem Numbers.broadcast {children : List Execution} (h : Numbers w)
    (hs : children.foldlM (queueChildNotice cfg noticeID text ids) w = .ok w') : Numbers w' := by
  induction children generalizing w with
  | nil =>
    cases hs
    exact h
  | cons child children ih =>
    obtain ⟨u, hu, hs⟩ := of_bind hs
    exact ih (h.act (of_check hu).2) hs

namespace Tables

section
variable (hids : (s.executions.executions.map (·.id)).Nodup)
  (hpar : child.parentExecutionID ≠ some child.id)
include hids hpar

theorem reportChild_ok (h : reportChild cfg s child report = .ok s') :
    StoreChanges R s.executions s'.executions ∧
    (s.executions.Counts child → s'.executions.Counts child) ∧
    (s.executions.Tracks child → s'.executions.Tracks child) := by
  cases report with
  | none =>
    cases h
    exact ⟨.refl R _, id, id⟩
  | some report =>
    unfold reportChild recordExecutionChildReport at h
    dsimp only at h
    split at h
    · cases h
    rename_i parentID hparentID
    obtain ⟨parent, row, e, executions, hfd, _, _, he, rfl⟩ := queueReport_ok h
    obtain ⟨hch, _, hothers⟩ := changes_appendExecutionEvent (R := R)
      (counts_of_mem hids (mem_of_findExecution hfd)) he
    refine ⟨hch, hothers child fun heq => hpar ?_,
      (rows_appendExecutionEvent (R := R) he).2.2 child⟩
    rw [hparentID, heq, (of_findExecution hfd).2]

theorem reportEnd_ok (h : reportEnd cfg s answers child input report = .ok s') :
    StoreChanges R s.executions s'.executions ∧
    (s.executions.Counts child → s'.executions.Counts child) ∧
    (s.executions.Tracks child → s'.executions.Tracks child) := by
  unfold reportEnd at h
  split at h
  · cases h
    exact ⟨.refl R _, id, id⟩
  split at h
  · cases h
    exact ⟨.refl R _, id, id⟩
  split at h
  · exact reportChild_ok hids hpar h
  · cases h
    exact ⟨.refl R _, id, id⟩

end

/-- **The completion of a child's activity keeps the events numbered, of the child and of the parent
it reports to.** -/
theorem changes_completeChildActivity (hw : Numbers w)
    (h : completeChildActivity cfg w.tables answers reports lease input = .ok s') :
    StoreChanges (fun _ _ => True) w.tables.executions s'.executions := by
  obtain ⟨_, hres, h⟩ := of_bind h
  obtain ⟨⟨activity, execution⟩, hfd, h⟩ := of_bind h
  have hids := hw.rooted.ids
  have hmem := (mem_of_activityForLease hfd).1
  have hpar := hw.lineage execution hmem
  dsimp only at h
  split at h
  · obtain ⟨_, _, h⟩ := of_bind h
    cases h
    exact .refl _ _
  split at h
  · cases h
  obtain ⟨_, hclm, h⟩ := of_bind h
  obtain ⟨_, _, h⟩ := of_bind h
  obtain ⟨⟨a1, s1⟩, h1, h⟩ := of_bind h
  obtain ⟨⟨a2, s2⟩, h2, h⟩ := of_bind h
  obtain ⟨t, ht, h⟩ := of_bind h
  obtain ⟨⟨e3, s3⟩, h3, h⟩ := of_bind h
  obtain ⟨u, hu, h⟩ := of_bind h
  obtain ⟨⟨a4, s4⟩, h4, h⟩ := of_bind h
  cases h
  -- the result, the compaction and the projection are saved without an event
  have hsv := rows_saveActivityCompaction h1
  have hproj := rows_saveActivityProjection h2
  have hrows : s2.executions = w.tables.executions.executions := hproj.1.trans hsv.1
  have hsame : StoreChanges (fun _ _ => True) w.tables.executions s2 :=
    .of_eq hrows (hproj.2.trans hsv.2)
  obtain ⟨hquestion, hcs, htk⟩ := reportChild_ok (R := fun _ _ => True)
    (s := { w.tables with executions := s2 }) (hrows ▸ hids) hpar ht
  have hcs := hcs ((counts_of_mem hids hmem).frame hrows)
  have htk := htk ((tracks_of_mem hids hmem).frame hrows)
  -- the event of the step comes from the copy of the child
  obtain ⟨hstep, hcs, _⟩ := changes_appendExecutionEvent
    (R := fun _ _ => True) hcs h3
  obtain ⟨_, rfl, htk'⟩ := rows_appendExecutionEvent (R := fun _ _ => True) h3
  have htk := htk' execution htk
  have hbef := (hsame.trans hquestion).trans hstep
  obtain ⟨hreport, hcs', htk'⟩ := reportEnd_ok (R := fun _ _ => True)
    (s := { t with executions := s3 }) (hbef.rows.ids ▸ hids) (by exact hpar) hu
  refine (hbef.trans hreport).trans (rows_finishActivityCompletion
    (htk' htk) (hcs' hcs) ?_ (validateActivityResult_ok hres)
    (fun _ _ => trivial) h4)
  exact validateFinishClaim_ok hclm

theorem changes_reserveExecutionCompletion (hids : (s.executions.executions.map (·.id)).Nodup)
    (h : reserveExecutionCompletion cfg s reported lease = .ok r) :
    StoreChanges R s.executions r.2.executions := by
  obtain ⟨⟨activity, execution⟩, hfd, h⟩ := of_bind h
  obtain ⟨_, h⟩ := of_check h
  obtain ⟨saved, _, h⟩ := of_bind h
  cases saved with
  | some saved =>
    obtain ⟨_, _, h⟩ := of_bind h
    cases h
    exact .refl R _
  | none =>
    obtain ⟨_, _, h⟩ := of_bind h
    split at h
    · split at h
      · cases h
        exact .refl R _
      · cases h
    · obtain ⟨_, _, h⟩ := of_bind h
      obtain ⟨⟨saved, t⟩, ht, h⟩ := of_bind h
      cases h
      obtain ⟨_, ht⟩ := of_check ht
      obtain ⟨⟨e, executions⟩, he, ht⟩ := of_bind ht
      cases ht
      exact changes_append_of_mem hids (mem_of_activityForLease hfd).1 he

theorem executions_reopenDeferredTurn
    (h : reopenDeferredTurn cfg s message = .ok s') : s'.executions = s.executions := by
  unfold reopenDeferredTurn at h
  dsimp only at h
  split at h
  · cases h; rfl
  split at h
  · cases h
  · cases h; rfl

theorem changes_resumeDeferredInput {control : ResumeExecutionInput}
    (hids : (s.executions.executions.map (·.id)).Nodup)
    (h : resumeDeferredInput cfg s executionID requestID execution control = .ok s') :
    StoreChanges R s.executions s'.executions := by
  obtain ⟨target, hfd, h⟩ := of_bind h
  split at h
  · cases h
  obtain ⟨_, _, h⟩ := of_bind h
  split at h
  · cases h
  split at h
  · cases h
  obtain ⟨t, ht, h⟩ := of_bind h
  obtain ⟨⟨e, executions⟩, he, h⟩ := of_bind h
  cases h
  have hsame := executions_reopenDeferredTurn ht
  have he : t.executions.appendExecutionEvent target .inboxResumed _ = .ok (e, executions) := he
  rw [hsame] at he
  exact changes_append_of_mem hids (mem_of_findExecution hfd) he

theorem changes_resumeExecutionFromActivity {control : ResumeExecutionInput}
    (hids : (s.executions.executions.map (·.id)).Nodup)
    (h : resumeExecutionFromActivity cfg s executionID control = .ok s') :
    StoreChanges (fun _ _ => True) s.executions s'.executions := by
  obtain ⟨_, h⟩ := of_check h
  obtain ⟨source, _, h⟩ := of_bind h
  split at h
  · exact changes_resumeDeferredInput hids h
  · obtain ⟨⟨changed, executions⟩, hchd, h⟩ := of_bind h
    cases h
    exact rows_changeExecutionSubtree hids (fun _ _ _ => trivial) hchd

end Tables

/-- **Every transaction keeps the events numbered.** -/
theorem Numbers.transact (hw : Numbers w) (h : transact cfg w t = .ok w') : Numbers w' := by
  have hids := hw.rooted.ids
  cases t with
  | act a => exact hw.act h
  | endTurn a =>
    obtain ⟨u, hu, h⟩ := of_bind h
    exact (hw.act hu).broadcast h
  | cancelAgentRun =>
    obtain ⟨s, hs, rfl⟩ := map_eq_ok.1 h
    exact hw.changes (cancels_requestAgentRunCancellation hids hs).changes
  | completeChild =>
    obtain ⟨s, hs, rfl⟩ := map_eq_ok.1 h
    exact hw.changes (changes_completeChildActivity hw hs)
  | reserveCompletion =>
    obtain ⟨r, hr, rfl⟩ := map_eq_ok.1 h
    exact hw.changes (changes_reserveExecutionCompletion (R := fun _ _ => False) hids hr)
  | resumeFromActivity =>
    obtain ⟨s, hs, rfl⟩ := map_eq_ok.1 h
    exact hw.changes (changes_resumeExecutionFromActivity hids hs)
  | resolveFromActivity =>
    obtain ⟨s, hs, rfl⟩ := map_eq_ok.1 h
    obtain ⟨activity, _, hs⟩ := of_bind hs
    obtain ⟨_, _, hs⟩ := of_bind hs
    obtain ⟨r, hr, hs⟩ := of_bind hs
    cases hs
    exact hw.changes (rows_resolveExecutionActivity (R := fun _ _ => False) hids hr)

theorem numbers_new : Numbers .new := by
  refine ⟨ruled_new.rooted, nofun, ⟨fun e he => ?_, fun event he => ?_⟩⟩
  · cases he
  · cases he

end Steps

/-- **The history of an execution has no gaps.** In every state of every run of the transactions, the
sequences of the events of an execution, in the order of the table, are those from one to its
count. -/
theorem execution_history_has_no_gaps (cfg : Config) (transactions : List Transaction) :
    Lts.Always (transactionStep cfg)
      (fun w => ∀ e ∈ w.rows, w.tables.executions.sequences e.id = List.range' 1 e.eventCount)
      World.new transactions := by
  refine Lts.Always.mono (fun w hw => hw.recorded.numbered)
    (Lts.Always.of_step (I := Numbers) ?_ numbers_new)
  intro w t w' hw h
  unfold transactionStep at h
  cases ht : transact cfg w t with
  | error err =>
    rw [ht] at h
    cases h
  | ok v =>
    rw [ht] at h
    cases h
    exact hw.transact ht

end Peen.Sessions
