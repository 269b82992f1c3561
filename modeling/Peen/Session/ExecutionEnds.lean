import Peen.Session.ExecutionCancel
import Peen.Session.FinishDecision
import Peen.Session.InboxOnce

/-!
# Executions end once, and settled

In a run that also cancels agent runs a row that has ended keeps its result, and a row is completed by
nothing but the completion of its final activity, which found every activity of the execution
completed and no message that blocks its end.
-/

namespace Peen.Executions

open Executions List Store Relation

/-! ## Cancelled rows -/

def CancelledRow (a a' : ExecutionActivity) : Prop :=
  a' = a ∨ (a.state ≠ .completed ∧ a' = { a with state := .cancelled })

theorem CancelledRow.trans (h : CancelledRow a a') (h' : CancelledRow a' a'') : CancelledRow a a'' := by
  rcases h with rfl | ⟨hst, rfl⟩
  · exact h'
  · rcases h' with rfl | ⟨_, rfl⟩
    · exact .inr ⟨hst, rfl⟩
    · exact .inr ⟨hst, rfl⟩

/-- Activities have their ids, and one that runs has nothing saved about a request. -/
structure Logged (rows : List ExecutionActivity) : Prop where
  ids : (rows.map (·.id)).Nodup
  fresh : ∀ a ∈ rows, a.state = .running → a.resolutionJSON = .empty

section Rows
variable {s : Store}

theorem Transition.fresh (t : Transition a a' es)
    (ha : a.state = .running → a.resolutionJSON = .empty) :
    a'.state = .running → a'.resolutionJSON = .empty := by
  intro hrun
  cases t with
  | start | takeOver => rfl
  | lose hr => cases hrun
  | drop hr hp hs =>
    rcases hs with rfl | rfl
    · cases hrun
    · cases hrun
  | note hr ho => exact ha hrun
  | settle | release => cases hrun

theorem Logged.change {l : Ledger} (h : Logged l.rows) (c : Change l l') : Logged l'.rows := by
  refine ⟨c.ids h.ids, ?_⟩
  intro a ha
  cases c with
  | create hid hstep hs ho =>
    rcases mem_snoc.1 ha with ha | ha
    · exact h.fresh a ha
    · rw [ha, hs]
      intro hrun
      cases hrun
  | row hb t =>
    rcases (mem_putRow hb t.id_eq).1 ha with rfl | ⟨ha, _⟩
    · exact t.fresh (h.fresh _ hb)
    · exact h.fresh a ha

theorem Logged.changes {l : Ledger} (h : Logged l.rows) (c : ReflTransGen Change l l') :
    Logged l'.rows := by
  induction c with
  | refl => exact h
  | tail _ c ih => exact ih.change c

theorem Logged.cancelled (h : Logged rows) (hrows : Forall₂ CancelledRow rows rows') :
    Logged rows' := by
  have hids : rows'.map (·.id) = rows.map (·.id) := by
    refine hrows.map_congr ?_
    intro a a' hrow
    rcases hrow with rfl | ⟨_, rfl⟩
    · rfl
    · rfl
  refine ⟨hids ▸ h.ids, fun a' ha' hrun => ?_⟩
  obtain ⟨a, ha, rfl | ⟨_, rfl⟩⟩ := hrows.exists_left ha'
  · exact h.fresh a' ha hrun
  · cases hrun

theorem completed_of_cancelled (hrows : Forall₂ CancelledRow rows rows') (ha : a ∈ rows)
    (hc : a.state = .completed) : a ∈ rows' := by
  obtain ⟨a', ha', rfl | ⟨hopen, _⟩⟩ := hrows.exists_right ha
  · exact ha'
  · exact absurd hc hopen

theorem Store.of_cancelEach (hcs : s.Counts e) (h : s.cancelEach e as = .ok (e', s')) :
    StoreChanges R s s' ∧ s'.Counts e' ∧
      ((∀ a ∈ as, ∀ b ∈ s.activities, b.id = a.id → b.state ≠ .completed) →
        Forall₂ CancelledRow s.activities s'.activities) := by
  induction as generalizing s e with
  | nil =>
    cases h
    exact ⟨.refl R _, hcs, fun _ => forall₂_same.2 fun _ _ => .inl rfl⟩
  | cons a as ih =>
    obtain ⟨⟨e1, s1⟩, h1, h⟩ := of_bind h
    have hcs' : (s.updateActivity e.sessionID a.id
        fun a => { a with state := .cancelled }).Counts e := hcs.frame rfl
    obtain ⟨hev, hcs, _⟩ := changes_appendExecutionEvent (R := R) hcs' h1
    obtain ⟨hrows, hcs, hrest⟩ := ih hcs h
    refine ⟨StoreChanges.trans ?_ (hev.trans hrows), hcs, fun hopen => ?_⟩
    · exact .of_eq rfl rfl
    have hacts := activities_appendActivityEvent h1
    have hrow : Forall₂ CancelledRow s.activities s1.activities := by
      rw [hacts]
      refine forall₂_map_right_iff.2 (forall₂_same.2 fun b hb => ?_)
      split
      next hmat =>
        have hid := beq_iff_eq.1 (Bool.and_eq_true_iff.1 hmat).2
        exact .inr ⟨hopen a mem_cons_self b hb hid, rfl⟩
      · exact .inl rfl
    have hopen1 : ∀ a' ∈ as, ∀ b ∈ s1.activities, b.id = a'.id → b.state ≠ .completed := by
      intro a' ha' b hb hid
      obtain ⟨b', hb', rfl | ⟨_, rfl⟩⟩ := hrow.exists_left hb
      · exact hopen a' (mem_cons_of_mem _ ha') b hb' hid
      · intro hst
        cases hst
    exact hrow.comp CancelledRow.trans (hrest hopen1)

theorem Store.of_cancelNativeChild (hexs : (s.executions.map (·.id)).Nodup)
    (he : e ∈ s.executions) (hunended : isExecutionTerminal e.state = false)
    (h : s.cancelNativeChild e = .ok (e', s')) : StoreChanges R s s' ∧
      ((s.activities.map (·.id)).Nodup → Forall₂ CancelledRow s.activities s'.activities) := by
  obtain ⟨_, h⟩ := of_check h
  obtain ⟨⟨e1, s1⟩, h1, h⟩ := of_bind h
  have hrow : StoreChanges R s (s.updateExecution e.sessionID e.id fun e =>
      { e with state := .cancelled, controlRevision := e.controlRevision + 1 }) := by
    refine changes_updateExecution (fun row hrow _ hid => .cancelled ?_) fun _ => rfl
    rw [eq_of_id hexs hrow he hid]
    exact hunended
  obtain ⟨hrows, hcs, hcan⟩ := of_cancelEach (R := R)
    (s := s.updateExecution e.sessionID e.id _)
    ((counts_of_mem hexs he).updateExecution (by exact fun _ => ⟨rfl, rfl, rfl⟩)) h1
  refine ⟨(hrow.trans hrows).trans (changes_appendExecutionEvent hcs h).1,
    fun hacts => ?_⟩
  rw [activities_appendExecutionEvent h]
  refine hcan fun a ha b hb hid hst => ?_
  obtain ⟨ha, hcancellable⟩ := mem_filter.1 ha
  have heq : b = a := inj_on_of_nodup_map hacts hb ha hid
  simp [ExecutionActivity.cancellable, ← heq, hst] at hcancellable

end Rows

end Peen.Executions

namespace Peen.Sessions

open Executions.Store Executions Lts
open Tables (inputAnswers completeExecutionActivity)

/-! ## Cancellations -/

/-- What a cancellation does to the tables. -/
structure Cancels (s s' : Store) : Prop where
  changes : StoreChanges (fun _ _ => False) s s'
  activities : Logged s.activities → List.Forall₂ CancelledRow s.activities s'.activities

variable {execution : Execution} {input : CompleteActivityInput}
  {finish : Executions.FinishExecutionInput} {saved : ExecutionActivity}

section Cancellation
variable {s : Tables}

theorem Cancels.refl (s : Store) : Cancels s s :=
  ⟨.refl _ _, fun _ => List.forall₂_same.2 fun _ _ => .inl rfl⟩

theorem Cancels.trans {s s' s'' : Store} (h : Cancels s s') (h' : Cancels s' s'') :
    Cancels s s'' :=
  ⟨h.changes.trans h'.changes, fun hlogged => (h.activities hlogged).comp CancelledRow.trans
    (h'.activities (hlogged.cancelled (h.activities hlogged)))⟩

namespace Tables

section
variable (hids : (s.executions.executions.map (·.id)).Nodup)
include hids

theorem cancels_cancelNativeChild (hmem : execution ∈ s.executions.executions)
    (hunended : isExecutionTerminal execution.state = false)
    (h : cancelNativeChild cfg s run execution = .ok s') : Cancels s.executions s'.executions := by
  obtain ⟨⟨execution', executions⟩, hcan, h⟩ := of_bind h
  obtain ⟨answer, _, h⟩ := of_bind h
  obtain ⟨hrows, hrest⟩ := of_cancelNativeChild hids hmem hunended hcan
  have hcans : Cancels s.executions executions := ⟨hrows, fun hlogged => hrest hlogged.ids⟩
  refine hcans.trans ?_
  unfold recordExecutionChildReport at h
  split at h
  · cases h
  · obtain ⟨parent, _, e, executions', hfd, _, _, he, rfl⟩ := queueReport_ok h
    refine ⟨changes_append_of_mem (hrows.rows.ids ▸ hids) (mem_of_findExecution hfd) he, ?_⟩
    rw [activities_appendExecutionEvent he]
    exact (Cancels.refl _).activities

theorem cancels_cancelMembers (h : cancelMembers cfg run members s = .ok s') :
    Cancels s.executions s'.executions := by
  induction members generalizing s with
  | nil =>
    cases h
    exact .refl _
  | cons member members ih =>
    obtain ⟨execution, hfd, h⟩ := of_bind h
    split at h
    · exact ih hids h
    next hunended =>
      obtain ⟨t, ht, h⟩ := of_bind h
      have hcans := cancels_cancelNativeChild hids
        (mem_of_findExecution hfd) (Bool.eq_false_iff.2 hunended) ht
      exact hcans.trans (ih (hcans.changes.rows.ids ▸ hids) h)

/-- **What the cancellation of an agent run does to the execution tables.** -/
theorem cancels_requestAgentRunCancellation
    (h : requestAgentRunCancellation cfg s answers agentRunID = .ok s') :
    Cancels s.executions s'.executions := by
  obtain ⟨requested, _, h⟩ := of_bind h
  split at h
  · unfold cancelNativeChildTree at h
    split at h
    · cases h
      exact .refl _
    · obtain ⟨t, ht, h⟩ := of_bind h
      obtain ⟨_, _, h⟩ := of_bind h
      cases h
      exact cancels_cancelMembers hids ht
  · cases h
    exact .refl _

end

end Tables

end Cancellation

/-! ## Steps -/

/-- The invariant: the keys of the tables, and that a running activity has nothing saved. -/
structure Ruled (w : World) : Prop where
  rooted : Rooted w.rows
  logged : Logged w.tables.executions.activities

/-- An execution as the commit that completes it finds it: its activities are completed, and no row of
its inbox blocks the end. -/
def SettledEnd (c : Call) (w : World) (e : Execution) : Prop :=
  ∃ boundary a cutoff, c = .call boundary a ∧ boundary.watermark = .ok cutoff ∧
    (∀ activity ∈ w.tables.executions.activities, activity.sessionID = e.sessionID →
      activity.executionID = e.id → activity.state = .completed) ∧
    ∀ row ∈ w.tables.inbox, row.blocks e.id cutoff boundary.reported = false

/-- What lasts: every execution, the result of one that has ended, and completed activities. -/
structure Lasts (w w' : World) : Prop where
  ended : ∀ e ∈ w.rows, ∃ e' ∈ w'.rows, e'.identity = e.identity ∧
    (isExecutionTerminal e.state = true → e'.result = e.result)
  completed : ∀ activity ∈ w.tables.executions.activities, activity.state = .completed →
    activity ∈ w'.tables.executions.activities

/-- What a step of such a run keeps. -/
structure Advances (c : Call) (w w' : World) : Prop where
  ruled : Ruled w'
  lasts : Lasts w w'
  settled : ∀ e' ∈ w'.rows, e'.state = .completed →
    (∃ e ∈ w.rows, e.id = e'.id ∧ e.state = .completed) ∨ SettledEnd c w' e'

section Steps
variable {w : World}

theorem ExecutionsStep.ended (h : ExecutionsStep cfg a w w' told) (he : e ∈ w.rows) :
    ∃ e' ∈ w'.rows, e'.identity = e.identity ∧
      (isExecutionTerminal e.state = true → e'.result = e.result) := by
  obtain ⟨_, e', he', hup⟩ := h.exists_right he
  exact ⟨e', he', RowUpdates.identity hup, RowUpdates.ended hup⟩

theorem ExecutionsStep.completed (h : ExecutionsStep cfg a w w' told) (he' : e' ∈ w'.rows)
    (hc : e'.state = .completed) :
    (∃ e ∈ w.rows, e.id = e'.id ∧ e.state = .completed) ∨
      Ends cfg a w w' .completed e'.id := by
  cases h with
  | changed R reached ended rows =>
    obtain ⟨e, he, hup⟩ := rows.exists_left he'
    have hid := RowUpdates.id hup
    rcases RowUpdates.completed hup hc with hc | hR
    · exact .inl ⟨e, he, hid.symm, hc⟩
    · rw [hid]
      exact .inr (ended _ _ hR)
  | created row inherited rows =>
    obtain ⟨e, he, hup⟩ := rows.exists_left he'
    have hc := (RowUpdates.completed hup hc).resolve_right id
    rcases mem_snoc.1 he with he | he
    · exact .inl ⟨e, he, (RowUpdates.id hup).symm, hc⟩
    · rw [he] at hc
      rcases inherited.opened with hopen | hopen
      · cases hopen.symm.trans hc
      · cases hopen.symm.trans hc

theorem Tables.requireSettledExecutionInbox_ok {s : Tables}
    (h : s.requireSettledExecutionInbox boundary executionID = .ok ()) :
    ∃ cutoff, boundary.watermark = .ok cutoff ∧
      ∀ row ∈ s.inbox, row.blocks executionID cutoff boundary.reported = false := by
  obtain ⟨cutoff, hcutoff, h⟩ := of_bind h
  obtain ⟨hblocked, h⟩ := of_check h
  exact ⟨cutoff, hcutoff, fun row hrow =>
    Bool.eq_false_iff.2 (List.any_eq_false.1 (Bool.eq_false_iff.2 hblocked) row hrow)⟩

theorem settled_activities {s : Store}
    (h : s.requireSettledExecutionActivities e .completed = .ok ()) :
    ∀ activity ∈ s.activities, activity.sessionID = e.sessionID → activity.executionID = e.id →
      activity.state = .completed := by
  intro activity hact hse hexec
  obtain ⟨hset, h⟩ := of_check h
  have hrow := List.any_eq_false.1 (Bool.eq_false_iff.2 hset) activity hact
  simpa [hse, hexec] using hrow

theorem Ends.settled {e' : Execution}
    (h : Ends cfg (w.answered cfg boundary a) w w' .completed e'.id)
    (hact : act cfg w (w.answered cfg boundary a) = .ok w')
    (hse : ∀ execution ∈ w.rows, execution.id = e'.id → execution.sessionID = e'.sessionID) :
    SettledEnd (.call boundary a) w' e' := by
  obtain ⟨answers, lease, input, newID, before, execution, heq, hfd, hid, hset⟩ := h
  have hmem := (mem_of_activityForLease hfd).1
  cases a with
  | complete =>
    cases heq
    have hin := hset.inbox
    obtain ⟨⟨_, execution'⟩, hfd', hin⟩ := of_bind hin
    obtain ⟨rfl, rfl⟩ := Prod.mk.inj (Except.ok.inj (hfd'.symm.trans hfd))
    obtain ⟨cutoff, hcutoff, hrows⟩ := Tables.requireSettledExecutionInbox_ok hin
    obtain ⟨⟨after, s⟩, hs, hact⟩ := of_bind hact
    cases hact
    refine ⟨boundary, _, cutoff, rfl, hcutoff, ?_, ?_⟩
    · rw [← hid, ← hse _ hmem hid]
      exact settled_activities hset.activities
    · rw [← hid]
      intro row hrow
      refine hrows row ?_
      rw [← (Tables.holders_complete hs).2]
      exact hrow
  | _ => cases heq

theorem Lasts.refl (w : World) : Lasts w w :=
  ⟨fun e he => ⟨e, he, rfl, fun _ => rfl⟩, fun _ ha _ => ha⟩

theorem Lasts.trans (h : Lasts w w') (h' : Lasts w' w'') : Lasts w w'' := by
  refine ⟨fun e he => ?_, fun activity ha hc => h'.completed activity (h.completed activity ha hc) hc⟩
  obtain ⟨e', he', hident, hres⟩ := h.ended e he
  obtain ⟨e'', he'', hident', hres'⟩ := h'.ended e' he'
  refine ⟨e'', he'', hident'.trans hident, fun hend => ?_⟩
  have hst : e'.state = e.state := congrArg Prod.fst (hres hend)
  exact (hres' (hst ▸ hend)).trans (hres hend)

theorem act_advances (hw : Ruled w) (h : act cfg w (w.answered cfg boundary a) = .ok w') :
    Advances (.call boundary a) w w' := by
  obtain ⟨told, _, hrows, _⟩ := executions_act hw.rooted.ids h
  obtain ⟨history, hch⟩ := activities_act hw.logged.ids h []
  have hruled : Ruled w' := ⟨hrows.rooted hw.rooted, hw.logged.changes hch⟩
  refine ⟨hruled, ⟨fun e he => hrows.ended he, ?_⟩, fun e' he' hc => ?_⟩
  · intro activity hact hc
    exact (completed_of_changes hch hw.logged.ids hact hc).1
  · refine (hrows.completed he' hc).imp_right fun hends => hends.settled h ?_
    intro execution hexec hid
    obtain ⟨e'', he'', hident⟩ := hrows.kept hexec
    have heq : e'' = e' := eq_of_id hruled.rooted.ids he'' he'
      ((Execution.id_of_identity hident).trans hid)
    rw [← heq]
    exact (Execution.session_of_identity hident).symm

theorem cancelAgentRun_advances (hw : Ruled w)
    (h : Tables.requestAgentRunCancellation cfg w.tables answers agentRunID = .ok s) :
    Advances (.cancelAgentRun answers agentRunID) w (w.commit s []) := by
  have hcans := Tables.cancels_requestAgentRunCancellation hw.rooted.ids h
  have hcan := hcans.activities hw.logged
  refine ⟨⟨hw.rooted.changes hcans.changes.rows, hw.logged.cancelled hcan⟩, ⟨?_, ?_⟩, ?_⟩
  · intro e he
    obtain ⟨e', he', hup⟩ := hcans.changes.rows.exists_right he
    exact ⟨e', he', RowUpdates.identity hup, RowUpdates.ended hup⟩
  · intro activity hact hc
    exact completed_of_cancelled hcan hact hc
  · intro e' he' hc
    obtain ⟨e, he, hup⟩ := hcans.changes.rows.exists_left he'
    exact .inl ⟨e, he, (RowUpdates.id hup).symm, (RowUpdates.completed hup hc).resolve_right id⟩

/-- **Every call of a run keeps what has ended.** -/
theorem callStep_advances (hw : Ruled w) (h : callStep cfg w c = some w') : Advances c w w' := by
  cases c with
  | call => exact act_advances hw (step_eq_some h).2
  | cancelAgentRun answers agentRunID =>
    obtain ⟨s, hs, rfl⟩ := Option.map_eq_some_iff.1 h
    cases hcan : Tables.requestAgentRunCancellation cfg w.tables answers agentRunID with
    | error err => rw [hcan] at hs; cases hs
    | ok t =>
      rw [hcan] at hs
      cases hs
      exact cancelAgentRun_advances hw hcan

/-- **So does every run.** -/
theorem exec_lasts (hw : Ruled w) (h : exec (callStep cfg) w calls = some w') :
    Ruled w' ∧ Lasts w w' := by
  have hrun : Lts.Always (callStep cfg) (fun u => Ruled u ∧ Lasts w u) w calls := by
    refine Lts.Always.of_step ?_ ⟨hw, .refl w⟩
    intro u c u' hu hstep
    have hadvances := callStep_advances hu.1 hstep
    exact ⟨hadvances.ruled, hu.2.trans hadvances.lasts⟩
  exact hrun.last h

theorem ruled_new : Ruled .new :=
  ⟨⟨List.nodup_nil, nofun⟩, ⟨List.nodup_nil, fun _ ha => absurd ha List.not_mem_nil⟩⟩

end Steps

/-! ## Repeated completions -/

section Repeats
variable {cfg : Config} {w : World} {lease : ActivityLease}

theorem activityForLease_of_mem {s s' : Store} (hlogged : Logged s'.activities)
    (hids : (s'.executions.map (·.id)).Nodup)
    (hls : s.activityForLease cfg.sessionID lease = .ok r) (hact : activity ∈ s'.activities)
    (hexecution : execution ∈ s'.executions) (hid : activity.id = lease.id)
    (hse : activity.sessionID = cfg.sessionID)
    (how : activity.ownerGenerationID = some lease.generationID)
    (hatt : activity.attempt = lease.attempt) (heid : execution.id = activity.executionID)
    (hese : execution.sessionID = cfg.sessionID) :
    s'.activityForLease cfg.sessionID lease = .ok (activity, execution) := by
  have hfd : s'.findExecutionActivity cfg.sessionID lease.id = .ok activity := by
    unfold findExecutionActivity
    cases hfind : s'.activities.find? fun a => a.sessionID == cfg.sessionID && a.id == lease.id with
    | none =>
      have := List.find?_eq_none.1 hfind activity hact
      simp [hse, hid] at this
    | some b =>
      have hb := List.find?_some hfind
      simp only [Bool.and_eq_true, beq_iff_eq] at hb
      have heq : b = activity := List.inj_on_of_nodup_map hlogged.ids
        (List.mem_of_find?_eq_some hfind) hact (hb.2.trans hid.symm)
      rw [heq]
  have hexec : s'.findExecution cfg.sessionID activity.executionID = .ok execution := by
    unfold findExecution
    cases hfind : s'.executions.find? fun e =>
        e.sessionID == cfg.sessionID && e.id == activity.executionID with
    | none =>
      have := List.find?_eq_none.1 hfind execution hexecution
      simp [hese, heid] at this
    | some b =>
      have hb := List.find?_some hfind
      simp only [Bool.and_eq_true, beq_iff_eq] at hb
      have heq : b = execution := eq_of_id hids
        (List.mem_of_find?_eq_some hfind) hexecution (hb.2.trans heid.symm)
      rw [heq]
  unfold activityForLease at hls ⊢
  obtain ⟨hval, hls⟩ := of_check hls
  rw [if_neg hval, hfd]
  show (if _ then _ else if _ then _ else _) = _
  rw [if_neg (not_not.2 how), if_neg (not_not.2 hatt), hexec]
  rfl

theorem Tables.completeExecutionActivity_completed {s : Tables}
    (hval : validateActivityResult cfg.toConfig (inputAnswers cfg outside input)
      (input.request cfg) = .ok ())
    (hfd : s.executions.activityForLease cfg.sessionID lease = .ok (activity, execution))
    (hc : activity.state = .completed) :
    completeExecutionActivity cfg s active outside lease input newID =
      (completedExecutionActivity cfg.toConfig activity execution
        (input.request cfg)).map (·, s) := by
  unfold completeExecutionActivity completeActivityWithQuery
  rw [hval, hfd]
  dsimp only [bind, Except.bind]
  rw [if_pos hc]
  cases completedExecutionActivity cfg.toConfig activity execution (input.request cfg) with
  | error err => rfl
  | ok saved =>
    show Except.ok (saved, Tables.applyCompletion s activity saved _ s.executions) = .ok (saved, s)
    unfold Tables.applyCompletion
    split
    · rfl
    · rw [if_pos (.inl hc)]

/-- What the first completion of a final activity leaves, in the tables and about its request. -/
structure Decided (cfg : Config) (lease : ActivityLease) (request : Executions.CompleteActivityInput)
    (finish : Executions.FinishExecutionInput) (directory : String) (saved : ExecutionActivity)
    (s : Store) : Prop where
  mem : saved ∈ s.activities
  state : saved.state = .completed
  id : saved.id = lease.id
  session : saved.sessionID = cfg.sessionID
  owner : saved.ownerGenerationID = some lease.generationID
  attempt : saved.attempt = lease.attempt
  final : IsFinal saved
  context : saved.contextJSON = request.context
  requested : FinalRequest request finish
  uncompacted : request.compaction = none
  terminal : isExecutionTerminal finish.state = true
  execution : ∃ e ∈ s.executions, e.id = saved.executionID ∧ e.sessionID = cfg.sessionID ∧
    Decision cfg.toConfig request finish directory saved e

theorem decided_of_completed (hw : Ruled w)
    (hfd : w.tables.executions.activityForLease cfg.sessionID lease = .ok (before, execution))
    (hrun : before.state = .running) (hfin : (input.request cfg).finish = some finish)
    (h : completeExecutionActivity cfg w.tables w.active outside lease input newID =
      .ok (saved, s)) :
    Decided cfg lease (input.request cfg) finish (finish.directory execution) saved
      s.executions := by
  obtain ⟨before', execution', write, executions, hof, hs⟩ := Tables.completeExecutionActivity_ok h
  have hexs : s.executions = executions := by
    rcases hs with rfl | ⟨written, _, _, rfl⟩
    · rfl
    · rfl
  obtain ⟨hval, a, e, hfd', hcas⟩ :=
    completeExecutionActivity_cases hof.completed
  obtain ⟨rfl, rfl⟩ := Prod.mk.inj (Except.ok.inj (hfd'.symm.trans hfd))
  obtain ⟨hmem, hse, hid, how, hatt⟩ := of_activityForLease hfd
  obtain ⟨hexec, heid, hese⟩ := mem_of_activityForLease hfd
  have hcmp := hcas.resolve_left fun hrepeat => by
    rw [hrun] at hrepeat
    cases hrepeat.1
  obtain ⟨hfnl, hctx, hnone, e', he', hident, hdec⟩ :=
    hcmp.decision hval hfin (hw.logged.fresh a hmem hrun) hexec
  obtain ⟨b, hb, _, hbid, _, _, hrow⟩ :=
    of_completeExecutionActivity hw.logged.ids hof.completed
  have hba : b = a := List.inj_on_of_nodup_map hw.logged.ids hb hmem (hbid.trans hid.symm)
  rw [hba] at hrow
  rcases hrow with ⟨hc, _, _⟩ | ⟨_, htrans, hsv⟩
  · rw [hrun] at hc
    cases hc
  have hsv' : saved ∈ executions.activities := by
    rw [show executions.activities = _ from hsv]
    exact (mem_putRow hmem htrans.id_eq).2 (.inl rfl)
  rw [hexs]
  have hst := validateActivityResult_ok hval finish hfin
  cases htrans with
  | settle =>
    refine ⟨hsv', rfl, hid, hse, how, hatt, hfnl, hctx,
      .of_valid hval hfin, hnone, ?_, e', he', ?_, ?_, hdec⟩
    · rcases hst with hst | hst <;> rw [hst] <;> rfl
    · exact (Execution.id_of_identity hident).trans heid
    · exact (Execution.session_of_identity hident).trans hese

theorem Decided.lasts (h : Decided cfg lease request finish directory saved w.tables.executions)
    (hw : Lasts w w') : Decided cfg lease request finish directory saved w'.tables.executions := by
  obtain ⟨e, he, heid, hese, hdec⟩ := h.execution
  obtain ⟨e', he', hident, hres⟩ := hw.ended e he
  exact { h with
    mem := hw.completed saved h.mem h.state
    execution := ⟨e', he', (Execution.id_of_identity hident).trans heid,
      (Execution.session_of_identity hident).trans hese,
      hdec.of_result hres h.terminal⟩ }

theorem Decided.answer {s : Store} (hw : Ruled w)
    (hls : s.activityForLease cfg.sessionID lease = .ok r)
    (h : Decided cfg lease request finish directory saved w.tables.executions) :
    ∃ e, Decision cfg.toConfig request finish directory saved e ∧
      ∀ active outside input newID,
        validateActivityResult cfg.toConfig (inputAnswers cfg outside input)
          (input.request cfg) = .ok () →
        completeExecutionActivity cfg w.tables active outside lease input newID =
          (completedExecutionActivity cfg.toConfig saved e (input.request cfg)).map
            (·, w.tables) := by
  obtain ⟨e, he, heid, hese, hdec⟩ := h.execution
  refine ⟨e, hdec, fun active outside input newID hval => ?_⟩
  have hfd := activityForLease_of_mem hw.logged hw.rooted.ids hls h.mem he h.id h.session
    h.owner h.attempt heid hese
  exact Tables.completeExecutionActivity_completed hval hfd h.state

end Repeats

/-- The checks of a request that come before its activity is looked up. -/
def Accepted (cfg : Config) (outside : CompletionAnswers)
    (input : CompleteActivityInput) : Prop :=
  validateActivityResult cfg.toConfig (inputAnswers cfg outside input) (input.request cfg) = .ok ()

instance (cfg : Config) (outside : CompletionAnswers) (input : CompleteActivityInput) :
    Decidable (Accepted cfg outside input) :=
  match h : validateActivityResult cfg.toConfig (inputAnswers cfg outside input)
      (input.request cfg) with
  | .ok () => .isTrue h
  | .error _ => .isFalse fun hok => nomatch h.symm.trans hok

/-- How completions under the lease of a final activity are answered after the first of them was
decided: the same request gets the saved row and changes nothing, and a request with another outcome
is refused if its change is noticed, and only then. -/
structure AnswersRepeats (cfg : Config) (w : World) (lease : ActivityLease)
    (input : CompleteActivityInput) (finish : Executions.FinishExecutionInput) (directory : String)
    (saved : ExecutionActivity) : Prop where
  same : ∀ outside newID, Accepted cfg outside input →
    completeExecutionActivity cfg w.tables w.active outside lease input newID
      = .ok (saved, w.tables)
  changed : ∀ outside second finish' newID, Accepted cfg outside second →
    (second.request cfg).finish = some finish' →
    (cfg.finishDecisionHash (second.request cfg) = cfg.finishDecisionHash (input.request cfg) →
      (second.request cfg).outcome = (input.request cfg).outcome) →
    (second.request cfg).outcome ≠ (input.request cfg).outcome →
    (Refused
        (completeExecutionActivity cfg w.tables w.active outside lease second newID) ↔
      Noticed (input.request cfg) finish directory (second.request cfg) finish')

theorem refused_map {α β : Type} {r : Except Err α} {f : α → β} :
    Refused (r.map f) ↔ Refused r := by
  cases r with
  | error err =>
    refine ⟨fun h => ?_, fun h => ?_⟩ <;>
    · obtain ⟨text, h⟩ := h
      cases h
      exact ⟨text, rfl⟩
  | ok x =>
    refine ⟨fun h => ?_, fun h => ?_⟩ <;>
    · obtain ⟨text, h⟩ := h
      cases h

theorem Decided.repeats {cfg : Config} {s : Store} (hhash : ∀ text, cfg.hash text ≠ "")
    (hw : Ruled w) (hls : s.activityForLease cfg.sessionID lease = .ok r)
    (h : Decided cfg lease (input.request cfg) finish
      (finish.directory execution) saved w.tables.executions) :
    AnswersRepeats cfg w lease input finish (finish.directory execution) saved := by
  obtain ⟨e, hdec, hans⟩ := h.answer hw hls
  refine ⟨fun outside newID hval => ?_, ?_⟩
  · rw [hans w.active outside input newID hval, hdec.repeats h.final h.context h.requested
      h.uncompacted Executions.FinishExecutionInput.directory_of_named]
    rfl
  · intro outside second finish' newID hval hfin hdigest hchd
    rw [hans w.active outside second newID hval, refused_map]
    exact hdec.refuses_iff h.final h.context (.of_valid hval hfin) hhash hdigest hchd

def digestConfig : Config :=
  { plainConfig with
    finishDecisionHash := fun input => input.output ++ input.context ++
      ((input.finish.map (·.pendingOutput)).getD "") }

/-- No completion was sealed, so every queued message blocks the end. -/
def unsealed : InboxBoundary := ⟨.ok maxInt64, fun _ => false⟩

/-- A root is created for a turn, and its final activity is claimed. -/
def finalClaimed : List Call :=
  [.call unsealed (.reserveTurn 100 50),
    .call unsealed (.admitTurn ⟨50, 100⟩ (plainTurn 3 "hello") (1000 + ·)),
    .call unsealed (.createExecution agreedCreation (plainRoot 10 100 "task")),
    .call unsealed (.claim ⟨40, .ok ()⟩ 10 7 ⟨executionFinishStepID, .preparation, .retry,
      executionFinishActivityName, emptyActivityJSON⟩)]

def finalLease : ActivityLease := ⟨40, 7, 1⟩

/-- A final result that completes the execution, with this output for the case that it goes on. -/
def plainFinish (output pendingOutput : String) : CompleteActivityInput :=
  ⟨output, emptyActivityJSON, some ⟨.completed, "", "", pendingOutput, none, none, false⟩,
    none, none, none⟩

def completeFinal (input : CompleteActivityInput) : Call :=
  .call unsealed (.complete agreedCompletion finalLease input (2000 + ·))

/-- What happens after that: the activity is found running, the first completion is committed, and the
second returns a row and leaves the tables. -/
def repeatAccepted (w : World) (first second : CompleteActivityInput) : Bool :=
  match w.tables.executions.activityForLease digestConfig.sessionID finalLease,
    callStep digestConfig w (completeFinal first) with
  | .ok (before, _), some w' => before.state == .running &&
    match completeExecutionActivity digestConfig w'.tables w'.active agreedCompletion
      finalLease second (3000 + ·) with
    | .ok (_, s) => s == w'.tables
    | .error _ => false
  | _, _ => false

theorem of_repeatAccepted (h : repeatAccepted w first second = true) : ∃ before execution w' saved,
      w.tables.executions.activityForLease digestConfig.sessionID finalLease
        = .ok (before, execution) ∧ before.state = .running ∧
      callStep digestConfig w (completeFinal first) = some w' ∧
      completeExecutionActivity digestConfig w'.tables w'.active agreedCompletion finalLease
        second (3000 + ·) = .ok (saved, w'.tables) := by
  unfold repeatAccepted at h
  split at h
  next before execution w' hfd hstep =>
    obtain ⟨hrun, h⟩ := Bool.and_eq_true_iff.1 h
    split at h
    next saved s hs =>
      rw [beq_iff_eq] at h
      exact ⟨before, execution, w', saved, hfd, beq_iff_eq.1 hrun, hstep, h ▸ hs⟩
    · cases h
  · cases h

end Peen.Sessions
