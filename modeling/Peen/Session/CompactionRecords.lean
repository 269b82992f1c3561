import Peen.Session.ActivityRuns
import Peen.Session.HistoryCoverage

/-!
# Activities and compactions

The activities of a session change as the ledger of `Session.ActivityLifecycle` does, whatever call
of a run is made.
-/

namespace Peen.Sessions

open Executions Relation Lts

/-! ## Transactions -/

/-- The activities change as a ledger does: rows are created, or make transitions. -/
def ActivityChanges (s s' : Store) : Prop :=
  ∀ history, ∃ history',
    ReflTransGen Executions.Change ⟨s.activities, history⟩ ⟨s'.activities, history'⟩

section Transactions
theorem ActivityChanges.of_eq {s s' : Store} (h : s'.activities = s.activities) :
    ActivityChanges s s' := by
  intro history
  rw [h]
  exact ⟨history, .refl⟩

theorem CompletionOf.activities
    (h : CompletionOf cfg s active outside lease input newID before execution after write executions)
    (hids : (s.executions.activities.map (·.id)).Nodup) :
    ActivityChanges s.executions executions ∧
      ∃ a ∈ executions.activities, a.id = lease.id ∧ a.state = .completed := by
  obtain ⟨a, ha, _, hid, _, _, hcas⟩ :=
    Store.of_completeExecutionActivity hids h.completed
  rcases hcas with ⟨hst, _, rfl⟩ | ⟨_, htrans, hsv⟩
  · exact ⟨.of_eq rfl, a, ha, hid, hst⟩
  · refine ⟨fun history => ⟨_, hsv.changes ha htrans⟩, after, ?_, htrans.id_eq.trans hid, ?_⟩
    · rw [show executions.activities = _ from hsv]
      exact (mem_putRow ha htrans.id_eq).2 (.inl rfl)
    · cases htrans with
      | settle => rfl

end Transactions

/-! ## Steps -/

section Steps
variable {w : World}

/-- **A call changes the activities as a ledger does.** -/
theorem activities_act (hids : (w.tables.executions.activities.map (·.id)).Nodup)
    (h : act cfg w a = .ok w') : ActivityChanges w.tables.executions w'.tables.executions := by
  have of_same : ∀ {s : Tables}, s.executions = w.tables.executions →
      ActivityChanges w.tables.executions s.executions := fun h => .of_eq (congrArg (·.activities) h)
  cases act_acted h with
  | reserve | abandon | release | worker => exact .of_eq rfl
  | admitted hs => exact of_same (Tables.admitTurn_ok hs).2.2.others.executions
  | write _ hwr | recover hwr => exact of_same hwr.others.executions
  | @restore _ _ _ _ _ turn _ hs =>
    rcases hs.written with ⟨rfl, _⟩ | ⟨leases, e, executions, _, he, rfl⟩
    · exact .of_eq rfl
    · refine .of_eq ?_
      show (Tables.restoreRootTurnRow cfg _ turn _).executions.activities = _
      rw [(Tables.others_restoreRootTurnRow cfg _ turn _).executions]
      exact Store.activities_appendExecutionEvent he
  | acquire _ hs =>
    rcases hs.written with ⟨turn, _, _, rfl⟩ | ⟨_, hadm⟩
    · exact .of_eq rfl
    · exact of_same (Tables.admitTurn_ok hadm).2.2.others.executions
  | cancel hpau =>
    refine .of_eq ?_
    show (Tables.requestCancel _ _).executions.activities = _
    rw [(Tables.writes_requestCancel _ w.active).others.executions]
    exact Store.activities_changeExecutions hpau
  | deliver hs =>
    obtain ⟨messages, t, ht, hs⟩ := hs.written
    exact of_same ((Tables.writes_appendTranscript hs).others.executions.trans
      (Tables.aside_deliverInboxRows ht).2)
  | complete hs =>
    obtain ⟨before, execution, write, executions, hof, hs⟩ :=
      Tables.completeExecutionActivity_ok hs
    have hch := (hof.activities hids).1
    rcases hs with rfl | ⟨written, _, _, rfl⟩
    · exact hch
    · exact hch
  | aside _ haside => exact .of_eq haside.activities
  | executions call =>
    cases call with
    | claim hs => exact fun history => ⟨_, Store.changes_beginExecutionActivity hids hs⟩
    | interrupt hs =>
      exact fun history => ⟨_, Store.changes_interruptExecutionActivity hids hs⟩
    | resolve hs =>
      exact fun history => ⟨_, Store.changes_resolveExecutionActivity hids hs⟩
    | pause hs => exact .of_eq (Store.activities_pauseExecution hs)
    | resume hs => exact .of_eq (Store.activities_resumeExecution hs)
    | pauseUnfinished hs => exact .of_eq (Store.activities_pauseUnfinishedExecutions hs)

/-- Every stored compaction is the result of an activity that has completed. -/
structure Recorded (s : Tables) : Prop where
  kept : ∃ history, Ledger.Kept ⟨s.executions.activities, history⟩
  completed : ∀ c ∈ s.compactions, ∃ a ∈ s.executions.activities, a.id = c.id ∧ a.state = .completed

theorem recorded_empty : Recorded .empty :=
  ⟨⟨[], Ledger.Kept.empty⟩, nofun⟩

theorem Changes.compactions (h : Changes s s') : s'.compactions = s.compactions := by
  induction h with
  | refl => rfl
  | tail _ hchg ih =>
    refine Eq.trans ?_ ih
    cases hchg with
    | aside _ same => exact same.compactions
    | openTurn | resumeTurn => rfl
    | write _ written => exact written.others.compactions

theorem completed_complete (hids : (w.tables.executions.activities.map (·.id)).Nodup)
    (h : act cfg w (.complete answers lease input newID) = .ok w') :
    ∃ a ∈ w'.tables.executions.activities, a.id = lease.id ∧ a.state = .completed := by
  obtain ⟨⟨after, s⟩, hs, h⟩ := of_bind h
  cases h
  obtain ⟨before, execution, write, executions, hof, hs⟩ := Tables.completeExecutionActivity_ok hs
  have hcmp := (hof.activities hids).2
  rcases hs with rfl | ⟨written, _, _, rfl⟩
  · exact hcmp
  · exact hcmp

/-- **Every step keeps compactions recorded.** -/
theorem recorded_step (hs : Recorded w.tables) (h : step cfg w a = some w') :
    Recorded w'.tables := by
  obtain ⟨history, hk⟩ := hs.kept
  have hact := (step_eq_some h).2
  obtain ⟨history', hch⟩ := activities_act hk.ids hact history
  refine ⟨⟨history', hk.changes hch⟩, fun c hc => ?_⟩
  have hold : c ∈ w.tables.compactions →
      ∃ a ∈ w'.tables.executions.activities, a.id = c.id ∧ a.state = .completed := by
    intro hc
    obtain ⟨a, ha, hid, hst⟩ := hs.completed c hc
    exact ⟨a, (completed_of_changes hch hk.ids ha hst).1, hid, hst⟩
  rcases act_changes hact with hsame | ⟨_, lease, _, _, compaction, rfl, _, hsts⟩
  · exact hold (hsame.compactions ▸ hc)
  · obtain ⟨normalized, executions, rfl, _, _, hsame, _⟩ := hsts.tables
    rw [hsame.compactions] at hc
    rcases mem_snoc.1 hc with hc | hc
    · exact hold hc
    · obtain rfl := hc
      exact completed_complete hk.ids hact

end Steps

/-- **The store of a session runs a ledger.** In every run of the calls of `Action` the activities are
reached by changes of a ledger; a step of an execution has one activity; and a compaction that a
completion stored is the result of an activity that has completed. `CreateCompaction`, which stores one
of no activity, and `RequestAgentRunCancellation`, which ends activities, are none of the calls. -/
theorem sessions_run_ledger (cfg : Config) (actions : List Action) :
    Always (step cfg) (fun w =>
      (∃ history, ReflTransGen Executions.Change ⟨[], []⟩
        ⟨w.tables.executions.activities, history⟩) ∧
      (w.tables.executions.activities.map fun a => (a.executionID, a.stepID)).Nodup ∧
      ∀ c ∈ w.tables.compactions, ∃ a ∈ w.tables.executions.activities,
        a.id = c.id ∧ a.state = .completed) .new actions := by
  have hrun : Always (step cfg) (fun w => Recorded w.tables ∧ ∃ history,
      ReflTransGen Executions.Change ⟨[], []⟩ ⟨w.tables.executions.activities, history⟩)
      .new actions := by
    refine .of_step (fun w a w' hw h => ?_) ⟨recorded_empty, [], .refl⟩
    obtain ⟨hs, history, hled⟩ := hw
    obtain ⟨_, hk⟩ := hs.kept
    obtain ⟨history', hch⟩ := activities_act hk.ids (step_eq_some h).2 history
    exact ⟨recorded_step hs h, history', hled.trans hch⟩
  refine hrun.mono fun w hw => ?_
  obtain ⟨hs, hled⟩ := hw
  obtain ⟨_, hk⟩ := hs.kept
  exact ⟨hled, hk.steps, hs.completed⟩

end Peen.Sessions
