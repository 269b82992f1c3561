import Peen.Session.ExecutionRows
import Peen.Session.CompactionRecords

/-!
# Steps of a session, beside the transcript

What a call does to the rows of executions (`executions_act`), and what it leaves alone of the stop
revision, the stored holders, the admissions of turns and the leases the process has given out
(`act_frame`).
-/

namespace Peen.Sessions

open Executions List

abbrev World.rows (w : World) : List Execution := w.tables.executions.executions

/-! ## Created executions -/

/-- An execution that a creation may insert: a root inherits the session's stop from its turn, a
child the pause of its parent. -/
structure Created (cfg : Config) (s : Tables) (created : Execution) : Prop where
  insertable : Insertable s created
  session : created.sessionID = cfg.sessionID
  turn : ∃ turn, s.turn? created.rootTurnID = some turn ∧
    (created.kind = .root → turn.stopRevision ≠ s.stopRevision → created.state = .paused)
  opened : created.state = .queued ∨ created.state = .paused
  lineage : (created.kind = .root ∧ created.parentExecutionID = none) ∨
    (created.kind = .child ∧ ∃ parent ∈ s.executions.executions,
      created.parentExecutionID = some parent.id ∧ parent.rootTurnID = created.rootTurnID ∧
      isExecutionTerminal parent.state = false ∧
      (parent.state = .paused → created.state = .paused))

variable {answers : CreationAnswers} {input : AcceptExecutionMessageInput} {execution : Execution}
  {newID : UUID} {row : ExecutionInboxMessage}

section Creation
variable {cfg : Config} {s : Tables}

namespace Tables

theorem executionRecord_ok {input : CreateExecutionInput} {created : Execution}
    (h : executionRecord cfg s answers input = .ok created)
    (hins : Insertable s created) : Created cfg s created ∧ created.eventCount = 0 := by
  unfold executionRecord at h
  split at h
  · cases h
  rename_i turn hturn
  split at h
  next hroot =>
    cases h
    unfold inheritSessionStop at hins ⊢
    split
    next hstop =>
      rw [if_pos hstop] at hins
      exact ⟨⟨hins, rfl, ⟨turn, hturn, fun _ _ => rfl⟩, .inr rfl, .inl ⟨rfl, hroot⟩⟩, rfl⟩
    next hstop =>
      rw [if_neg hstop] at hins
      refine ⟨⟨hins, rfl, ⟨turn, hturn, fun _ hrev => ?_⟩, .inl rfl, .inl ⟨rfl, hroot⟩⟩, rfl⟩
      exact absurd (.inl hrev) hstop
  next parentID hparentID =>
    obtain ⟨parent, hpar, h⟩ := of_bind h
    obtain ⟨hlineage, h⟩ := of_check h
    obtain ⟨hturnID, hend⟩ := not_or.1 hlineage
    obtain ⟨_, _, h⟩ := of_bind h
    have hmem := Store.mem_of_findExecution hpar
    have hid := (Store.of_findExecution hpar).2
    have hup : (queuedExecution cfg input).parentExecutionID = some parent.id :=
      hparentID.trans (congrArg some hid.symm)
    split at h
    · cases h
      exact ⟨⟨hins, rfl, ⟨turn, hturn, nofun⟩, .inr rfl, .inr ⟨rfl, parent, hmem, hup,
        not_not.1 hturnID, Bool.eq_false_iff.2 hend, fun _ => rfl⟩⟩, rfl⟩
    next hwork =>
      cases h
      exact ⟨⟨hins, rfl, ⟨turn, hturn, nofun⟩, .inl rfl, .inr ⟨rfl, parent, hmem, hup,
        not_not.1 hturnID, Bool.eq_false_iff.2 hend, fun hpau => absurd hpau hwork⟩⟩, rfl⟩

theorem rows_bindDeferred (hids : (s.executions.executions.map (·.id)).Nodup)
    (h : bindDeferredExecution cfg s answers target inboxID = .ok s') :
    StoreChanges R s.executions s'.executions ∧
      (s.executions.Counts target → s'.executions.Counts target) := by
  rcases bindDeferredExecution_ok h with rfl |
    ⟨message, source, e, executions, _, ⟨_, htgt⟩, hsrc, he, rfl⟩
  · exact ⟨.refl R _, id⟩
  · obtain ⟨hse, hid⟩ := Store.of_findExecution hsrc
    obtain ⟨hch, _, hothers⟩ := Store.changes_appendExecutionEvent (R := R)
      (Store.counts_of_mem hids (Store.mem_of_findExecution hsrc)) he
    exact ⟨hch, hothers target (hid ▸ htgt)⟩

theorem rows_recordCreation (hcs : s.executions.Counts created)
    (h : s.recordExecutionCreation created = .ok s') :
    StoreChanges R s.executions s'.executions := by
  obtain ⟨e, executions, he, h⟩ := recordExecutionCreation_ok h
  obtain ⟨hch, hcs, _⟩ := Store.changes_appendExecutionEvent (R := R) hcs he
  rcases h with rfl | ⟨e', executions', he', rfl⟩
  · exact hch
  · exact hch.trans (Store.changes_appendExecutionEvent hcs he').1

theorem rows_createExecution {input : CreateExecutionInput}
    (hids : (s.executions.executions.map (·.id)).Nodup)
    (h : createExecution cfg s answers input = .ok s') :
    StoreChanges R s.executions s'.executions ∨
      ∃ created, Created cfg s created ∧
        RowChanges R (s.executions.executions ++ [created]) s'.executions.executions ∧
        (s.executions.Recorded → s'.executions.Recorded) := by
  rcases createExecution_ok h with ⟨existing, _, h⟩ | ⟨created, t, u, hrecord, ht, hu, h⟩
  · exact .inl (rows_bindDeferred hids h).1
  · obtain ⟨hins, rfl⟩ := insertExecution_ok ht
    obtain ⟨hcr, hct⟩ := executionRecord_ok hrecord hins
    have hids : ((s.executions.executions ++ [created]).map (·.id)).Nodup := by
      exact nodup_snoc hids hins.id
    obtain ⟨hbd, hcs⟩ := rows_bindDeferred (R := R) hids hu
    have hch := hbd.trans (rows_recordCreation (hcs (Store.counts_insert hins.id)) h)
    exact .inr ⟨created, hcr, hch.rows,
      fun hs => hch.recorded (hs.insert hins.id hct)⟩

end Tables

theorem InsertedChildRow.rows (hcs : s.executions.Counts execution)
    (h : InsertedChildRow s execution input newID row s') :
    StoreChanges R s.executions s'.executions ∧
      s'.executions.Counts { execution with eventCount := execution.eventCount + 1 } := by
  obtain ⟨_, _, e, executions, he, rfl⟩ := h
  obtain ⟨hch, hcs, _⟩ := Store.changes_appendExecutionEvent (R := R) hcs he
  obtain ⟨rfl, _⟩ := Store.appendExecutionEvent_ok he
  exact ⟨hch, hcs⟩

theorem ResumedChild.rows (hids : (s.executions.executions.map (·.id)).Nodup)
    (h : ResumedChild cfg s execution input noticeID newID row s') :
    StoreChanges (Leave.below s.executions.executions execution.id) s.executions s'.executions := by
  obtain ⟨changed, executions, resumed, noticed, t, hchd, hfd, ht, hrow⟩ := h
  have hres := Store.rows_changeExecutionSubtree
    (R := Leave.below s.executions.executions execution.id) hids
    (fun _ _ hid => hid) hchd
  have hcs : executions.Counts resumed := Store.counts_of_mem
    (hres.rows.ids ▸ hids) (Store.mem_of_findExecution hfd)
  rcases ht with ⟨rfl, rfl⟩ | ⟨rfl, notice, hnot⟩
  · exact hres.trans (hrow.rows hcs).1
  · obtain ⟨hnoticed, hcs⟩ := hnot.rows hcs
    exact (hres.trans hnoticed).trans (hrow.rows hcs).1

theorem Tables.rows_deliverChildInboxRows (hcs : s.executions.Counts execution)
    (h : Tables.deliverChildInboxRows run agentRunID activity execution requestIDs s = .ok s') :
    StoreChanges R s.executions s'.executions := by
  induction requestIDs generalizing s execution with
  | nil =>
    cases h
    exact .refl R _
  | cons requestID requestIDs ih =>
    obtain ⟨row, _, h⟩ := of_bind h
    obtain ⟨⟨execution', t⟩, ht, hrest⟩ := of_bind h
    rcases (Tables.deliverChildInboxRow_ok ht).2 with ⟨_, _, rfl, rfl⟩ | ⟨_, executions, he, rfl⟩
    · exact ih hcs hrest
    · obtain ⟨hch, hcs, _⟩ :=
        Store.changes_appendExecutionEvent (R := R) hcs he
      exact hch.trans (ih hcs hrest)

theorem rows_pauseSession (hids : (s.executions.executions.map (·.id)).Nodup)
    (h : Store.changeExecutions .pause executionUserStopReason (.reason executionUserStopReason)
      (s.executions.executions.filter (·.sessionID == cfg.sessionID)) s.executions =
      .ok (changed, executions)) :
    StoreChanges (fun _ _ => False) s.executions executions ∧
      ∀ row ∈ executions.executions, row.sessionID = cfg.sessionID → row.held := by
  have hsub : (s.executions.executions.filter (·.sessionID == cfg.sessionID)).Sublist
      s.executions.executions := filter_sublist
  have hres : Store.Control.pause = .resume →
      ∀ m ∈ s.executions.executions.filter (·.sessionID == cfg.sessionID), False :=
    nofun
  obtain ⟨hrows, hheld⟩ := Store.rows_changeExecutions (R := fun _ _ => False)
    (hids.sublist (hsub.map _)) (fun m hm => Store.tracks_of_mem hids (hsub.subset hm))
    (fun m hm => Store.counts_of_mem hids (hsub.subset hm)) hres h
  refine ⟨hrows, fun row hrow hse => ?_⟩
  obtain ⟨m, hm, hup⟩ := hrows.rows.exists_left hrow
  have hmember : m ∈ s.executions.executions.filter (·.sessionID == cfg.sessionID) := by
    refine mem_filter.2 ⟨hm, beq_iff_eq.2 ?_⟩
    rw [← hse]
    exact (congrArg Execution.sessionID (RowUpdates.identity hup)).symm
  exact hheld rfl (fun _ hfalse => hfalse) m hmember row hrow (RowUpdates.id hup)

end Creation

/-! ## Rows of executions -/

/-- A call that may end an execution in a state: the completion of one of its activities, which found
settled what that state asks for. -/
def Ends (cfg : Config) (a : Action) (w w' : World) (state : ExecutionState)
    (id : UUID) : Prop :=
  ∃ answers lease input newID before execution, a = .complete answers lease input newID ∧
    w.tables.executions.activityForLease cfg.sessionID lease = .ok (before, execution) ∧
    execution.id = id ∧ Executions.Settled answers w'.tables.executions execution state

/-- What a call did to the rows of executions, for what it told its caller: only a resume it reports
takes a pause away, only a completion ends a row with a result, and at most one row is new. -/
inductive ExecutionsStep (cfg : Config) (a : Action) (w w' : World) (told : List Entry) : Prop
  | changed (R : Leave → UUID → Prop)
      (reached : ∀ id, R .resume id →
        ∃ target, Entry.resumed target ∈ told ∧ Descends w.rows target id)
      (ended : ∀ state id, R (.finish state) id → Ends cfg a w w' state id)
      (rows : RowChanges R w.rows w'.rows)
  | created (row : Execution) (inherited : Created cfg w.tables row)
      (rows : RowChanges (fun _ _ => False) (w.rows ++ [row]) w'.rows)

section Steps
variable {cfg : Config} {a : Action} {w w' : World} {told : List Entry}

/-- Every row stays, updated. -/
theorem ExecutionsStep.exists_right (h : ExecutionsStep cfg a w w' told) (he : e ∈ w.rows) :
    ∃ R, ∃ e' ∈ w'.rows, Relation.ReflTransGen (RowUpdate R) e e' := by
  cases h with
  | changed R reached ended rows => exact ⟨R, rows.exists_right he⟩
  | created row inherited rows => exact ⟨_, rows.exists_right (List.mem_append_left [row] he)⟩

/-- A call moves the rows of executions on and keeps their events numbered. -/
structure ExecutionsRecord (cfg : Config) (a : Action) (w w' : World) (told : List Entry) : Prop where
  step : ExecutionsStep cfg a w w' told
  recorded : w.tables.executions.Recorded → w'.tables.executions.Recorded

theorem ExecutionsRecord.of_changes
    (h : StoreChanges (fun _ _ => False) w.tables.executions w'.tables.executions) :
    ExecutionsRecord cfg a w w' told :=
  ⟨.changed (fun _ _ => False) (fun _ hid => hid.elim) (fun _ _ hid => hid.elim) h.rows, h.recorded⟩

theorem ExecutionsRecord.of_resume (htold : Entry.resumed target ∈ told)
    (h : StoreChanges (Leave.below w.rows target) w.tables.executions w'.tables.executions) :
    ExecutionsRecord cfg a w w' told :=
  ⟨.changed _ (fun _ hid => ⟨target, htold, hid⟩) (fun _ _ hid => hid.elim) h.rows, h.recorded⟩

theorem ExecutionsRecord.of_eq (h : w'.tables.executions = w.tables.executions) :
    ExecutionsRecord cfg a w w' told :=
  .of_changes (h ▸ .refl _ _)

/-- A completion may end the execution of its activity, and no other. -/
def Completes (answers : CompletionAnswers) (executions : Store)
    (execution : Execution) : Leave → UUID → Prop
  | .resume, _ => False
  | .finish state, id => id = execution.id ∧ Executions.Settled answers executions execution state

/-- **A call moves the rows of executions on, and resumes only what it reports.** -/
theorem executions_act (hids : (w.rows.map (·.id)).Nodup) (h : act cfg w a = .ok w') :
    ∃ told, w'.history = told ++ w.history ∧ ExecutionsRecord cfg a w w' told := by
  cases act_acted h with
  | reserve | abandon | release | worker => exact ⟨[], rfl, .of_eq rfl⟩
  | admitted hs => exact ⟨_, rfl, .of_eq (Tables.admitTurn_ok hs).2.2.others.executions⟩
  | write _ hwr | recover hwr => exact ⟨[], rfl, .of_eq hwr.others.executions⟩
  | @restore _ _ _ _ _ turn _ hs =>
    rcases hs.written with ⟨rfl, _⟩ | ⟨leases, e, executions, _, he, rfl⟩
    · exact ⟨_, rfl, .of_eq rfl⟩
    · refine ⟨_, rfl, .of_changes ?_⟩
      show StoreChanges _ w.tables.executions (Tables.restoreRootTurnRow cfg _ turn _).executions
      rw [(Tables.others_restoreRootTurnRow cfg _ turn _).executions]
      exact Store.changes_append_of_mem hids (Store.mem_of_findExecution hs.found) he
  | acquire _ hs =>
    rcases hs.written with ⟨turn, _, _, rfl⟩ | ⟨_, hadm⟩
    · exact ⟨_, rfl, .of_eq rfl⟩
    · exact ⟨_, rfl, .of_eq (Tables.admitTurn_ok hadm).2.2.others.executions⟩
  | cancel hpau =>
    refine ⟨_, rfl, .of_changes ?_⟩
    show StoreChanges _ w.tables.executions (Tables.requestCancel _ _).executions
    rw [(Tables.writes_requestCancel _ w.active).others.executions]
    exact (rows_pauseSession hids hpau).1
  | deliver hs =>
    obtain ⟨messages, t, ht, hs⟩ := hs.written
    exact ⟨_, rfl, .of_eq ((Tables.writes_appendTranscript hs).others.executions.trans
      (Tables.aside_deliverInboxRows ht).2)⟩
  | @complete answers lease input newID _ s hs =>
    obtain ⟨before, execution, write, executions, hof, hs⟩ :=
      Tables.completeExecutionActivity_ok hs
    have hrows : StoreChanges (Completes answers executions execution) w.tables.executions
        executions := by
      refine Store.rows_completeExecutionActivity hids ?_ hof.completed
      intro a e hfd state hset
      obtain ⟨rfl, rfl⟩ := Prod.mk.inj (Except.ok.inj (hfd.symm.trans hof.found))
      exact ⟨rfl, hset.activities, hset.inbox⟩
    have hsame : s.executions = executions := by
      rcases hs with rfl | ⟨written, _, _, rfl⟩ <;> rfl
    rw [← hsame] at hrows
    refine ⟨[], rfl, .changed _ (fun _ hid => False.elim hid) ?_ hrows.rows, hrows.recorded⟩
    intro state id hid
    exact ⟨answers, lease, input, newID, before, execution, rfl, hof.found, hid.1.symm, hid.2⟩
  | aside call =>
    cases call with
    | create hs =>
      rcases Tables.rows_createExecution hids hs with hrows | ⟨created, hcr, hrows, hrec⟩
      · exact ⟨[], rfl, .of_changes hrows⟩
      · exact ⟨[], rfl, .created created hcr hrows, hrec⟩
    | @accept _ _ _ _ deferred _ _ _ hs =>
      obtain ⟨execution, _, ⟨_, _, rfl⟩ | ⟨_, hs⟩⟩ :=
        Tables.acceptExecutionInbox_ok (acceptanceState_cases deferred) hs
      · exact ⟨[], rfl, .of_eq rfl⟩
      · obtain rfl := hs.written
        exact ⟨[], rfl, .of_eq rfl⟩
    | acceptChild hs =>
      obtain ⟨execution, hfd, ⟨_, _, rfl⟩ | ⟨hnew, hpau, hs⟩ | ⟨_, _, hs⟩⟩ :=
        Tables.acceptChildExecutionMessage_ok hs
      · exact ⟨_, rfl, .of_eq rfl⟩
      · refine ⟨_, rfl, .of_resume ?_ (hs.rows hids)⟩
        rw [resumedEntries, hfd, (Store.of_findExecution hfd).2]
        dsimp only
        rw [if_pos ⟨hpau, hnew⟩]
        exact mem_cons_self
      · exact ⟨_, rfl, .of_changes (hs.rows (Store.counts_of_mem hids
          (Store.mem_of_findExecution hfd))).1⟩
    | queueReport hs =>
      obtain ⟨execution, row, e, executions, hfd, _, _, he, rfl⟩ := Tables.queueReport_ok hs
      exact ⟨[], rfl, .of_changes (Store.changes_append_of_mem hids
        (Store.mem_of_findExecution hfd) he)⟩
    | deliverChild hs =>
      exact ⟨_, rfl, .of_changes (Tables.rows_deliverChildInboxRows (Store.counts_of_mem
        hids (Store.mem_of_activityForLease hs.found).1) hs.written)⟩
  | executions call =>
    cases call with
    | claim hs =>
      exact ⟨_, rfl, .of_changes (Store.rows_beginExecutionActivity hids hs).1⟩
    | interrupt hs =>
      exact ⟨[], rfl, .of_changes (Store.rows_interruptExecutionActivity hids hs)⟩
    | resolve hs =>
      exact ⟨[], rfl, .of_changes (Store.rows_resolveExecutionActivity hids hs)⟩
    | pause hs => exact ⟨[], rfl, .of_changes (Store.rows_pauseExecution hids hs)⟩
    | resume hs =>
      exact ⟨_, rfl, .of_resume mem_cons_self (Store.rows_resumeExecution hids hs)⟩
    | pauseUnfinished hs =>
      exact ⟨[], rfl, .of_changes (Store.rows_pauseUnfinishedExecutions hids hs)⟩

end Steps

/-! ## What a call leaves alone -/

def Action.movesHolder : Action → Bool
  | .reserveTurn .. | .admitTurn .. | .abandonTurn _ | .restoreExecutionTurn ..
  | .acquireDeferred .. => true
  | _ => false

def Action.stops : Action → Nat
  | .cancel => 1
  | _ => 0

def Action.delivers : Action → Bool
  | .deliverMessages .. | .deliverChildMessages .. => true
  | _ => false

/-- What a call may tell beside leases. -/
inductive Action.Tells (a : Action) : Entry → Prop
  | resumed (executionID : UUID) : a.Tells (.resumed executionID)
  | delivered (requestID activityID : UUID) (delivers : a.delivers = true) :
      a.Tells (.delivered requestID activityID)
  | stopped (stops : a = .cancel) : a.Tells .stopped
  | claimed {answers : ClaimAnswers} {executionID generationID : UUID}
      {input : ScheduleActivityInput} (decision : ActivityDecision)
      (claims : a = .claim answers executionID generationID input) :
      a.Tells (.claimed executionID decision)

theorem Action.Tells.lease? {a : Action} (h : a.Tells entry) : entry.lease? = none := by
  cases h <;> rfl

/-- A call that moves no lease: what it leaves alone, and when the active lease ends. -/
structure Frame (a : Action) (w w' : World) : Prop where
  stopRevision : w'.tables.stopRevision = w.tables.stopRevision + a.stops
  turnLeases : w'.tables.turnLeases = w.tables.turnLeases
  admissions : w'.tables.admissions = w.tables.admissions
  pending : w'.pending = w.pending
  told : ∃ told, w'.history = told ++ w.history ∧ ∀ entry ∈ told, a.Tells entry
  active : w'.active = w.active ∨ w'.active = none ∧ ∀ held, w.active = some held →
    (∃ l ∈ w.issued, l.id = held.leaseID) ∨ ∃ t ∈ w.tables.turns, t.id = held.turnID

section Frames
variable {w : World} {a : Action}

/-- The stop revision, the stored holders and the admissions of turns are the same. -/
structure SameHolders (s s' : Tables) : Prop where
  stopRevision : s'.stopRevision = s.stopRevision
  turnLeases : s'.turnLeases = s.turnLeases
  admissions : s'.admissions = s.admissions

theorem SameHolders.trans {s t u : Tables} (h : SameHolders s t) (h' : SameHolders t u) :
    SameHolders s u :=
  ⟨h'.1.trans h.1, h'.2.trans h.2, h'.3.trans h.3⟩

theorem Writes.holders {s s' : Tables} (h : Writes s s') : SameHolders s s' :=
  ⟨h.others.stopRevision, h.others.turnLeases, h.admissions⟩

theorem Aside.holders {s s' : Tables} (h : Aside s s') : SameHolders s s' := by
  obtain ⟨_, _, _, rfl⟩ := h.tables
  exact ⟨rfl, rfl, rfl⟩

theorem Tables.holders_complete {s s' : Tables} {active : Option ActiveTurn}
    {outside : CompletionAnswers} {lease : ActivityLease}
    {input : CompleteActivityInput} {newID : Nat → UUID} {after : ExecutionActivity}
    (h : Tables.completeExecutionActivity cfg s active outside lease input newID
      = .ok (after, s')) : SameHolders s s' ∧ s'.inbox = s.inbox := by
  obtain ⟨before, execution, write, executions, hof, hs⟩ := Tables.completeExecutionActivity_ok h
  rcases hs with rfl | ⟨written, hwrite, _, rfl⟩
  · exact ⟨⟨rfl, rfl, rfl⟩, rfl⟩
  obtain ⟨hholders, hin⟩ : SameHolders s written ∧ written.inbox = s.inbox := by
    rcases Tables.completionWrite_ok (hof.asked.symm.trans hwrite) with rfl |
      ⟨compaction, _, _, hsv⟩ | ⟨_, _, _, _, hwr⟩
    · exact ⟨⟨rfl, rfl, rfl⟩, rfl⟩
    · obtain ⟨_, _, _, _, _, rfl⟩ := Tables.saveActivityCompaction_ok hsv
      exact ⟨⟨rfl, rfl, rfl⟩, rfl⟩
    · exact ⟨hwr.holders, hwr.others.inbox⟩
  exact ⟨hholders.trans ⟨rfl, rfl, rfl⟩, hin⟩

theorem tells_nil : ∀ entry ∈ ([] : List Entry), a.Tells entry := nofun

theorem tells_deliveredEntries (hdl : a.delivers = true) (s : Tables) (activityID : UUID)
    (requestIDs : List UUID) : ∀ entry ∈ deliveredEntries s activityID requestIDs, a.Tells entry := by
  intro entry hent
  obtain ⟨_, _, rfl⟩ := mem_map.1 hent
  exact .delivered _ _ hdl

theorem tells_resumedEntries (s : Tables) (executionID requestID : UUID) :
    ∀ entry ∈ resumedEntries cfg s executionID requestID, a.Tells entry := by
  intro entry hent
  unfold resumedEntries at hent
  split at hent
  · split at hent
    · rw [mem_singleton.1 hent]
      exact .resumed _
    · cases hent
  · cases hent

theorem Frame.of_commit {told : List Entry} {tables : Tables} (hstops : a.stops = 0)
    (hsame : SameHolders w.tables tables) (htold : ∀ entry ∈ told, a.Tells entry) :
    Frame a w (w.commit tables told) where
  stopRevision := by rw [hstops]; exact hsame.stopRevision
  turnLeases := hsame.turnLeases
  admissions := hsame.admissions
  pending := rfl
  told := ⟨told, rfl, htold⟩
  active := .inl rfl

theorem Frame.of_release {active : Option ActiveTurn} (h : Frame a w w')
    (hact : active = w.active ∨ active = none ∧ ∀ held, w.active = some held →
      (∃ l ∈ w.issued, l.id = held.leaseID) ∨ ∃ t ∈ w.tables.turns, t.id = held.turnID) :
    Frame a w { w' with active := active } :=
  ⟨h.stopRevision, h.turnLeases, h.admissions, h.pending, h.told, hact⟩

theorem frame_complete {answers : CompletionAnswers} {lease : ActivityLease}
    {input : CompleteActivityInput} {newID : Nat → UUID} {after : ExecutionActivity} {s : Tables}
    (hpr : w.presents (.complete answers lease input newID) = true)
    (hs : Tables.completeExecutionActivity cfg w.tables w.active answers lease input newID
      = .ok (after, s)) : Frame (.complete answers lease input newID) w
      { w.commit s [] with active := Tables.releaseFinishedExecutionTurn w.active after input } := by
  refine Frame.of_release (.of_commit rfl (Tables.holders_complete hs).1 tells_nil) ?_
  unfold Tables.releaseFinishedExecutionTurn
  split
  · exact .inl rfl
  rename_i finish hfin
  split
  · exact .inl rfl
  split
  next hhol =>
    refine .inr ⟨rfl, fun held hheld => .inl ?_⟩
    rw [hheld] at hhol
    obtain ⟨holder, hroot, hid⟩ := Option.map_eq_some_iff.1 hhol.symm
    have hiss : (input.finish.bind (·.rootHolder)).all
        (fun holder => w.issued.any (·.id == holder.leaseID)) = true := hpr
    rw [hfin] at hiss
    change finish.rootHolder.all _ = true at hiss
    rw [hroot] at hiss
    obtain ⟨l, hl, hlid⟩ := any_eq_true.1 hiss
    exact ⟨l, hl, (beq_iff_eq.1 hlid).trans hid⟩
  · exact .inl rfl

/-- **A call that moves no lease leaves the holders and the admissions alone.** -/
theorem act_frame (hpr : w.presents a = true) (h : act cfg w a = .ok w')
    (hhol : a.movesHolder = false) : Frame a w w' := by
  have of_same : ∀ {a : Action}, a.stops = 0 → ∀ {s : Tables}, SameHolders w.tables s →
      Frame a w (w.commit s []) := fun hstops _ hsame => .of_commit hstops hsame tells_nil
  cases act_acted h with
  | reserve | admitted | abandon | restore | acquire => cases hhol
  | write other hwr =>
    refine of_same ?_ hwr.holders
    cases a with
    | cancel => exact absurd rfl other
    | _ => rfl
  | @release lease =>
    have hiss := contains_iff_mem.1 hpr
    refine (of_same (s := w.tables) rfl ⟨rfl, rfl, rfl⟩).of_release ?_
    unfold releaseTurn
    split
    next hact =>
      refine .inr ⟨rfl, fun held hheld => .inl ⟨lease, hiss, ?_⟩⟩
      cases hact.symm.trans hheld
      rfl
    · exact .inl rfl
  | recover hwr =>
    refine (of_same rfl hwr.holders).of_release ?_
    cases hact : w.active with
    | none => exact .inl rfl
    | some held =>
      rw [Option.filter_some]
      split
      · exact .inl rfl
      next hrun =>
        refine .inr ⟨rfl, fun held' hheld' => .inr ?_⟩
        cases hheld'
        rw [Bool.not_eq_true', Bool.not_eq_false] at hrun
        obtain ⟨t, ht, htid⟩ := any_eq_true.1 hrun
        exact ⟨t, (mem_filter.1 ht).1, beq_iff_eq.1 htid⟩
  | @cancel _ executions hs =>
    have hsame := (Tables.writes_requestCancel
      { w.tables with stopRevision := w.tables.stopRevision + 1, executions := executions }
      w.active).holders
    refine ⟨hsame.stopRevision, hsame.turnLeases, hsame.admissions, rfl, ⟨_, rfl, ?_⟩, .inl rfl⟩
    intro entry hent
    rw [mem_singleton.1 hent]
    exact .stopped rfl
  | deliver hs =>
    obtain ⟨messages, t, ht, hs⟩ := hs.written
    exact .of_commit rfl ((Tables.aside_deliverInboxRows ht).1.holders.trans
      (Tables.writes_appendTranscript hs).holders) (tells_deliveredEntries rfl _ _ _)
  | complete hs => exact frame_complete hpr hs
  | aside call haside =>
    cases call with
    | create | accept | queueReport => exact of_same rfl haside.holders
    | acceptChild => exact .of_commit rfl haside.holders (tells_resumedEntries _ _ _)
    | deliverChild => exact .of_commit rfl haside.holders (tells_deliveredEntries rfl _ _ _)
  | executions call =>
    refine .of_commit ?_ ⟨rfl, rfl, rfl⟩ ?_
    · cases call <;> rfl
    intro entry hent
    cases call with
    | claim =>
      rw [mem_singleton.1 hent]
      exact .claimed _ rfl
    | resume =>
      rw [mem_singleton.1 hent]
      exact .resumed _
    | _ => cases hent
  | worker => exact of_same rfl ⟨rfl, rfl, rfl⟩

end Frames

end Peen.Sessions
