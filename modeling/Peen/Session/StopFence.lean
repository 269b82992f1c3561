import Peen.Session.TurnFencing

/-!
# The stop of a session as a fence

A stop advances the stop revision and pauses every execution of the session.
-/

namespace Peen.Sessions

open List Tables Executions Execution Lts
open Executions (Execution RowChanges Descends)
open Entry RowUpdates

/-! ## Turns and what callers are told -/

/-- What a call does to the revision, to the turns and to the history. A turn gets the session's
revision when it is admitted, and when it is restored for its root. -/
structure TurnsStep (a : Action) (w w' : World) : Prop where
  stopRevision : w'.tables.stopRevision = w.tables.stopRevision + a.stops
  turns : ∀ t' ∈ w'.tables.turns,
    (∃ t ∈ w.tables.turns, t.id = t'.id ∧ t.stopRevision = t'.stopRevision) ∨
      t'.stopRevision = w.tables.stopRevision ∧ ((∀ t ∈ w.tables.turns, t.id ≠ t'.id) ∨
        ∃ e ∈ w.rows, e.kind = .root ∧ e.rootTurnID = t'.id)
  told : ∃ told, w'.history = told ++ w.history ∧ ∀ entry ∈ told, a.Tells entry ∨
    entry.lease?.isSome ∨ ∃ turnID, entry = .admitted turnID ∧ ∃ t ∈ w'.tables.turns, t.id = turnID

variable {executionID : UUID}

section Turns
variable {cfg : Config} {w w' : World} {a : Action}

variable {s s' : Tables}

theorem Tables.of_admissions (h : s'.admissions = s.admissions) (ht' : t' ∈ s'.turns) :
    ∃ t ∈ s.turns, t.id = t'.id ∧ t.stopRevision = t'.stopRevision := by
  have hmem : (t'.id, t'.stopRevision) ∈ s.admissions := h ▸ mem_map_of_mem ht'
  obtain ⟨t, ht, heq⟩ := mem_map.1 hmem
  exact ⟨t, ht, congrArg Prod.fst heq, congrArg Prod.snd heq⟩

theorem Frame.turnsStep (h : Frame a w w') : TurnsStep a w w' := by
  obtain ⟨told, htold, htel⟩ := h.told
  exact ⟨h.stopRevision, fun t' ht' => .inl (of_admissions h.admissions ht'),
    told, htold, fun entry hent => .inl (htel entry hent)⟩

theorem Tables.turns_admitTurn (h : admitTurn cfg s turnID input newID = .ok s')
    (ht' : t' ∈ s'.turns) :
    (∃ t ∈ s.turns, t.id = t'.id ∧ t.stopRevision = t'.stopRevision) ∨
      t'.stopRevision = s.stopRevision ∧ ∀ t ∈ s.turns, t.id ≠ t'.id := by
  obtain ⟨_, hfr, hwr⟩ := admitTurn_ok h
  obtain ⟨t, ht, hid, hrev⟩ := of_admissions hwr.admissions ht'
  rcases mem_snoc.1 ht with ht | ht
  · exact .inl ⟨t, ht, hid, hrev⟩
  · cases ht
    exact .inr ⟨hrev.symm, fun t ht => hid ▸ hfr t ht⟩

theorem Tables.admitTurn_there (h : admitTurn cfg s turnID input newID = .ok s') :
    ∃ t ∈ s'.turns, t.id = turnID :=
  turn_of_admissions (admitTurn_ok h).2.2.admissions ⟨_, mem_concat_self, rfl⟩

theorem Restored.turns
    (h : Restored cfg w.tables w.active executionID input newLeaseID execution turn lease s') :
    s'.stopRevision = w.tables.stopRevision ∧ ∀ t' ∈ s'.turns,
      (∃ t ∈ w.tables.turns, t.id = t'.id ∧ t.stopRevision = t'.stopRevision) ∨
        t'.stopRevision = w.tables.stopRevision ∧
          ∃ e ∈ w.rows, e.kind = .root ∧ e.rootTurnID = t'.id := by
  rcases h.written with ⟨rfl, _⟩ | ⟨leases, e, executions, _, _, rfl⟩
  · exact ⟨rfl, fun t' ht' => .inl ⟨t', ht', rfl, rfl⟩⟩
  obtain ⟨t, hwr, hts, heq⟩ := restoreRootTurnRow_eq cfg
    { w.tables with turnLeases := leases, executions := executions } turn input.workerGenerationID
  rw [heq]
  refine ⟨hwr.others.stopRevision, fun t' ht' => ?_⟩
  obtain ⟨o, ho, rfl⟩ := mem_map.1 ht'
  rw [hts] at ho
  split
  next hid =>
    refine .inr ⟨rfl, execution, Store.mem_of_findExecution h.found, h.restorable.1, ?_⟩
    exact (mem_of_turn? h.rootTurn.1).2.symm.trans (beq_iff_eq.1 hid).symm
  · exact .inl ⟨o, ho, rfl, rfl⟩

/-- **What every call does to the turns.** -/
theorem act_turnsStep (hpr : w.presents a = true) (h : act cfg w a = .ok w') :
    TurnsStep a w w' := by
  cases hmv : a.movesHolder with
  | false => exact (act_frame hpr h hmv).turnsStep
  | true =>
    cases a with
    | reserveTurn =>
      obtain ⟨_, h⟩ := of_check h
      cases h
      exact ⟨rfl, fun t' ht' => .inl ⟨t', ht', rfl, rfl⟩, [], rfl, by simp⟩
    | abandonTurn lease =>
      cases h
      exact ⟨rfl, fun t' ht' => .inl ⟨t', ht', rfl, rfl⟩, [], rfl, by simp⟩
    | admitTurn lease input newID =>
      obtain ⟨s, hs, h⟩ := of_bind h
      cases h
      refine ⟨(admitTurn_ok hs).2.2.others.stopRevision, fun t' ht' => ?_, _, rfl, ?_⟩
      · exact (turns_admitTurn hs ht').imp_right fun h => ⟨h.1, .inl h.2⟩
      · intro entry hent
        rcases mem_cons.1 hent with rfl | hent
        · exact .inr (.inl rfl)
        · exact .inr (.inr ⟨lease.turnID, mem_singleton.1 hent, admitTurn_there hs⟩)
    | restoreExecutionTurn executionID input newLeaseID =>
      obtain ⟨⟨lease, s⟩, hs, h⟩ := of_bind h
      cases h
      obtain ⟨execution, turn, hs⟩ := restoreExecutionTurn_ok hs
      obtain ⟨hrev, hts⟩ := hs.turns
      refine ⟨hrev, fun t' ht' => (hts t' ht').imp_right fun h => ⟨h.1, .inr h.2⟩,
        [.restored executionID lease], rfl, fun entry hent => .inr (.inl ?_)⟩
      rw [mem_singleton.1 hent]
      rfl
    | acquireDeferred =>
      obtain ⟨⟨lease, s⟩, hs, h⟩ := of_bind h
      cases h
      obtain ⟨hls, message, hs⟩ := acquireDeferredExecutionTurn_ok hs
      refine ⟨?_, ?_, _, rfl, ?_⟩
      · rcases hs.written with ⟨_, _, _, rfl⟩ | ⟨_, hadm⟩
        · rfl
        · exact (admitTurn_ok hadm).2.2.others.stopRevision
      · intro t' ht'
        rcases hs.written with ⟨turn, _, _, rfl⟩ | ⟨_, hadm⟩
        · obtain ⟨o, ho, rfl⟩ := mem_map.1 ht'
          refine .inl ⟨o, ho, ?_⟩
          split <;> exact ⟨rfl, rfl⟩
        · exact (turns_admitTurn hadm ht').imp_right fun h => ⟨h.1, .inl h.2⟩
      · intro entry hent
        rcases mem_cons.1 hent with rfl | hent
        · exact .inr (.inl rfl)
        · unfold admittedEntries at hent
          split at hent
          · refine .inr (.inr ⟨lease.turnID, mem_singleton.1 hent, ?_⟩)
            rw [hls, deferredLease_turnID]
            exact hs.turn_there
          · cases hent
    | _ => cases hmv

section
variable {told : List Entry} (h : TurnsStep a w w') (htold : w'.history = told ++ w.history)
include h htold

theorem TurnsStep.stops (hstop : stopped ∈ told) : a = .cancel := by
  obtain ⟨told', htold', htel⟩ := h.told
  cases append_cancel_right (htold.symm.trans htold')
  rcases htel _ hstop with htel | hls | ⟨_, hadm, _⟩
  · cases htel with
    | stopped stops => exact stops
  · cases hls
  · cases hadm

theorem TurnsStep.admits (hadm : admitted turnID ∈ told) :
    ∃ t ∈ w'.tables.turns, t.id = turnID := by
  obtain ⟨told', htold', htel⟩ := h.told
  cases append_cancel_right (htold.symm.trans htold')
  rcases htel _ hadm with htel | hls | ⟨_, heq, hthere⟩
  · cases htel
  · cases hls
  · cases heq
    exact hthere

theorem TurnsStep.claims (hclm : claimed executionID decision ∈ told) :
    ∃ answers generationID input, a = .claim answers executionID generationID input := by
  obtain ⟨told', htold', htel⟩ := h.told
  cases append_cancel_right (htold.symm.trans htold')
  rcases htel _ hclm with htel | hls | ⟨_, hadm, _⟩
  · cases htel with
    | claimed _ claims => exact ⟨_, _, _, claims⟩
  · cases hls
  · cases hadm

end

end Turns

/-! ## The invariant -/

/-- A turn that was admitted before a stop, as it is after what was told since: a root that is
created for it is paused, and an execution of it works only below one that was resumed. -/
structure TurnStopped (w : World) (since : List Entry) (turnID : UUID) : Prop where
  unrooted : (∀ e ∈ w.rows, e.kind = .root → e.rootTurnID ≠ turnID) →
    ∀ t ∈ w.tables.turns, t.id = turnID → t.stopRevision ≠ w.tables.stopRevision
  held : ∀ e ∈ w.rows, e.rootTurnID = turnID →
    e.held ∨ ∃ target, resumed target ∈ since ∧ Descends w.rows target e.id

/-- Every stop of the history is a fence for the turns that were admitted before it. -/
structure StopFenced (cfg : Config) (w : World) : Prop where
  rooted : Rooted w.rows
  session : ∀ e ∈ w.rows, e.sessionID = cfg.sessionID
  revisions : ∀ t ∈ w.tables.turns, t.stopRevision ≤ w.tables.stopRevision
  admitted : ∀ turnID, Entry.admitted turnID ∈ w.history → ∃ t ∈ w.tables.turns, t.id = turnID
  stopped : ∀ since before, w.history = since ++ .stopped :: before → ∀ turnID,
    Entry.admitted turnID ∈ before → TurnStopped w since turnID

theorem stopFenced_new (cfg : Config) : StopFenced cfg World.new where
  rooted := fenced_new.rooted
  session := nofun
  revisions := nofun
  admitted := nofun
  stopped := by
    intro since before h
    cases since <;> cases h

theorem split_stopped (h : told ++ history = since ++ .stopped :: before) :
    stopped ∈ told ∨ ∃ rest, since = told ++ rest ∧ history = rest ++ .stopped :: before := by
  rcases append_eq_append_iff.1 h with ⟨rest, hsince, hhist⟩ | ⟨rest, htold, hrest⟩
  · exact .inr ⟨rest, hsince, hhist⟩
  · cases rest with
    | nil => exact .inr ⟨[], by rw [htold, append_nil, append_nil], hrest.symm⟩
    | cons =>
      cases hrest
      exact .inl (htold ▸ mem_append_right _ mem_cons_self)

section Steps
variable {cfg : Config} {w w' : World} {a : Action} {told since : List Entry}

theorem ExecutionsStep.session (h : ExecutionsStep cfg a w w' told)
    (hw : ∀ e ∈ w.rows, e.sessionID = cfg.sessionID) : ∀ e ∈ w'.rows, e.sessionID = cfg.sessionID := by
  intro e' he'
  cases h with
  | changed R reached _ rows =>
    obtain ⟨e, he, hup⟩ := rows.exists_left he'
    exact (session_of_identity (identity hup)).trans (hw e he)
  | created row inherited rows =>
    obtain ⟨e, he, hup⟩ := rows.exists_left he'
    refine (session_of_identity (identity hup)).trans ?_
    rcases mem_snoc.1 he with he | he
    · exact hw e he
    · rw [he]
      exact inherited.session

theorem Created.held (h : Created cfg w.tables row) (hstop : TurnStopped w since turnID)
    (hturn : row.rootTurnID = turnID) :
    row.held ∨ ∃ target, resumed target ∈ since ∧ Descends (w.rows ++ [row]) target row.id := by
  rcases h.lineage with ⟨hroot, _⟩ | ⟨_, parent, hpar, hup, hsame, hwork, hpau⟩
  · obtain ⟨turn, hturn?, hinherits⟩ := h.turn
    obtain ⟨hmem, hid⟩ := mem_of_turn? hturn?
    refine .inl (.inl (hinherits hroot ?_))
    refine hstop.unrooted (fun e he heroot => ?_) turn hmem (hid.trans hturn)
    exact hturn ▸ h.insertable.root hroot e he heroot
  · rcases hstop.held parent hpar (hsame.trans hturn) with hheld | ⟨target, hres, hbel⟩
    · rcases hheld with hst | hend
      · exact .inl (.inl (hpau hst))
      · cases hwork.symm.trans hend
    · exact .inr ⟨target, hres, .child mem_concat_self hup (hbel.append [row])⟩

theorem ExecutionsStep.stopped (h : ExecutionsStep cfg a w w' told)
    (hstop : TurnStopped w since turnID) (he' : e' ∈ w'.rows) (hturn : e'.rootTurnID = turnID) :
    e'.held ∨ ∃ target, resumed target ∈ told ++ since ∧
      Descends w'.rows target e'.id := by
  cases h with
  | changed R reached _ rows =>
    obtain ⟨e, he, hup⟩ := rows.exists_left he'
    have hl := lineage_of_identity (identity hup)
    rw [hl.1]
    rcases hstop.held e he (hl.2.2.symm.trans hturn) with hheld | ⟨target, hres, hbel⟩
    · refine (held hup hheld).imp_right fun hrch => ?_
      obtain ⟨target, hres, hbel⟩ := reached e.id hrch
      exact ⟨target, mem_append_left _ hres, hbel.changes rows⟩
    · exact .inr ⟨target, mem_append_right _ hres, hbel.changes rows⟩
  | created row inherited rows =>
    obtain ⟨e, he, hup⟩ := rows.exists_left he'
    have hl := lineage_of_identity (identity hup)
    have hturn' : e.rootTurnID = turnID := hl.2.2.symm.trans hturn
    have hbef : e.held ∨ ∃ target, resumed target ∈ since ∧
        Descends (w.rows ++ [row]) target e.id := by
      rcases mem_snoc.1 he with he | he
      · refine (hstop.held e he hturn').imp_right fun hres => ?_
        obtain ⟨target, hres, hbel⟩ := hres
        exact ⟨target, hres, hbel.append [row]⟩
      · rw [he] at hturn' ⊢
        exact inherited.held hstop hturn'
    rw [hl.1]
    rcases hbef with hheld | ⟨target, hres, hbel⟩
    · exact .inl ((held hup hheld).resolve_right id)
    · exact .inr ⟨target, mem_append_right _ hres, hbel.changes rows⟩

theorem TurnStopped.step (h : TurnStopped w since turnID) (hrows : ExecutionsStep cfg a w w' told)
    (hts : TurnsStep a w w') (hstops : a.stops = 0)
    (hthere : ∃ t ∈ w.tables.turns, t.id = turnID) : TurnStopped w' (told ++ since) turnID := by
  refine ⟨?_, fun e' he' hturn => hrows.stopped h he' hturn⟩
  intro hnone t' ht' hid
  have hnone' : ∀ e ∈ w.rows, e.kind = .root → e.rootTurnID ≠ turnID := by
    intro e he hroot hturn
    obtain ⟨e', he', hident⟩ := hrows.kept he
    have hl := lineage_of_identity hident
    exact hnone e' he' (hl.2.1.trans hroot) (hl.2.2.trans hturn)
  rw [hts.stopRevision, hstops, Nat.add_zero]
  rcases hts.turns t' ht' with ⟨t, ht, hsame, hrev⟩ | ⟨_, hnew | ⟨e, he, hroot, hturn⟩⟩
  · rw [← hrev]
    exact h.unrooted hnone' t ht (hsame.trans hid)
  · obtain ⟨t, ht, hthere⟩ := hthere
    exact absurd (hthere.trans hid.symm) (hnew t ht)
  · exact absurd (hturn.trans hid) (hnone' e he hroot)

theorem cancel_held (hw : StopFenced cfg w) (h : act cfg w .cancel = .ok w') :
    ∀ e ∈ w'.rows, e.held := by
  intro e he
  have hse : e.sessionID = cfg.sessionID := by
    obtain ⟨told, _, hrows, _⟩ := executions_act hw.rooted.ids h
    exact hrows.session hw.session e he
  obtain ⟨s, hs, h⟩ := of_bind h
  cases h
  obtain ⟨changed, executions, hpau, rfl⟩ := cancel_ok hs
  have hrows : World.rows (w.commit (requestCancel { w.tables with
      stopRevision := w.tables.stopRevision + 1, executions := executions } w.active) [.stopped]) =
      executions.executions :=
    congrArg _ (writes_requestCancel _ w.active).others.executions
  rw [hrows] at he
  exact (rows_pauseSession hw.rooted.ids hpau).2 e he hse

theorem cancel_stopped (hw : StopFenced cfg w) (h : act cfg w .cancel = .ok w')
    (hts : TurnsStep .cancel w w') (since : List Entry) (turnID : UUID) :
    TurnStopped w' since turnID := by
  refine ⟨?_, fun e he _ => .inl (cancel_held hw h e he)⟩
  intro _ t' ht' _ hsame
  have hle : t'.stopRevision ≤ w.tables.stopRevision := by
    rcases hts.turns t' ht' with ⟨t, ht, _, hrev⟩ | ⟨hrev, _⟩
    · exact hrev ▸ hw.revisions t ht
    · exact Nat.le_of_eq hrev
  have hadv : w'.tables.stopRevision = w.tables.stopRevision + 1 := hts.stopRevision
  omega

/-- **Every call keeps the fences.** -/
theorem act_stopFenced (hw : StopFenced cfg w) (hpr : w.presents a = true)
    (h : act cfg w a = .ok w') : StopFenced cfg w' := by
  obtain ⟨told, htold, hrows, _⟩ := executions_act hw.rooted.ids h
  have hts := act_turnsStep hpr h
  have hadm : ∀ turnID, Entry.admitted turnID ∈ w'.history →
      ∃ t ∈ w'.tables.turns, t.id = turnID := by
    intro turnID hmem
    rw [htold] at hmem
    rcases mem_append.1 hmem with hmem | hmem
    · exact hts.admits htold hmem
    · exact act_turn_kept h (hw.admitted turnID hmem)
  refine ⟨hrows.rooted hw.rooted, hrows.session hw.session, ?_, hadm, ?_⟩
  · intro t' ht'
    rw [hts.stopRevision]
    rcases hts.turns t' ht' with ⟨t, ht, _, hrev⟩ | ⟨hrev, _⟩
    · exact Nat.le_add_right_of_le (hrev ▸ hw.revisions t ht)
    · exact Nat.le_add_right_of_le (Nat.le_of_eq hrev)
  · intro since before hspl turnID hmem
    by_cases hcancel : a = .cancel
    · subst hcancel
      exact cancel_stopped hw h hts since turnID
    · rcases split_stopped (htold.symm.trans hspl) with hnow | ⟨rest, rfl, hbef⟩
      · exact absurd (hts.stops htold hnow) hcancel
      have hstops : a.stops = 0 := by cases a <;> first | rfl | exact absurd rfl hcancel
      have hpast : Entry.admitted turnID ∈ w.history :=
        hbef ▸ mem_append_right _ (mem_cons_of_mem _ hmem)
      exact (hw.stopped rest before hbef turnID hmem).step hrows hts hstops
        (hw.admitted turnID hpast)

variable {actions : List Action}

theorem exec_stopFenced (hw : StopFenced cfg w) (h : exec (step cfg) w actions = some w') :
    StopFenced cfg w' := by
  refine Always.last (Always.of_step (I := StopFenced cfg) ?_ hw) h
  intro w a w' hw h
  obtain ⟨hpr, h⟩ := step_eq_some h
  exact act_stopFenced hw hpr h

theorem exec_stopRevision (h : exec (step cfg) w actions = some w') :
    w'.tables.stopRevision = w.tables.stopRevision + (actions.map Action.stops).sum := by
  induction actions generalizing w with
  | nil =>
    cases h
    rfl
  | cons a actions ih =>
    obtain ⟨u, hu, h⟩ := Option.bind_eq_some_iff.1 h
    obtain ⟨hpr, hu⟩ := step_eq_some hu
    rw [ih h, (act_turnsStep hpr hu).stopRevision, map_cons, sum_cons, Nat.add_assoc]

theorem stops_of_mem (h : Action.cancel ∈ actions) : 1 ≤ (actions.map Action.stops).sum := by
  induction actions with
  | nil => cases h
  | cons a actions ih =>
    rcases mem_cons.1 h with rfl | h
    · exact Nat.le_add_right 1 _
    · exact Nat.le_add_left_of_le (ih h)

end Steps

/-! ## The fence -/

/-- The revisions an admission expects the session to have: that of the request, and for a deferred
input that of its row as well. A message that was accepted before is not admitted again. -/
def World.expected (w : World) : Action → List Int
  | .admitTurn _ input _ => input.expectedStopRevision.toList
  | .acquireDeferred _ inboxID input _ _ => input.expectedStopRevision.toList ++
    ((w.tables.inbox.find? (·.id == inboxID)).map fun row => (row.stopRevision : Int)).toList
  | .acceptMessage _ _ _ input _ _ =>
    if (w.tables.inboxRequest? input.requestID).isSome then []
    else input.expectedStopRevision.toList
  | _ => []

section Fence
variable {cfg : Config} {w w' : World} {a : Action}

theorem validateStopRevision_ok {requested : Option Int} {expected : Int} {current : Nat}
    (h : validateStopRevision requested current = .ok u) (hexp : expected ∈ requested.toList) :
    expected = current := by
  obtain rfl := Option.mem_toList.1 hexp
  obtain ⟨_, h⟩ := of_check h
  obtain ⟨hsame, h⟩ := of_check h
  exact Decidable.not_not.1 hsame

theorem act_expected {expected : Int} (h : act cfg w a = .ok w')
    (hexp : expected ∈ w.expected a) : expected = w.tables.stopRevision := by
  cases a with
  | admitTurn =>
    obtain ⟨s, hs, _⟩ := of_bind h
    exact validateStopRevision_ok (admitTurn_ok hs).1 hexp
  | acquireDeferred =>
    obtain ⟨⟨lease, s⟩, hs, _⟩ := of_bind h
    obtain ⟨_, message, hs⟩ := acquireDeferredExecutionTurn_ok hs
    rcases mem_append.1 hexp with hexp | hexp
    · exact validateStopRevision_ok hs.admissible.1 hexp
    · rw [hs.found] at hexp
      rw [mem_singleton.1 hexp]
      exact congrArg Int.ofNat hs.admissible.2
  | acceptMessage boundary executionID lease input deferred newID =>
    obtain ⟨⟨row, s⟩, hs, _⟩ := of_bind h
    obtain ⟨execution, _, ⟨hrow, _, _⟩ | ⟨hnone, hs⟩⟩ :=
      acceptExecutionInbox_ok (acceptanceState_cases deferred) hs
    · rw [World.expected, hrow] at hexp
      cases hexp
    · rw [World.expected, hnone] at hexp
      exact validateStopRevision_ok hs.revision hexp
  | _ => cases hexp

/-- **No activity of a stopped turn is executed before a resume.** -/
theorem StopFenced.claimed (hw : StopFenced cfg w) (hpr : w.presents a = true)
    (h : act cfg w a = .ok w') (htold : w'.history = told ++ w.history)
    (hclm : Entry.claimed executionID .execute ∈ told) :
    ∃ e ∈ w.rows, e.id = executionID ∧ ∀ since before, w.history = since ++ .stopped :: before →
      Entry.admitted e.rootTurnID ∈ before →
      ∃ target, resumed target ∈ since ∧ Descends w.rows target executionID := by
  obtain ⟨answers, generationID, input, rfl⟩ := (act_turnsStep hpr h).claims htold hclm
  obtain ⟨⟨claim, executions⟩, hs, h⟩ := of_bind h
  cases h
  cases append_cancel_right (htold : [_] ++ w.history = told ++ w.history)
  have hdec : claim.decision = .execute :=
    (Entry.claimed.inj (mem_singleton.1 hclm)).2.symm
  obtain ⟨_, e, he, rfl, hworks⟩ :=
    Store.rows_beginExecutionActivity (R := fun _ _ => False) hw.rooted.ids hs
  refine ⟨e, he, rfl, fun since before hspl hadm => ?_⟩
  exact ((hw.stopped since before hspl _ hadm).held e he rfl).resolve_left (hworks hdec)

end Fence

/-- **A stopped turn rests.** In every run of the calls of `Action` an execution of a turn that was
admitted before a stop is paused or has ended, unless it or one above it was resumed since; and no turn
is ahead of the session's stop revision. `ResumeExecutionFromActivity`, whose deferred form opens a
stopped turn again, is none of the calls. -/
theorem stopped_turns_rest (cfg : Config) (actions : List Action) :
    Always (step cfg) (fun w =>
      (∀ since before, w.history = since ++ .stopped :: before →
        ∀ e ∈ w.rows, Entry.admitted e.rootTurnID ∈ before →
          e.held ∨ ∃ target, resumed target ∈ since ∧ Descends w.rows target e.id) ∧
      ∀ t ∈ w.tables.turns, t.stopRevision ≤ w.tables.stopRevision) .new actions := by
  refine .of_exec fun as w h => ?_
  have hw := exec_stopFenced (stopFenced_new cfg) h
  refine ⟨fun since before hspl e he hadm => ?_, hw.revisions⟩
  exact (hw.stopped since before hspl _ hadm).held e he rfl

/-- **The stop of a session is a fence.** In every run each stop advances the stop revision by one and
nothing else changes it. A turn, a message for a root or a deferred input that expects a revision, or
whose row has one, is admitted only while the session has it, so not after a stop that comes after the
revision was read.
Where an activity gets the decision to execute and the turn of its execution was admitted before a
stop, the execution or one above it was resumed since that stop. -/
theorem stop_fences {cfg : Config} {actions : List Action} {w : World}
    (hw : exec (step cfg) World.new actions = some w) :
    (∀ later u, exec (step cfg) w later = some u →
      u.tables.stopRevision = w.tables.stopRevision + (later.map Action.stops).sum) ∧
    (∀ a w' expected, step cfg w a = some w' → expected ∈ w.expected a →
      expected = w.tables.stopRevision) ∧
    (∀ later u a u', exec (step cfg) w later = some u → Action.cancel ∈ later →
      step cfg u a = some u' → (w.tables.stopRevision : Int) ∉ u.expected a) ∧
    ∀ a w', step cfg w a = some w' → ∃ told, w'.history = told ++ w.history ∧
      ∀ executionID, Entry.claimed executionID .execute ∈ told →
        ∃ e ∈ w.rows, e.id = executionID ∧ ∀ since before,
          w.history = since ++ .stopped :: before → Entry.admitted e.rootTurnID ∈ before →
          ∃ target, resumed target ∈ since ∧ Descends w.rows target executionID := by
  have hfenced := exec_stopFenced (stopFenced_new cfg) hw
  refine ⟨fun later u hu => exec_stopRevision hu, ?_, ?_, ?_⟩
  · intro a w' expected hstep hexpected
    exact act_expected (step_eq_some hstep).2 hexpected
  · intro later u a u' hu hcancel hstep hexpected
    have hsame := act_expected (step_eq_some hstep).2 hexpected
    have hrevision := exec_stopRevision hu
    have hpos := stops_of_mem hcancel
    omega
  · intro a w' hstep
    obtain ⟨hpresents, h⟩ := step_eq_some hstep
    obtain ⟨told, htold, _⟩ := executions_act hfenced.rooted.ids h
    exact ⟨told, htold, fun executionID hclaimed => hfenced.claimed hpresents h htold hclaimed⟩

/-- A turn is admitted, the session is stopped, and a root is created for the turn, which is paused;
then it is resumed. -/
def stoppedBeforeRoot : List Action :=
  [.reserveTurn 100 50, .admitTurn ⟨50, 100⟩ (plainTurn 3 "hello") (1000 + ·), .cancel,
    .createExecution agreedCreation (plainRoot 10 100 "task"), .resume 10]

def modelClaim : Action :=
  .claim ⟨40, .ok ()⟩ 10 7 (plainActivity "model" .model emptyActivityJSON)

theorem stop_fences_resumed_root : ∃ w w',
    exec (step plainConfig) World.new stoppedBeforeRoot = some w ∧
    step plainConfig w modelClaim = some w' ∧
    w'.history = [.claimed 10 .execute, .resumed 10, .stopped, .acquired ⟨50, 100⟩, .admitted 100] ∧
    ∃ target, resumed target ∈ [resumed 10] ∧ Descends w.rows target 10 := by
  have hrun : (exec (step plainConfig) World.new stoppedBeforeRoot).map
      (fun w => (w.history, (step plainConfig w modelClaim).map (·.history),
        w.rows.map fun e => (e.id, e.rootTurnID))) =
      some ([.resumed 10, .stopped, .acquired ⟨50, 100⟩, .admitted 100],
        some [.claimed 10 .execute, .resumed 10, .stopped, .acquired ⟨50, 100⟩, .admitted 100],
        [(10, 100)]) := by decide +kernel
  obtain ⟨w, hw, hfacts⟩ := Option.map_eq_some_iff.1 hrun
  simp only [Prod.mk.injEq] at hfacts
  obtain ⟨hhistory, hstep, hrows⟩ := hfacts
  obtain ⟨w', hw', hhistory'⟩ := Option.map_eq_some_iff.1 hstep
  refine ⟨w, w', hw, hw', hhistory', ?_⟩
  obtain ⟨told, htold, hclaimed⟩ := (stop_fences hw).2.2.2 modelClaim w' hw'
  have hsame : [claimed 10 .execute] ++ w.history = told ++ w.history := by
    rw [← htold, hhistory, hhistory']
    rfl
  cases append_cancel_right hsame
  obtain ⟨e, he, hid, hfence⟩ := hclaimed 10 (mem_singleton_self _)
  have hturn : e.rootTurnID = 100 := by
    have hmem : (e.id, e.rootTurnID) ∈ w.rows.map fun e => (e.id, e.rootTurnID) :=
      mem_map_of_mem he
    rw [hrows] at hmem
    exact (Prod.mk.inj (mem_singleton.1 hmem)).2
  refine hfence [.resumed 10] [.acquired ⟨50, 100⟩, .admitted 100] hhistory ?_
  rw [hturn]
  exact mem_cons_of_mem _ (mem_singleton_self _)

end Peen.Sessions
