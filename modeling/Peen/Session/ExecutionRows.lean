import Peen.Lib.Pointwise
import Peen.Session.ActivityRuns

/-!
# The rows of executions

What the transactions of the execution store do to the executions' rows, row by row.
-/

namespace Peen.Executions

open Store List
open Relation (ReflTransGen)

/-! ## Updates of a row -/

/-- The row works or waits for work: a pause applies to it. -/
def Execution.pausable (e : Execution) : Prop :=
  e.state ≠ .paused ∧ isExecutionTerminal e.state = false

/-- The row does no work: it is paused, or it has ended. -/
def Execution.held (e : Execution) : Prop :=
  e.state = .paused ∨ isExecutionTerminal e.state = true

def Execution.identity (e : Execution) : Execution :=
  { e with state := .queued, workingDirectory := "", contextJSON := "", failureDetail := "",
           pauseReason := "", eventCount := 0, controlRevision := 0 }

section
variable {e e' : Execution} (h : e'.identity = e.identity)
include h

theorem Execution.id_of_identity : e'.id = e.id := by
  have hid : e'.identity.id = e.identity.id := by rw [h]
  exact hid

theorem Execution.lineage_of_identity :
    e'.id = e.id ∧ e'.kind = e.kind ∧ e'.rootTurnID = e.rootTurnID := by
  have hkind : e'.identity.kind = e.identity.kind := by rw [h]
  have hturn : e'.identity.rootTurnID = e.identity.rootTurnID := by rw [h]
  exact ⟨id_of_identity h, hkind, hturn⟩

theorem Execution.session_of_identity : e'.sessionID = e.sessionID := by
  have hse : e'.identity.sessionID = e.identity.sessionID := by rw [h]
  exact hse

theorem Execution.parent_of_identity : e'.parentExecutionID = e.parentExecutionID := by
  have hpar : e'.identity.parentExecutionID = e.identity.parentExecutionID := by rw [h]
  exact hpar

end

/-- What a call does to a row only with leave: take its pause away, or end it with a result. -/
inductive Leave where
  | resume
  | finish (state : ExecutionState)

/-- One update of a row. `leave` says which rows may be resumed, and which may end how. -/
inductive RowUpdate (leave : Leave → UUID → Prop) (e : Execution) : Execution → Prop
  | counted (count : Nat) : RowUpdate leave e { e with eventCount := count }
  | paused (reason : String) (working : e.pausable) :
      RowUpdate leave e
        { e with controlRevision := e.controlRevision + 1, state := .paused, pauseReason := reason }
  | resumed (state : ExecutionState) (waiting : e.state = .paused) (reached : leave .resume e.id)
      (working : state = .running ∨ state = .queued) :
      RowUpdate leave e { e with controlRevision := e.controlRevision + 1, state := state }
  | reconciling (working : e.pausable) : RowUpdate leave e { e with state := .reconciling }
  | running (working : e.state = .queued ∨ e.state = .reconciling) :
      RowUpdate leave e { e with state := .running }
  | finished (state : ExecutionState) (context directory detail : String) (working : e.pausable)
      (reached : leave (.finish state) e.id) (terminal : state = .completed ∨ state = .failed) :
      RowUpdate leave e
        { e with state := state, contextJSON := context, workingDirectory := directory,
                 failureDetail := detail }
  | cancelled (unended : isExecutionTerminal e.state = false) :
      RowUpdate leave e
        { e with state := .cancelled, controlRevision := e.controlRevision + 1 }

section Updates
variable {R' : Leave → UUID → Prop} {e : Execution}

theorem RowUpdate.identity (h : RowUpdate R e e') : e'.identity = e.identity := by
  cases h <;> rfl

theorem RowUpdate.held (h : RowUpdate R e e') (hheld : e.held) : e'.held ∨ R .resume e.id := by
  cases h with
  | counted count => exact .inl hheld
  | paused => exact .inl (.inl rfl)
  | resumed state waiting reached working => exact .inr reached
  | reconciling working =>
    rcases hheld with hpau | hend
    · exact absurd hpau working.1
    · rw [working.2] at hend; cases hend
  | running working =>
    rcases hheld with hpau | hend
    · rcases working with hw | hw <;> rw [hw] at hpau <;> cases hpau
    · rcases working with hw | hw <;> rw [hw] at hend <;> cases hend
  | finished state context directory detail working reached terminal =>
    rcases terminal with rfl | rfl
    · exact .inl (.inr rfl)
    · exact .inl (.inr rfl)
  | cancelled => exact .inl (.inr rfl)

def Execution.result (e : Execution) : ExecutionState × String × String × String :=
  (e.state, e.failureDetail, e.contextJSON, e.workingDirectory)

/-- **An ended row keeps its result.** -/
theorem RowUpdate.ended (h : RowUpdate R e e') (hend : isExecutionTerminal e.state = true) :
    e'.result = e.result := by
  cases h with
  | counted count => rfl
  | paused reason working => rw [working.2] at hend; cases hend
  | resumed state waiting reached working => rw [waiting] at hend; cases hend
  | reconciling working => rw [working.2] at hend; cases hend
  | running working => rcases working with hw | hw <;> rw [hw] at hend <;> cases hend
  | finished state context directory detail working reached terminal =>
    rw [working.2] at hend; cases hend
  | cancelled unended => rw [unended] at hend; cases hend

theorem RowUpdate.completed (h : RowUpdate R e e') (hc : e'.state = .completed) :
    e.state = .completed ∨ R (.finish .completed) e.id := by
  cases h with
  | counted count => exact .inl hc
  | paused => cases hc
  | resumed state waiting reached working =>
    rcases working with hw | hw <;> rw [hw] at hc <;> cases hc
  | reconciling | running => cases hc
  | finished state context directory detail working reached terminal =>
    exact .inr (hc ▸ reached)
  | cancelled => cases hc

section
variable (h : ReflTransGen (RowUpdate R) e e')
include h

namespace RowUpdates

theorem identity : e'.identity = e.identity := by
  induction h with
  | refl => rfl
  | tail _ hupd ih => exact hupd.identity.trans ih

theorem id : e'.id = e.id :=
  Execution.id_of_identity (identity h)

theorem held (hheld : e.held) : e'.held ∨ R .resume e.id := by
  induction h with
  | refl => exact .inl hheld
  | tail hup hupd ih =>
    rcases ih with ih | ih
    · rcases hupd.held ih with hheld | hR
      · exact .inl hheld
      · exact .inr (id hup ▸ hR)
    · exact .inr ih

theorem ended (hend : isExecutionTerminal e.state = true) : e'.result = e.result := by
  induction h with
  | refl => rfl
  | @tail e1 e2 _ hupd ih =>
    have hst : e1.state = e.state := congrArg Prod.fst ih
    exact (hupd.ended (hst ▸ hend)).trans ih

theorem completed (hc : e'.state = .completed) :
    e.state = .completed ∨ R (.finish .completed) e.id := by
  induction h with
  | refl => exact .inl hc
  | tail hup hupd ih =>
    rcases hupd.completed hc with hc | hR
    · exact ih hc
    · exact .inr (id hup ▸ hR)

end RowUpdates

end

end Updates

/-! ## Changes of the table -/

/-- The rows in their order, each after any number of updates. -/
abbrev RowChanges (R : Leave → UUID → Prop) : List Execution → List Execution → Prop :=
  Forall₂ (ReflTransGen (RowUpdate R))

section Changes
variable {R' : Leave → UUID → Prop} {rows : List Execution}

theorem RowChanges.refl (R : Leave → UUID → Prop) (rows : List Execution) :
    RowChanges R rows rows :=
  forall₂_same.2 fun _ _ => .refl

theorem RowChanges.trans (h : RowChanges R rows rows') (h' : RowChanges R rows' rows'') :
    RowChanges R rows rows'' :=
  h.comp (fun hrow hrow' => hrow.trans hrow') h'

theorem RowChanges.identities (h : RowChanges R rows rows') :
    rows'.map (·.identity) = rows.map (·.identity) :=
  h.map_congr RowUpdates.identity

theorem RowChanges.ids (h : RowChanges R rows rows') : rows'.map (·.id) = rows.map (·.id) := by
  have heq := congrArg (map (·.id)) h.identities
  rwa [map_map, map_map] at heq

theorem eq_of_id (hids : (rows.map (·.id)).Nodup) (he : e ∈ rows) (he' : e' ∈ rows)
    (h : e.id = e'.id) : e = e' :=
  inj_on_of_nodup_map hids he he' h

end Changes

/-! ## The tree of parents -/

/-- Below an execution in the tree of parents. -/
inductive Descends (rows : List Execution) (ancestor : UUID) : UUID → Prop
  | refl : Descends rows ancestor ancestor
  | child {e : Execution} {parent : UUID} (mem : e ∈ rows) (up : e.parentExecutionID = some parent)
      (below : Descends rows ancestor parent) : Descends rows ancestor e.id

def Leave.below (rows : List Execution) (ancestor : UUID) : Leave → UUID → Prop
  | .resume, id => Descends rows ancestor id
  | .finish _, _ => False

variable {n : Nat} {control : Control}

section Tree
variable {id : UUID} {s : Store}

theorem Descends.mono (hrows : ∀ e ∈ rows, ∃ e' ∈ rows', e'.identity = e.identity)
    (h : Descends rows ancestor id) : Descends rows' ancestor id := by
  induction h with
  | refl => exact .refl
  | @child e parent mem up _ ih =>
    obtain ⟨e', he', hident⟩ := hrows e mem
    rw [← Execution.id_of_identity hident]
    exact .child he' ((Execution.parent_of_identity hident).trans up) ih

theorem Descends.changes (h : Descends rows ancestor id) (hch : RowChanges R rows rows') :
    Descends rows' ancestor id :=
  h.mono fun _ he => by
    obtain ⟨e', he', hup⟩ := hch.exists_right he
    exact ⟨e', he', RowUpdates.identity hup⟩

theorem Descends.append (h : Descends rows ancestor id) (more : List Execution) :
    Descends (rows ++ more) ancestor id :=
  h.mono fun e he => ⟨e, mem_append_left _ he, rfl⟩

theorem Store.reachable_descends (hids : ∀ id ∈ ids, Descends s.executions ancestor id) :
    ∀ id ∈ s.reachable sid n ids, Descends s.executions ancestor id := by
  induction n generalizing ids with
  | zero => exact hids
  | succ n ih =>
    refine ih fun id hid => ?_
    obtain ⟨e, he, rfl⟩ := mem_map.1 hid
    obtain ⟨hmem, hround⟩ := mem_filter.1 he
    obtain ⟨_, hround⟩ := Bool.and_eq_true_iff.1 hround
    rcases Bool.or_eq_true_iff.1 hround with hsame | hpar
    · exact hids e.id (contains_iff_mem.1 hsame)
    · cases hup : e.parentExecutionID with
      | none => rw [hup] at hpar; cases hpar
      | some parent =>
        rw [hup] at hpar
        exact .child hmem hup (hids parent (contains_iff_mem.1 hpar))

theorem Store.subtree_descends (he : e ∈ s.subtree sid ancestor) :
    Descends s.executions ancestor e.id := by
  obtain ⟨_, hrch⟩ := mem_filter.1 he
  obtain ⟨_, hrch⟩ := Bool.and_eq_true_iff.1 hrch
  refine reachable_descends (fun id hid => ?_) e.id (contains_iff_mem.1 hrch)
  obtain ⟨target, htgt, rfl⟩ := mem_map.1 hid
  obtain ⟨_, heq⟩ := Bool.and_eq_true_iff.1 (mem_filter.1 htgt).2
  rw [beq_iff_eq.1 heq]
  exact .refl

end Tree

/-! ## Writes -/

/-- The row an operation read is still the execution's, as far as its state goes. -/
def Store.Tracks (s : Store) (e : Execution) : Prop :=
  ∀ row ∈ s.executions, row.id = e.id → row.sessionID = e.sessionID ∧ row.state = e.state

/-- The copy of a row has the row's session and counts its events. -/
structure Store.Counts (s : Store) (e : Execution) : Prop where
  row : ∀ row ∈ s.executions, row.id = e.id →
    row.sessionID = e.sessionID ∧ row.eventCount = e.eventCount
  known : e.id ∈ s.executions.map (·.id)

def Store.sequences (s : Store) (id : UUID) : List Nat :=
  (s.events.filter (·.executionID == id)).map (·.sequence)

/-- The events of every execution are numbered from one to its count, and there are no others. -/
structure Store.Recorded (s : Store) : Prop where
  numbered : ∀ e ∈ s.executions, s.sequences e.id = range' 1 e.eventCount
  known : ∀ event ∈ s.events, event.executionID ∈ s.executions.map (·.id)

/-- Rows are updated in place, and events stay numbered. -/
structure StoreChanges (R : Leave → UUID → Prop) (s s' : Store) : Prop where
  rows : RowChanges R s.executions s'.executions
  recorded : s.Recorded → s'.Recorded

section Writes
variable {s s' : Store} {e : Execution}

theorem StoreChanges.refl (R : Leave → UUID → Prop) (s : Store) : StoreChanges R s s :=
  ⟨.refl R _, id⟩

theorem StoreChanges.trans (h : StoreChanges R s s') (h' : StoreChanges R s' s'') :
    StoreChanges R s s'' :=
  ⟨h.rows.trans h'.rows, fun hs => h'.recorded (h.recorded hs)⟩

theorem StoreChanges.of_eq (h : s'.executions = s.executions) (h' : s'.events = s.events) :
    StoreChanges R s s' := by
  refine ⟨h ▸ .refl R _, fun hs => ⟨?_, ?_⟩⟩
  · rw [h]
    unfold sequences
    rw [h']
    exact hs.numbered
  · rw [h, h']
    exact hs.known

namespace Store

theorem tracks_of_mem (hids : (s.executions.map (·.id)).Nodup) (he : e ∈ s.executions) :
    s.Tracks e := by
  intro row hrow hid
  rw [eq_of_id hids hrow he hid]
  exact ⟨rfl, rfl⟩

theorem Tracks.frame (h : s.Tracks e) (hrows : s'.executions = s.executions) : s'.Tracks e := by
  unfold Tracks
  rw [hrows]
  exact h

theorem counts_of_mem (hids : (s.executions.map (·.id)).Nodup) (he : e ∈ s.executions) :
    s.Counts e := by
  refine ⟨fun row hrow hid => ?_, mem_map_of_mem he⟩
  rw [eq_of_id hids hrow he hid]
  exact ⟨rfl, rfl⟩

theorem Counts.frame (h : s.Counts e) (hrows : s'.executions = s.executions) :
    s'.Counts e :=
  ⟨hrows ▸ h.row, hrows ▸ h.known⟩

theorem Counts.updateExecution (h : s.Counts e) {id : UUID}
    (hf : ∀ row, (f row).id = row.id ∧ (f row).sessionID = row.sessionID ∧
      (f row).eventCount = row.eventCount) : (s.updateExecution sid id f).Counts e := by
  refine ⟨fun row hrow hid => ?_, ?_⟩
  · obtain ⟨row', hrow', rfl⟩ := mem_map.1 hrow
    split at hid
    next hmat =>
      rw [if_pos hmat, (hf row').2.1, (hf row').2.2]
      exact h.row row' hrow' ((hf row').1.symm.trans hid)
    next hmat =>
      rw [if_neg hmat]
      exact h.row row' hrow' hid
  · obtain ⟨row, hrow, hid⟩ := mem_map.1 h.known
    refine mem_map.2 ⟨_, mem_map_of_mem hrow, ?_⟩
    split
    · exact (hf row).1.trans hid
    · exact hid

theorem rows_updateExecution {id : UUID}
    (hf : ∀ row ∈ s.executions, row.sessionID = sid → row.id = id → RowUpdate R row (f row)) :
    RowChanges R s.executions (s.updateExecution sid id f).executions := by
  refine forall₂_map_right_iff.2 (forall₂_same.2 fun row hrow => ?_)
  split
  next hmat =>
    obtain ⟨hsid, hid⟩ := Bool.and_eq_true_iff.1 hmat
    exact .single (hf row hrow (beq_iff_eq.1 hsid) (beq_iff_eq.1 hid))
  · exact .refl

theorem changes_updateExecution {id : UUID}
    (hf : ∀ row ∈ s.executions, row.sessionID = sid → row.id = id → RowUpdate R row (f row))
    (hct : ∀ row, (f row).eventCount = row.eventCount) :
    StoreChanges R s (s.updateExecution sid id f) := by
  have hrows := rows_updateExecution hf
  refine ⟨hrows, fun hs => ⟨fun row hrow => ?_, ?_⟩⟩
  · obtain ⟨row', hrow', rfl⟩ := mem_map.1 hrow
    split
    next hmat =>
      obtain ⟨hsid, hid⟩ := Bool.and_eq_true_iff.1 hmat
      rw [Execution.id_of_identity (hf row' hrow' (beq_iff_eq.1 hsid) (beq_iff_eq.1 hid)).identity,
        hct]
      exact hs.numbered row' hrow'
    · exact hs.numbered row' hrow'
  · rw [hrows.ids]
    exact hs.known

theorem rows_appendExecutionEvent (h : s.appendExecutionEvent e kind payload = .ok (e', s')) :
    RowChanges R s.executions s'.executions ∧ e' = { e with eventCount := e.eventCount + 1 } ∧
      ∀ e1, s.Tracks e1 → s'.Tracks e1 := by
  obtain ⟨rfl, rfl⟩ := appendExecutionEvent_ok h
  refine ⟨rows_updateExecution fun row _ _ _ => .counted _, rfl, fun e1 htk => ?_⟩
  intro row hrow hid
  obtain ⟨row', hrow', rfl⟩ := mem_map.1 hrow
  split at hid
  next hmat =>
    rw [if_pos hmat]
    exact htk row' hrow' hid
  next hmat =>
    rw [if_neg hmat]
    exact htk row' hrow' hid

theorem sequences_appendExecutionEvent
    (h : s.appendExecutionEvent e kind payload = .ok (e', s')) (id : UUID) :
    s'.sequences id = s.sequences id ++ if e.id = id then [e.eventCount + 1] else [] := by
  obtain ⟨-, rfl⟩ := appendExecutionEvent_ok h
  show ((s.events ++ [_]).filter _).map _ = _
  by_cases hid : e.id = id
  · simp [hid, sequences]
  · simp [beq_eq_false_iff_ne.2 hid, hid, sequences]

theorem changes_appendExecutionEvent (hcs : s.Counts e)
    (h : s.appendExecutionEvent e kind payload = .ok (e', s')) : StoreChanges R s s' ∧
      s'.Counts e' ∧ ∀ e1, e1.id ≠ e.id → s.Counts e1 → s'.Counts e1 := by
  obtain ⟨hrows, -⟩ := rows_appendExecutionEvent (R := R) h
  have hseqs := sequences_appendExecutionEvent h
  obtain ⟨rfl, hs'⟩ := appendExecutionEvent_ok h
  -- the row of the event has the next count, and no other row is touched
  have hrow : ∀ row ∈ s'.executions, (row.id = e.id ∧ row.sessionID = e.sessionID ∧
      row.eventCount = e.eventCount + 1) ∨ (row.id ≠ e.id ∧ row ∈ s.executions) := by
    rw [hs']
    intro row hrow
    obtain ⟨row', hrow', rfl⟩ := mem_map.1 hrow
    by_cases hid : row'.id = e.id
    · have hse := (hcs.row row' hrow' hid).1
      simp [hid, hse]
    · exact .inr (by simp [hid, hrow'])
  have hevs : ∀ event ∈ s'.events, event ∈ s.events ∨ event.executionID = e.id := by
    rw [hs']
    intro event hev
    rcases mem_snoc.1 hev with hev | hev
    · exact .inl hev
    · exact .inr (by rw [hev])
  refine ⟨⟨hrows, fun hs => ⟨fun row hmem => ?_, fun event hev => ?_⟩⟩, ⟨fun row hmem hid => ?_, ?_⟩,
    fun e1 hne hcs1 => ⟨fun row hmem hid => ?_, hrows.ids ▸ hcs1.known⟩⟩
  · rw [hseqs]
    rcases hrow row hmem with ⟨hid, _, hct⟩ | ⟨hid, hmem⟩
    · obtain ⟨old, hold, heq⟩ := mem_map.1 hcs.known
      rw [hid, if_pos rfl, hct, ← heq, hs.numbered old hold, (hcs.row old hold heq).2,
        range'_concat, Nat.one_mul, Nat.add_comm 1]
    · rw [if_neg (Ne.symm hid), append_nil]
      exact hs.numbered row hmem
  · rw [hrows.ids]
    rcases hevs event hev with hev | hid
    · exact hs.known event hev
    · exact hid ▸ hcs.known
  · rcases hrow row hmem with ⟨_, hse, hct⟩ | ⟨hne, _⟩
    · exact ⟨hse, hct⟩
    · exact absurd hid hne
  · exact hrows.ids ▸ hcs.known
  · rcases hrow row hmem with ⟨hid', _⟩ | ⟨_, hmem⟩
    · exact absurd (hid.symm.trans hid') hne
    · exact hcs1.row row hmem hid

theorem changes_append_of_mem (hids : (s.executions.map (·.id)).Nodup) (he : e ∈ s.executions)
    (h : s.appendExecutionEvent e kind payload = .ok (e', s')) :
    StoreChanges R s s' :=
  (changes_appendExecutionEvent (counts_of_mem hids he) h).1

theorem Recorded.insert (h : s.Recorded) (hid : ∀ row ∈ s.executions, row.id ≠ e.id)
    (hct : e.eventCount = 0) : ({ s with executions := s.executions ++ [e] } : Store).Recorded := by
  refine ⟨fun row hrow => ?_, fun event hev => ?_⟩
  · rcases mem_snoc.1 hrow with hrow | hrow
    · exact h.numbered row hrow
    · rw [hrow, hct]
      refine map_eq_nil_iff.2 (filter_eq_nil_iff.2 fun event hev hof => ?_)
      obtain ⟨old, hold, heq⟩ := mem_map.1 (h.known event hev)
      exact hid old hold (heq.trans (beq_iff_eq.1 hof))
  · rw [map_append]
    exact mem_append_left _ (h.known event hev)

theorem counts_insert (hid : ∀ row ∈ s.executions, row.id ≠ e.id) :
    ({ s with executions := s.executions ++ [e] } : Store).Counts e := by
  refine ⟨fun row hrow heq => ?_, mem_map_of_mem mem_concat_self⟩
  rcases mem_snoc.1 hrow with hrow | hrow
  · exact absurd heq (hid row hrow)
  · rw [hrow]
    exact ⟨rfl, rfl⟩

theorem rows_changeExecutionState (htk : s.Tracks e)
    (hchg : shouldChangeExecutionState e.state control = true)
    (hres : control = .resume → R .resume e.id)
    (h : s.changeExecutionState e control reason = .ok s') :
    StoreChanges R s s' ∧ (∀ e1, e1.id ≠ e.id → s.Tracks e1 → s'.Tracks e1) ∧
      (∀ e1, s.Counts e1 → s'.Counts e1) ∧
      (control = .pause → ∀ row ∈ s'.executions, row.id = e.id → row.held) := by
  obtain ⟨_, h⟩ := of_check h
  have others : ∀ (f : Execution → Execution), (∀ row, (f row).id = row.id) →
      ∀ e1, e1.id ≠ e.id → s.Tracks e1 → (s.updateExecution e.sessionID e.id f).Tracks e1 := by
    intro f hf e1 hne htk1 row hrow hid
    obtain ⟨row', hrow', rfl⟩ := mem_map.1 hrow
    split at hid
    next hmat =>
      obtain ⟨_, hid'⟩ := Bool.and_eq_true_iff.1 hmat
      rw [hf, beq_iff_eq.1 hid'] at hid
      exact absurd hid.symm hne
    next hmat =>
      rw [if_neg hmat]
      exact htk1 row' hrow' hid
  cases control with
  | pause =>
    cases h
    have hwork : e.pausable := by
      simpa [Execution.pausable, shouldChangeExecutionState] using hchg
    refine ⟨changes_updateExecution (fun row hrow _ hid => .paused _ ?_) fun _ => rfl,
      others _ fun _ => rfl, fun _ hcs => hcs.updateExecution fun _ => ⟨rfl, rfl, rfl⟩, ?_⟩
    · rw [Execution.pausable, (htk row hrow hid).2]
      exact hwork
    · intro _ row hrow hid
      obtain ⟨row', hrow', rfl⟩ := mem_map.1 hrow
      split
      · exact .inl rfl
      next hmat =>
        rw [if_neg hmat] at hid
        refine absurd ?_ hmat
        rw [(htk row' hrow' hid).1, hid, beq_self_eq_true, beq_self_eq_true]
        rfl
  | resume =>
    cases h
    have hpau : e.state = .paused := by
      simpa [shouldChangeExecutionState] using hchg
    refine ⟨changes_updateExecution (fun row hrow _ hid => .resumed _ ?_ ?_ ?_) fun _ => rfl,
      others _ fun _ => rfl, fun _ hcs => hcs.updateExecution fun _ => ⟨rfl, rfl, rfl⟩, nofun⟩
    · rw [(htk row hrow hid).2]
      exact hpau
    · rw [hid]
      exact hres rfl
    · split
      · exact .inl rfl
      · exact .inr rfl

theorem rows_changeExecutions {members : List Execution} (hnd : (members.map (·.id)).Nodup)
    (htk : ∀ m ∈ members, s.Tracks m) (hcs : ∀ m ∈ members, s.Counts m)
    (hres : control = .resume → ∀ m ∈ members, R .resume m.id)
    (h : changeExecutions control reason payload members s = .ok (changed, s')) :
    StoreChanges R s s' ∧
      (control = .pause → (∀ id, ¬ R .resume id) → ∀ m ∈ members, ∀ row ∈ s'.executions, row.id = m.id →
        row.held) := by
  induction members generalizing s changed with
  | nil =>
    cases h
    exact ⟨.refl R _, nofun⟩
  | cons m members ih =>
    obtain ⟨hfr, hnd⟩ := nodup_cons.1 hnd
    have hoth : ∀ m' ∈ members, m'.id ≠ m.id := fun m' hm' heq =>
      hfr (mem_map.2 ⟨m', hm', heq⟩)
    -- a member that does no work when its turn comes does none at the end
    have kept : ∀ {t : Store}, (∀ id, ¬ R .resume id) →
      (∀ row ∈ t.executions, row.id = m.id → row.held) →
        StoreChanges R t s' → ∀ row ∈ s'.executions, row.id = m.id → row.held := by
      intro t hnone hheld hch row hrow hid
      obtain ⟨row', hrow', hup⟩ := hch.rows.exists_left hrow
      exact (RowUpdates.held hup (hheld row' hrow' ((RowUpdates.id hup).symm.trans hid))
        ).resolve_right (hnone _)
    rw [changeExecutions] at h
    split at h
    next hchg =>
      obtain ⟨s1, h1, h⟩ := of_bind h
      obtain ⟨⟨m', s2⟩, h2, h⟩ := of_bind h
      obtain ⟨⟨rest, s3⟩, h3, h⟩ := of_bind h
      cases h
      obtain ⟨hrows1, htk1, hcs1, hheld1⟩ := rows_changeExecutionState
        (htk m mem_cons_self) hchg (fun hr => hres hr m mem_cons_self) h1
      obtain ⟨_, _, htk2⟩ := rows_appendExecutionEvent (R := R) h2
      obtain ⟨hrows2, _, hcs2⟩ := changes_appendExecutionEvent (R := R)
        (hcs1 m (hcs m mem_cons_self)) h2
      obtain ⟨hrows3, hheld3⟩ := ih hnd (fun m' hm' => htk2 m'
        (htk1 m' (hoth m' hm') (htk m' (mem_cons_of_mem _ hm'))))
        (fun m' hm' => hcs2 m' (hoth m' hm') (hcs1 m' (hcs m' (mem_cons_of_mem _ hm'))))
        (fun hr m' hm' => hres hr m' (mem_cons_of_mem _ hm')) h3
      refine ⟨(hrows1.trans hrows2).trans hrows3, fun hpause hnone m' hm' => ?_⟩
      rcases mem_cons.1 hm' with rfl | hm'
      · exact kept hnone (hheld1 hpause) (hrows2.trans hrows3)
      · exact hheld3 hpause hnone m' hm'
    next hchg =>
      obtain ⟨hrows, hheld⟩ := ih hnd (fun m' hm' => htk m' (mem_cons_of_mem _ hm'))
        (fun m' hm' => hcs m' (mem_cons_of_mem _ hm'))
        (fun hr m' hm' => hres hr m' (mem_cons_of_mem _ hm')) h
      refine ⟨hrows, fun hpause hnone m' hm' => ?_⟩
      rcases mem_cons.1 hm' with rfl | hm'
      · refine kept hnone (fun row hrow hid => ?_) hrows
        rw [hpause] at hchg
        rw [Execution.held, (htk m' mem_cons_self row hrow hid).2]
        cases hst : m'.state <;> simp [shouldChangeExecutionState, isExecutionTerminal,
          hst] at hchg ⊢
      · exact hheld hpause hnone m' hm'

end Store

end Writes

/-! ## Transactions -/

section Transactions
variable {s s' : Store} {e e' : Execution} {cfg : Config}

variable {a : ExecutionActivity} {claim : ActivityClaim} {input : CompleteActivityInput}
  {answers : CompletionAnswers} {r : ExecutionActivity × Store}

namespace Store

theorem mem_of_findExecution (h : s.findExecution sid eid = .ok e) : e ∈ s.executions := by
  unfold findExecution at h
  split at h
  · cases h
  next hfd =>
    cases h
    exact mem_of_find?_eq_some hfd

theorem mem_of_activityForLease (h : s.activityForLease sid lease = .ok (a, e)) :
    e ∈ s.executions ∧ e.id = a.executionID ∧ e.sessionID = sid := by
  obtain ⟨_, h⟩ := of_check h
  obtain ⟨a', _, h⟩ := of_bind h
  split at h
  · cases h
  split at h
  · cases h
  obtain ⟨e', he', h⟩ := of_bind h
  cases h
  obtain ⟨hse, hid⟩ := of_findExecution he'
  exact ⟨mem_of_findExecution he', hid, hse⟩

theorem rows_changeExecutionSubtree (hids : (s.executions.map (·.id)).Nodup)
    (hres : control = .resume → ∀ id, Descends s.executions eid id → R .resume id)
    (h : s.changeExecutionSubtree sid eid control reason payload = .ok (changed, s')) :
    StoreChanges R s s' := by
  have hsub : (s.subtree sid eid).Sublist s.executions := filter_sublist
  exact (rows_changeExecutions (hids.sublist (hsub.map _))
    (fun m hm => tracks_of_mem hids (hsub.subset hm))
    (fun m hm => counts_of_mem hids (hsub.subset hm))
    (fun hr m hm => hres hr m.id (subtree_descends hm)) h).1

theorem rows_pauseExecution (hids : (s.executions.map (·.id)).Nodup)
    (h : s.pauseExecution cfg sid eid reason = .ok (changed, s')) : StoreChanges R s s' := by
  obtain ⟨_, h⟩ := of_check h
  obtain ⟨_, _, h⟩ := of_bind h
  refine rows_changeExecutionSubtree hids ?_ h
  intro hres
  cases hres

theorem rows_resumeExecution (hids : (s.executions.map (·.id)).Nodup)
    (h : s.resumeExecution sid eid = .ok (changed, s')) :
    StoreChanges (Leave.below s.executions eid) s s' := by
  obtain ⟨_, _, h⟩ := of_bind h
  exact rows_changeExecutionSubtree hids (fun _ _ hid => hid) h

theorem rows_pauseEach (hids : (s.executions.map (·.id)).Nodup) (h : pauseEach es s = .ok (n, s')) :
    StoreChanges R s s' := by
  induction es generalizing s n with
  | nil =>
    cases h
    exact .refl R _
  | cons e es ih =>
    obtain ⟨⟨changed, s1⟩, h1, h⟩ := of_bind h
    obtain ⟨⟨m, s2⟩, h2, h⟩ := of_bind h
    cases h
    have hrows : StoreChanges R s s1 := by
      refine rows_changeExecutionSubtree hids ?_ h1
      intro hres
      cases hres
    exact hrows.trans (ih (hrows.rows.ids ▸ hids) h2)

theorem rows_pauseUnfinishedExecutions (hids : (s.executions.map (·.id)).Nodup)
    (h : s.pauseUnfinishedExecutions sid = .ok (n, s')) :
    StoreChanges R s s' :=
  rows_pauseEach hids h

theorem rows_markActivityUncertain (htk : s.Tracks e) (hcs : s.Counts e)
    (h : s.markActivityUncertain e a = .ok (a', s')) : StoreChanges R s s' := by
  obtain ⟨⟨e1, s1⟩, h1, h⟩ := of_bind h
  cases h
  have hsame : StoreChanges R s (s.updateActivity a.sessionID a.id .uncertain) := .of_eq rfl rfl
  have hcs : (s.updateActivity a.sessionID a.id .uncertain).Counts e := hcs.frame rfl
  split at h1
  next hwork =>
    refine (hsame.trans (changes_updateExecution (fun row hrow _ hid => .reconciling ?_)
      fun _ => rfl)).trans (changes_appendExecutionEvent ?_ h1).1
    · rw [Execution.pausable, (htk row hrow hid).2]
      exact hwork
    · exact hcs.updateExecution fun _ => ⟨rfl, rfl, rfl⟩
  · exact hsame.trans (changes_appendExecutionEvent hcs h1).1

theorem rows_markExecutionRunning (htk : s.Tracks e) (hcs : s.Counts e) :
    StoreChanges R s (s.markExecutionRunning e).2 ∧
      (s.markExecutionRunning e).2.Counts (s.markExecutionRunning e).1 := by
  unfold markExecutionRunning
  split
  next hque =>
    have hcopy : s.Counts { e with state := .running } := ⟨hcs.row, hcs.known⟩
    refine ⟨changes_updateExecution (fun row hrow _ hid => .running (.inl ?_)) fun _ => rfl,
      hcopy.updateExecution fun _ => ⟨rfl, rfl, rfl⟩⟩
    rw [(htk row hrow hid).2]
    exact hque
  · exact ⟨.refl R _, hcs⟩

theorem rows_startActivityAttempt (htk : s.Tracks e) (hcs : s.Counts e)
    (h : s.startActivityAttempt child e a g = .ok (a', s')) : StoreChanges R s s' := by
  obtain ⟨_, _, h⟩ := of_bind h
  obtain ⟨_, _, h⟩ := of_bind h
  obtain ⟨⟨e1, s1⟩, h1, h⟩ := of_bind h
  cases h
  have hsame : StoreChanges R s (s.updateActivity a.sessionID a.id (·.started g)) := .of_eq rfl rfl
  obtain ⟨hrun, hcs⟩ := rows_markExecutionRunning (R := R)
    (s := s.updateActivity a.sessionID a.id (·.started g)) htk (hcs.frame rfl)
  exact (hsame.trans hrun).trans (changes_appendExecutionEvent hcs h1).1

theorem rows_executeActivity (htk : s.Tracks e) (hcs : s.Counts e)
    (h : s.executeActivity child e a g = .ok (claim, s')) : StoreChanges R s s' := by
  obtain ⟨⟨a1, s1⟩, h1, h⟩ := of_bind h
  cases h
  exact rows_startActivityAttempt htk hcs h1

theorem rows_claimExecutionActivity (htk : s.Tracks e) (hcs : s.Counts e)
    (h : s.claimExecutionActivity child e a g = .ok (claim, s')) :
    StoreChanges R s s' ∧ (claim.decision = .execute → ¬ e.held) := by
  rw [claimExecutionActivity] at h
  split at h
  · cases h
    exact ⟨.refl R _, nofun⟩
  rename_i hpau
  split at h
  · cases h
    exact ⟨.refl R _, nofun⟩
  obtain ⟨hend, h⟩ := of_check h
  have hwork : ¬ e.held := fun hheld => hheld.elim hpau hend
  split at h
  · cases h
    exact ⟨.refl R _, nofun⟩
  split at h
  · split at h
    · cases h
    split at h
    · obtain ⟨⟨a1, s1⟩, h1, h⟩ := of_bind h
      cases h
      exact ⟨rows_markActivityUncertain htk hcs h1, nofun⟩
    · exact ⟨rows_executeActivity htk hcs h, fun _ => hwork⟩
  · exact ⟨rows_executeActivity htk hcs h, fun _ => hwork⟩

theorem rows_ensureExecutionActivity {newID : UUID} {input : ScheduleActivityInput}
    (htk : s.Tracks e) (hcs : s.Counts e)
    (h : s.ensureExecutionActivity newID e input = .ok (a, e', s')) :
    StoreChanges R s s' ∧ s'.Tracks e' ∧ s'.Counts e' ∧ e'.state = e.state := by
  rw [ensureExecutionActivity] at h
  split at h
  · split at h
    · cases h
      exact ⟨.refl R _, htk, hcs, rfl⟩
    · cases h
  · obtain ⟨s1, h1, h⟩ := of_bind h
    obtain ⟨⟨e2, s2⟩, h2, h⟩ := of_bind h
    cases h
    have hsame : s1.executions = s.executions ∧ s1.events = s.events := by
      obtain ⟨_, h1⟩ := of_check h1
      cases h1; exact ⟨rfl, rfl⟩
    obtain ⟨hrows, hcs2, _⟩ :=
      changes_appendExecutionEvent (R := R) (hcs.frame hsame.1) h2
    obtain ⟨_, rfl, htk2⟩ := rows_appendExecutionEvent (R := R) h2
    exact ⟨(StoreChanges.of_eq hsame.1 hsame.2).trans hrows, htk2 e (htk.frame hsame.1), hcs2, rfl⟩

theorem rows_beginExecutionActivity {answers : ClaimAnswers} {input : ScheduleActivityInput}
    (hids : (s.executions.map (·.id)).Nodup)
    (h : s.beginExecutionActivity cfg answers sid eid g input = .ok (claim, s')) :
    StoreChanges R s s' ∧
      ∃ e ∈ s.executions, e.id = eid ∧ (claim.decision = .execute → ¬ e.held) := by
  obtain ⟨_, h⟩ := of_check h
  obtain ⟨_, _, h⟩ := of_bind h
  obtain ⟨e, he, h⟩ := of_bind h
  obtain ⟨⟨a, e1, s1⟩, h1, h⟩ := of_bind h
  have hmem := mem_of_findExecution he
  obtain ⟨hrows1, htk1, hcs1, hst⟩ := rows_ensureExecutionActivity (R := R)
    (tracks_of_mem hids hmem) (counts_of_mem hids hmem) h1
  obtain ⟨hrows, hdec⟩ := rows_claimExecutionActivity (R := R) htk1 hcs1 h
  refine ⟨hrows1.trans hrows, e, hmem, (of_findExecution he).2, ?_⟩
  intro hexecute hheld
  refine hdec hexecute ?_
  rw [Execution.held, hst]
  exact hheld

theorem rows_saveActivityCompaction
    (h : s.saveActivityCompaction cfg answers a e input = .ok (a', s')) :
    s'.executions = s.executions ∧ s'.events = s.events := by
  rw [saveActivityCompaction] at h
  split at h
  · cases h; exact ⟨rfl, rfl⟩
  · obtain ⟨_, _, h⟩ := of_bind h
    obtain ⟨_, _, h⟩ := of_bind h
    cases h
    exact ⟨rfl, rfl⟩

theorem rows_saveActivityProjection
    (h : s.saveActivityProjection cfg answers a e input = .ok (a', s')) :
    s'.executions = s.executions ∧ s'.events = s.events := by
  obtain ⟨⟨a1, s1⟩, h1, h⟩ := of_bind h
  have hroot : s1.executions = s.executions ∧ s1.events = s.events := by
    rw [saveRootActivityProjection] at h1
    split at h1
    · cases h1; exact ⟨rfl, rfl⟩
    · split at h1
      · cases h1
      obtain ⟨_, _, h1⟩ := of_bind h1
      obtain ⟨_, _, h1⟩ := of_bind h1
      cases h1
      exact ⟨rfl, rfl⟩
  dsimp only at h
  rw [saveChildActivityProjection] at h
  split at h
  · cases h; exact hroot
  · split at h
    · cases h
    obtain ⟨_, _, h⟩ := of_bind h
    cases h
    exact hroot

end Store

/-- What the end of an execution in a state finds settled. -/
structure Settled (answers : CompletionAnswers) (s : Store) (e : Execution)
    (state : ExecutionState) : Prop where
  activities : s.requireSettledExecutionActivities e state = .ok ()
  inbox : requireSettledExecutionInbox answers state = .ok ()

theorem Settled.of_states (h : Settled answers s e state)
    (hstates : (s'.activities.map fun a => (a.sessionID, a.executionID, a.state)) =
      s.activities.map fun a => (a.sessionID, a.executionID, a.state))
    (hid : e'.id = e.id) (hse : e'.sessionID = e.sessionID) : Settled answers s' e' state := by
  refine ⟨?_, h.inbox⟩
  have key : ∀ (t : Store) (f : Execution), t.requireSettledExecutionActivities f state =
      if (t.activities.map fun a => (a.sessionID, a.executionID, a.state)).any fun k =>
          k.1 == f.sessionID && k.2.1 == f.id &&
          !(k.2.2 == .completed || (state == .failed && k.2.2 == .failed)) then
        .error ⟨.conflict, "execution still has unsettled activities"⟩
      else .ok () := by
    intro t f
    rw [any_map]
    rfl
  rw [key, hstates, hid, hse, ← key]
  exact h.activities

theorem Store.rows_finishExecution (htk : s.Tracks e) (hcs : s.Counts e)
    (hwork : input.finish.isSome → e.pausable)
    (hst : ∀ finish, input.finish = some finish → finish.state = .completed ∨
      finish.state = .failed)
    (hleave : ∀ state, Settled answers s' e state → R (.finish state) e.id)
    (h : s.finishExecution answers e input = .ok s') : StoreChanges R s s' := by
  unfold finishExecution at h
  split at h
  · cases h
    exact .refl R _
  rename_i finish hfin
  obtain ⟨_, hacts, h⟩ := of_bind h
  obtain ⟨_, hin, h⟩ := of_bind h
  obtain ⟨_, _, h⟩ := of_bind h
  obtain ⟨_, _, h⟩ := of_bind h
  obtain ⟨⟨e1, s1⟩, h1, h⟩ := of_bind h
  cases h
  have hset : Settled answers s e finish.state := ⟨hacts, hin⟩
  refine StoreChanges.trans ?_ (changes_appendExecutionEvent (hcs.updateExecution ?_) h1).1
  · refine changes_updateExecution (fun row hrow _ hid => ?_) fun _ => rfl
    refine .finished _ _ _ _ ?_ ?_ (hst finish hfin)
    · rw [Execution.pausable, (htk row hrow hid).2]
      exact hwork (by rw [hfin]; rfl)
    · rw [hid]
      have hsame : s'.activities = s.activities :=
        (activities_appendExecutionEvent h1).trans rfl
      exact hleave _ (hset.of_states (by rw [hsame]) rfl rfl)
  · exact fun _ => ⟨rfl, rfl, rfl⟩

theorem Store.states_saveResolution (s : Store) (a : ExecutionActivity)
    (resolution : ResolutionJSON) : ((s.saveResolution a resolution).2.activities.map fun a =>
        (a.sessionID, a.executionID, a.state)) =
      s.activities.map fun a => (a.sessionID, a.executionID, a.state) := by
  show ((s.updateActivity _ _ _).activities.map _) = _
  rw [updateActivity, map_map]
  refine map_congr_left fun b _ => ?_
  dsimp only [Function.comp_apply]
  split <;> rfl

theorem Store.rows_finishActivityCompletion (htk : s.Tracks e) (hcs : s.Counts e)
    (hwork : input.finish.isSome → e.pausable)
    (hst : ∀ finish, input.finish = some finish → finish.state = .completed ∨
      finish.state = .failed)
    (hleave : ∀ state, Settled answers r.2 e state → R (.finish state) e.id)
    (h : s.finishActivityCompletion cfg answers a e input = .ok r) : StoreChanges R s r.2 := by
  unfold finishActivityCompletion at h
  split at h
  next s1 finish hs1 hfin =>
    split at h
    · cases h
      have hrows : StoreChanges R s s1 := by
        refine rows_finishExecution htk hcs hwork hst (fun state hset => ?_) hs1
        exact hleave state (hset.of_states (states_saveResolution s1 a _) rfl rfl)
      exact hrows.trans (.of_eq rfl rfl)
    · cases h
      exact rows_finishExecution htk hcs hwork hst hleave hs1
  next s1 hs1 hfin =>
    cases h
    exact rows_finishExecution htk hcs hwork hst hleave hs1
  · split at h
    · cases h; exact .of_eq rfl rfl
    · cases h
  · cases h

theorem validateFinishClaim_ok (h : validateFinishClaim a e input = .ok u) :
    input.finish.isSome → e.pausable := by
  intro hsome
  obtain ⟨finish, hfin⟩ := Option.isSome_iff_exists.1 hsome
  obtain ⟨_, _, h⟩ := of_bind h
  rw [hfin] at h
  obtain ⟨_, _, h⟩ := of_bind h
  obtain ⟨hst, h⟩ := of_check h
  obtain ⟨hpau, hst⟩ := not_or.1 hst
  exact ⟨hpau, Bool.eq_false_iff.2 (not_or.1 hst).2⟩

theorem validateFinishInput_ok (h : validateFinishInput cfg answers (some finish) = .ok u) :
    finish.state = .completed ∨ finish.state = .failed := by
  obtain ⟨hval, h⟩ := of_check h
  simp only [Bool.or_eq_true, not_or, Bool.not_eq_true', Bool.not_eq_false] at hval
  have hst := hval.1.1.1.1
  rw [validExecutionFinishState, Bool.or_eq_true] at hst
  exact hst.imp (fun h => beq_iff_eq.1 h) fun h => beq_iff_eq.1 h

theorem validateActivityResult_ok (h : validateActivityResult cfg answers input = .ok u) :
    ∀ finish, input.finish = some finish → finish.state = .completed ∨ finish.state = .failed := by
  intro finish hfin
  obtain ⟨_, _, h⟩ := of_bind h
  obtain ⟨_, _, h⟩ := of_bind h
  obtain ⟨_, _, h⟩ := of_bind h
  rw [hfin] at h
  exact validateFinishInput_ok h

/-- What the completion of a running activity checked and wrote, step by step. -/
structure Completed (cfg : Config) (s : Store) (answers : CompletionAnswers) (a : ExecutionActivity)
    (e : Execution) (input : CompleteActivityInput) (r : ExecutionActivity × Store) : Prop where
  running : a.state = .running
  claim : validateFinishClaim a e input = .ok ()
  holder : checkExecutionFinishHolder answers a e (input.finish.bind (·.rootHolder)) = .ok ()
  written : ∃ a₁ s₁ a₂ s₂ e₃ s₃,
    (s.saveActivityResult a input.output input.context).2.saveActivityCompaction cfg answers
      (s.saveActivityResult a input.output input.context).1 e input = .ok (a₁, s₁) ∧
    s₁.saveActivityProjection cfg answers a₁ e input = .ok (a₂, s₂) ∧
    s₂.appendActivityEvent e a₂ .stepCompleted = .ok (e₃, s₃) ∧
    s₃.finishActivityCompletion cfg answers a₂ e₃ input = .ok r

theorem Store.completeExecutionActivity_cases
    (h : s.completeExecutionActivity cfg answers sid lease input = .ok r) :
    validateActivityResult cfg answers input = .ok () ∧
      ∃ a e, s.activityForLease sid lease = .ok (a, e) ∧
        ((a.state = .completed ∧ completedExecutionActivity cfg a e input = .ok r.1 ∧ r.2 = s) ∨
          Completed cfg s answers a e input r) := by
  obtain ⟨_, hres, h⟩ := of_bind h
  obtain ⟨⟨a, e⟩, hfd, h⟩ := of_bind h
  refine ⟨hres, a, e, hfd, ?_⟩
  dsimp only at h
  split at h
  next hst =>
    obtain ⟨a', ha', h⟩ := of_bind h
    cases h
    exact .inl ⟨hst, ha', rfl⟩
  obtain ⟨hrun, h⟩ := of_check h
  obtain ⟨_, hclm, h⟩ := of_bind h
  obtain ⟨_, hhol, h⟩ := of_bind h
  obtain ⟨⟨a1, s1⟩, h1, h⟩ := of_bind h
  obtain ⟨⟨a2, s2⟩, h2, h⟩ := of_bind h
  obtain ⟨⟨e3, s3⟩, h3, h⟩ := of_bind h
  exact .inr ⟨not_not.1 hrun, hclm, hhol, a1, s1, a2, s2, e3, s3, h1, h2, h3, h⟩

theorem Store.rows_completeExecutionActivity (hids : (s.executions.map (·.id)).Nodup)
    (hleave : ∀ a e, s.activityForLease sid lease = .ok (a, e) →
      ∀ state, Settled answers r.2 e state → R (.finish state) e.id)
    (h : s.completeExecutionActivity cfg answers sid lease input = .ok r) :
    StoreChanges R s r.2 := by
  obtain ⟨hres, a, e, hfd, ⟨_, _, hsame⟩ | hcmp⟩ :=
    completeExecutionActivity_cases h
  · rw [hsame]
    exact .refl R _
  have hmem := (mem_of_activityForLease hfd).1
  have htk := tracks_of_mem hids hmem
  obtain ⟨a1, s1, a2, s2, e3, s3, h1, h2, h3, h⟩ := hcmp.written
  have hsv := rows_saveActivityCompaction
    (s := (s.saveActivityResult a input.output input.context).2) h1
  have hproj := rows_saveActivityProjection h2
  have hsame : s2.executions = s.executions := hproj.1.trans hsv.1
  have hevs : s2.events = s.events := hproj.2.trans hsv.2
  obtain ⟨hrows, hcs3, _⟩ := changes_appendExecutionEvent (R := R)
    ((counts_of_mem hids hmem).frame hsame) h3
  obtain ⟨_, rfl, htk3⟩ := rows_appendExecutionEvent (R := R) h3
  have hrest := rows_finishActivityCompletion (R := R)
    (e := { e with eventCount := e.eventCount + 1 }) (htk3 e (htk.frame hsame)) hcs3
    (validateFinishClaim_ok hcmp.claim) (validateActivityResult_ok hres)
    (fun state hset => hleave a e hfd state (hset.of_states rfl rfl rfl)) h
  exact ((StoreChanges.of_eq hsame hevs).trans hrows).trans hrest

theorem validateRootProjection_ok (h : validateActivityResult cfg answers input = .ok u)
    (hproj : input.rootProjection = some projection) :
    input.finish = none ∧ input.compaction = none := by
  obtain ⟨_, _, h⟩ := of_bind h
  obtain ⟨_, h, _⟩ := of_bind h
  unfold validateRootProjection at h
  rw [hproj] at h
  obtain ⟨hmixed, h⟩ := of_check h
  rw [Bool.or_eq_true, not_or] at hmixed
  exact ⟨Option.not_isSome_iff_eq_none.1 hmixed.1, Option.not_isSome_iff_eq_none.1 hmixed.2⟩

theorem checkExecutionFinishHolder_ok
    (h : checkExecutionFinishHolder answers a e (some proof) = .ok u) :
    ∃ holder, answers.turnLease = .ok holder ∧ holder.leaseID = proof.leaseID := by
  obtain ⟨_, h⟩ := of_check h
  obtain ⟨holder, hhol, h⟩ := of_bind h
  obtain ⟨hsame, h⟩ := of_check h
  exact ⟨holder, hhol, not_not.1 fun hne => hsame (.inl hne)⟩

theorem Completed.finish_of_compaction (h : Completed cfg s answers a e input r)
    (hcomp : input.compaction = some compaction) : input.finish = none := by
  obtain ⟨a1, s1, a2, s2, e3, s3, hsv, _⟩ := h.written
  unfold saveActivityCompaction at hsv
  rw [hcomp] at hsv
  obtain ⟨_, hck, _⟩ := of_bind hsv
  unfold checkActivityCompaction at hck
  split at hck
  all_goals
    obtain ⟨hkind, hck⟩ := of_check hck
    exact Option.not_isSome_iff_eq_none.1 fun hfin => hkind (by simp [hfin])

theorem Completed.stored_holder {holder : ExecutionFinishHolder}
    (h : Completed cfg s answers a e input r)
    (hhol : input.rootProjection.map (·.holder) = some holder ∨
      input.finish.bind (·.rootHolder) = some holder) :
    ∃ stored, answers.turnLease = .ok stored ∧ stored.leaseID = holder.leaseID := by
  rcases hhol with hhol | hfin
  · obtain ⟨projection, hproj, rfl⟩ := Option.map_eq_some_iff.1 hhol
    obtain ⟨a1, s1, a2, s2, e3, s3, _, hsv, _⟩ := h.written
    obtain ⟨_, hsv, _⟩ := of_bind hsv
    unfold saveRootActivityProjection at hsv
    rw [hproj] at hsv
    obtain ⟨_, hsv⟩ := of_check hsv
    obtain ⟨_, hck, _⟩ := of_bind hsv
    exact checkExecutionFinishHolder_ok hck
  · exact checkExecutionFinishHolder_ok (hfin ▸ h.holder)

theorem Store.rows_interruptExecutionActivity (hids : (s.executions.map (·.id)).Nodup)
    (h : s.interruptExecutionActivity sid lease = .ok s') : StoreChanges R s s' := by
  obtain ⟨⟨a, e⟩, hfd, h⟩ := of_bind h
  have hmem := (mem_of_activityForLease hfd).1
  have hcs := counts_of_mem hids hmem
  dsimp only at h
  split at h
  · cases h
    exact .refl R _
  split at h
  · obtain ⟨⟨a1, s1⟩, h1, h⟩ := of_bind h
    cases h
    exact rows_markActivityUncertain (tracks_of_mem hids hmem) hcs h1
  · obtain ⟨⟨e1, s1⟩, h1, h⟩ := of_bind h
    cases h
    refine StoreChanges.trans ?_ (changes_appendExecutionEvent ?_ h1).1
    · exact .of_eq rfl rfl
    · exact hcs.frame rfl

theorem Store.rows_applyActivityResolution (s : Store) (a : ExecutionActivity)
    (input : ResolveActivityInput) (payload : String) :
    (s.applyActivityResolution a input payload).2.executions = s.executions ∧
      (s.applyActivityResolution a input payload).2.events = s.events := by
  rw [applyActivityResolution]
  dsimp only
  split <;> exact ⟨rfl, rfl⟩

theorem Store.rows_resolveExecutionActivity {id : UUID} {input : ResolveActivityInput}
    (hids : (s.executions.map (·.id)).Nodup)
    (h : s.resolveExecutionActivity cfg sid id input = .ok r) : StoreChanges R s r.2 := by
  obtain ⟨_, _, h⟩ := of_bind h
  obtain ⟨a, _, h⟩ := of_bind h
  obtain ⟨isDuplicate, _, h⟩ := of_bind h
  split at h
  · cases h
    exact .refl R _
  obtain ⟨e, he, h⟩ := of_bind h
  obtain ⟨⟨e1, s1⟩, h1, h⟩ := of_bind h
  cases h
  obtain ⟨hsame, hevs⟩ := rows_applyActivityResolution s a input (cfg.encode input)
  have hmem := mem_of_findExecution he
  obtain ⟨_, _, htk⟩ := rows_appendExecutionEvent (R := R)
    (s := (s.applyActivityResolution a input (cfg.encode input)).2) h1
  have htk := htk e ((tracks_of_mem hids hmem).frame hsame)
  have hrows := (changes_appendExecutionEvent (R := R) ((counts_of_mem hids hmem).frame hsame) h1).1
  refine ((StoreChanges.of_eq hsame hevs).trans hrows).trans ?_
  rw [restoreReconciledExecution]
  split
  · exact .refl R _
  rename_i hreconciling
  split
  · exact .refl R _
  · refine changes_updateExecution (fun row hrow _ hid => .running (.inr ?_)) fun _ => rfl
    rw [(htk row hrow hid).2]
    exact not_not.1 hreconciling

end Transactions

end Peen.Executions
