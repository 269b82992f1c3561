import Peen.Session.ExecutionSteps

/-!
# Fencing of turn holders

A restore that gives out another lease for a turn replaces the lease that was given out for it before.
-/

namespace Peen.Sessions

open List Tables CompleteActivityInput
open Relation (ReflTransGen)
open Lts
open Executions (Execution ExecutionActivity ActivityLease ExecutionFinishHolder RowChanges)
open Executions.RowUpdates

/-! ## Replaced leases -/

def Entry.restored? : Entry → Option Lease
  | .restored _ lease => some lease
  | _ => none

/-- The leases `RestoreExecutionTurn` returned, the latest first. -/
def World.restored (w : World) : List Lease := w.history.filterMap Entry.restored?

/-- A restore returned another lease for the turn of this one, later. -/
def Replaced (restored : List Lease) (lease : Lease) : Prop :=
  ∃ newer, newer.turnID = lease.turnID ∧ newer ≠ lease ∧ [newer, lease].Sublist restored

section Replaced
variable {w w' : World}

theorem Replaced.mem (h : Replaced restored lease) : lease ∈ restored := by
  obtain ⟨newer, _, _, hsub⟩ := h
  exact hsub.subset (mem_cons_of_mem _ (mem_singleton_self _))

/-- A lease stays replaced. -/
theorem Replaced.append (h : Replaced restored lease) (told : List Lease) :
    Replaced (told ++ restored) lease := by
  obtain ⟨newer, hturn, hne, hsub⟩ := h
  exact ⟨newer, hturn, hne, hsub.trans (sublist_append_right _ _)⟩

/-- A lease is replaced by a later one for its turn. -/
theorem replaced_cons : Replaced (l :: restored) lease ↔
    Replaced restored lease ∨ lease ∈ restored ∧ l.turnID = lease.turnID ∧ l ≠ lease := by
  refine ⟨?_, ?_⟩
  · intro h
    obtain ⟨newer, hturn, hne, hsub⟩ := h
    rcases sublist_cons_iff.1 hsub with hsub | ⟨r, hr, hsub⟩
    · exact .inl ⟨newer, hturn, hne, hsub⟩
    · cases hr
      exact .inr ⟨singleton_sublist.1 hsub, hturn, hne⟩
  · intro h
    rcases h with h | ⟨hmem, hturn, hne⟩
    · exact h.append [l]
    · exact ⟨l, hturn, hne, (singleton_sublist.2 hmem).cons_cons l⟩

theorem World.restored_append {told : List Entry} (h : w'.history = told ++ w.history) :
    w'.restored = told.filterMap Entry.restored? ++ w.restored := by
  rw [World.restored, h, filterMap_append]
  rfl

theorem World.issued_append {told : List Entry} (h : w'.history = told ++ w.history) :
    w'.issued = told.filterMap Entry.lease? ++ w.issued := by
  rw [World.issued, h, filterMap_append]
  rfl

theorem World.mem_issued_of_restored (h : lease ∈ w.restored) : lease ∈ w.issued := by
  obtain ⟨entry, hent, hls⟩ := mem_filterMap.1 h
  refine mem_filterMap.2 ⟨entry, hent, ?_⟩
  cases entry <;> cases hls
  rfl

theorem restored_of_plain {told : List Entry} (h : ∀ entry ∈ told, entry.lease? = none) :
    told.filterMap Entry.restored? = [] := by
  refine filterMap_eq_nil_iff.2 fun entry hent => ?_
  have hnone := h entry hent
  cases entry <;> first | rfl | cases hnone

theorem issued_of_plain {told : List Entry} (h : ∀ entry ∈ told, entry.lease? = none) :
    told.filterMap Entry.lease? = [] :=
  filterMap_eq_nil_iff.2 h

theorem World.not_issued_of_fresh (h : w.fresh leaseID = true) :
    leaseID ≠ UUID.nil ∧ (∀ l ∈ w.issued, l.id ≠ leaseID) ∧ ∀ l ∈ w.pending, l.id ≠ leaseID := by
  obtain ⟨hnil, hnew⟩ := Bool.and_eq_true_iff.1 h
  rw [Bool.not_eq_true', any_eq_false] at hnew
  refine ⟨bne_iff_ne.1 hnil, ?_, ?_⟩
  · intro l hl hid
    exact hnew l (mem_append_left _ hl) (beq_iff_eq.2 hid)
  · intro l hl hid
    exact hnew l (mem_append_right _ hl) (beq_iff_eq.2 hid)

theorem World.not_replaced_of_fresh (h : w.fresh leaseID = true) :
    leaseID ≠ UUID.nil ∧ ¬ Replaced w.restored ⟨leaseID, turnID⟩ := by
  obtain ⟨hnil, hiss, _⟩ := World.not_issued_of_fresh h
  exact ⟨hnil, fun hrep => hiss _ (World.mem_issued_of_restored hrep.mem) rfl⟩

end Replaced

/-! ## Root executions -/

/-- Ids are used once, and a turn has one root. -/
structure Rooted (rows : List Execution) : Prop where
  ids : (rows.map (·.id)).Nodup
  roots : ∀ e ∈ rows, ∀ e' ∈ rows, e.kind = .root → e'.kind = .root →
    e.rootTurnID = e'.rootTurnID → e.id = e'.id

section Rooted
theorem Rooted.changes (h : Rooted rows) (hch : RowChanges R rows rows') : Rooted rows' := by
  refine ⟨hch.ids ▸ h.ids, ?_⟩
  intro e he e' he' hroot hroot' hturn
  obtain ⟨o, ho, hup⟩ := hch.exists_left he
  obtain ⟨o', ho', hup'⟩ := hch.exists_left he'
  have hl := Executions.Execution.lineage_of_identity (identity hup)
  have hl' := Executions.Execution.lineage_of_identity (identity hup')
  rw [hl.1, hl'.1]
  exact h.roots o ho o' ho' (hl.2.1.symm.trans hroot) (hl'.2.1.symm.trans hroot')
    (hl.2.2.symm.trans (hturn.trans hl'.2.2))

theorem Rooted.insert {s : Tables} (h : Rooted s.executions.executions) (hrow : Insertable s row) :
    Rooted (s.executions.executions ++ [row]) := by
  refine ⟨?_, ?_⟩
  · exact nodup_snoc h.ids hrow.id
  · intro e he e' he' hroot hroot' hturn
    rcases mem_append.1 he with he | he <;> rcases mem_append.1 he' with he' | he'
    · exact h.roots e he e' he' hroot hroot' hturn
    · cases mem_singleton.1 he'
      exact absurd hturn (hrow.root hroot' e he hroot)
    · cases mem_singleton.1 he
      exact absurd hturn.symm (hrow.root hroot e' he' hroot')
    · rw [mem_singleton.1 he, mem_singleton.1 he']

theorem ExecutionsStep.rooted (h : ExecutionsStep cfg a w w' told) (hw : Rooted w.rows) :
    Rooted w'.rows := by
  cases h with
  | changed R reached _ rows => exact hw.changes rows
  | created row inherited rows => exact (hw.insert inherited.insertable).changes rows

theorem ExecutionsStep.kept (h : ExecutionsStep cfg a w w' told) {e : Execution} (he : e ∈ w.rows) :
    ∃ e' ∈ w'.rows, e'.identity = e.identity := by
  obtain ⟨_, e', he', hup⟩ := h.exists_right he
  exact ⟨e', he', identity hup⟩

end Rooted

/-! ## The invariant -/

def ExecutionTurnLease.lease (row : ExecutionTurnLease) : Lease := ⟨row.leaseID, row.turnID⟩

def ActiveTurn.lease (active : ActiveTurn) : Lease := ⟨active.leaseID, active.turnID⟩

/-- The row is of the root of its turn. -/
def Owned (rows : List Execution) (row : ExecutionTurnLease) : Prop :=
  ∃ e ∈ rows, e.id = row.executionID ∧ e.kind = .root ∧ e.rootTurnID = row.turnID

/-- A stored holder for each turn that was restored, which is the last lease restored for it. -/
structure Stored (rows : List Execution) (leases : List ExecutionTurnLease)
    (restored : List Lease) : Prop where
  keys : (leases.map (·.executionID)).Nodup
  owned : ∀ row ∈ leases, Owned rows row
  current : ∀ row ∈ leases, row.lease ∈ restored ∧ ¬ Replaced restored row.lease
  covers : ∀ lease ∈ restored, ∃ row ∈ leases, row.turnID = lease.turnID ∧
    (row.leaseID = lease.id ∨ Replaced restored lease)

/-- A lease that is reserved for a turn that is not there yet is the active one. -/
structure Reserved (w : World) : Prop where
  nodup : w.pending.Nodup
  active : ∀ lease ∈ w.pending, (∀ t ∈ w.tables.turns, t.id ≠ lease.turnID) →
    w.active = some ⟨lease.turnID, lease.id⟩ ∧ lease.id ≠ UUID.nil ∧
      ∀ l ∈ w.issued, l.id ≠ lease.id

/-- The active lease, the stored rows and the leases that were returned agree. -/
structure Fenced (w : World) : Prop where
  rooted : Rooted w.rows
  stored : Stored w.rows w.tables.turnLeases w.restored
  active : ∀ held, w.active = some held →
    held.leaseID ≠ UUID.nil ∧ ¬ Replaced w.restored held.lease
  reserved : Reserved w

theorem fenced_new : Fenced World.new where
  rooted := ⟨.nil, nofun⟩
  stored := ⟨.nil, nofun, nofun, nofun⟩
  active := nofun
  reserved := ⟨.nil, nofun⟩

section Stored
variable {row : ExecutionTurnLease}

theorem Owned.kept (h : Owned rows row)
    (hkept : ∀ e ∈ rows, ∃ e' ∈ rows', e'.identity = e.identity) : Owned rows' row := by
  obtain ⟨e, he, hid, hroot, hturn⟩ := h
  obtain ⟨e', he', hident⟩ := hkept e he
  have hl := Executions.Execution.lineage_of_identity hident
  exact ⟨e', he', hl.1.trans hid, hl.2.1.trans hroot, hl.2.2.trans hturn⟩

theorem Stored.kept (h : Stored rows leases restored)
    (hkept : ∀ e ∈ rows, ∃ e' ∈ rows', e'.identity = e.identity) : Stored rows' leases restored :=
  ⟨h.keys, fun row hrow => (h.owned row hrow).kept hkept, h.current, h.covers⟩

theorem Owned.turn (h : Owned rows row) (hroo : Rooted rows) (he : e ∈ rows)
    (hid : row.executionID = e.id) : row.turnID = e.rootTurnID := by
  obtain ⟨e', he', hid', _, hturn⟩ := h
  rw [← hturn, Executions.eq_of_id hroo.ids he' he (hid'.trans hid)]

theorem Owned.execution (h : Owned rows row) (hroo : Rooted rows) (he : e ∈ rows)
    (hroot : e.kind = .root) (hturn : row.turnID = e.rootTurnID) : row.executionID = e.id := by
  obtain ⟨e', he', hid', hroot', hturn'⟩ := h
  exact hid'.symm.trans (hroo.roots e' he' e he hroot' hroot (hturn'.trans hturn))

theorem Stored.row_eq (h : Stored rows leases restored) (hrow : row ∈ leases)
    (hrow' : row' ∈ leases) (hid : row.executionID = row'.executionID) :
    row = row' :=
  inj_on_of_nodup_map h.keys hrow hrow' hid

theorem Tables.turnLease?_mem {s : Tables} (h : s.turnLease? executionID = some row) :
    row ∈ s.turnLeases ∧ row.executionID = executionID :=
  ⟨mem_of_find?_eq_some h, beq_iff_eq.1 (find?_some h :)⟩

theorem Tables.turnLease?_none {s : Tables} (h : s.turnLease? executionID = none)
    (hrow : row ∈ s.turnLeases) : row.executionID ≠ executionID := fun hid =>
  find?_eq_none.1 h row hrow (beq_iff_eq.2 hid)

/-- **A restore keeps the stored holders**: the row of the execution names the lease it returns,
and every other lease that was returned for its turn is replaced. -/
theorem Stored.restore (h : Stored rows leases restored) (hroo : Rooted rows) (he : e ∈ rows)
    (hroot : e.kind = .root) {leases' : List ExecutionTurnLease} (hid : row.executionID = e.id)
    (hturn : row.turnID = e.rootTurnID) (hkeys : (leases'.map (·.executionID)).Nodup)
    (hmem : ∀ r, r ∈ leases' ↔ r = row ∨ r ∈ leases ∧ r.executionID ≠ e.id)
    (hcurrent : ¬ Replaced restored row.lease) : Stored rows leases' (row.lease :: restored) := by
  refine ⟨hkeys, ?_, ?_, ?_⟩
  · intro r hr
    rcases (hmem r).1 hr with rfl | ⟨hr, _⟩
    · exact ⟨e, he, hid.symm, hroot, hturn.symm⟩
    · exact h.owned r hr
  · intro r hr
    rcases (hmem r).1 hr with rfl | ⟨hr, hoth⟩
    · refine ⟨mem_cons_self, fun hrep => ?_⟩
      rcases replaced_cons.1 hrep with hrep | ⟨_, _, hne⟩
      · exact hcurrent hrep
      · exact hne rfl
    · refine ⟨mem_cons_of_mem _ (h.current r hr).1, fun hrep => ?_⟩
      rcases replaced_cons.1 hrep with hrep | ⟨_, hsame, _⟩
      · exact (h.current r hr).2 hrep
      · exact hoth ((h.owned r hr).execution hroo he hroot (hsame.symm.trans hturn))
  · intro lease hls
    by_cases hsame : lease = row.lease
    · exact ⟨row, (hmem row).2 (.inl rfl), hsame ▸ rfl, .inl (hsame ▸ rfl)⟩
    have hrst : lease ∈ restored := (mem_cons.1 hls).resolve_left hsame
    by_cases hof : row.turnID = lease.turnID
    · exact ⟨row, (hmem row).2 (.inl rfl), hof,
        .inr (replaced_cons.2 (.inr ⟨hrst, hof, fun h => hsame h.symm⟩))⟩
    · obtain ⟨r, hr, hrturn, hcovers⟩ := h.covers lease hrst
      refine ⟨r, (hmem r).2 (.inr ⟨hr, fun hrid => hof ?_⟩), hrturn,
        hcovers.imp_right fun hrep => hrep.append [row.lease]⟩
      exact hturn.trans (((h.owned r hr).turn hroo he hrid).symm.trans hrturn)

theorem Tables.saveTurnLease_rows {s : Tables} (hkeys : (s.turnLeases.map (·.executionID)).Nodup)
    (h : s.saveTurnLease row = .ok s') : (s'.turnLeases.map (·.executionID)).Nodup ∧
      ∀ r, r ∈ s'.turnLeases ↔ r = row ∨ r ∈ s.turnLeases ∧ r.executionID ≠ row.executionID := by
  obtain ⟨leases, rfl, ⟨hsome, rfl⟩ | ⟨hnone, rfl⟩⟩ := saveTurnLease_ok h
  · obtain ⟨stored, hsto⟩ := Option.isSome_iff_exists.1 hsome
    obtain ⟨hmem, hid⟩ := turnLease?_mem hsto
    refine ⟨?_, fun r => ⟨fun hr => ?_, fun hr => ?_⟩⟩
    · have hsame : (s.turnLeases.map fun r => if r.executionID == row.executionID then row else r).map
          (·.executionID) = s.turnLeases.map (·.executionID) := by
        rw [map_map]
        refine map_congr_left fun r _ => ?_
        rw [Function.comp_apply]
        split
        next heq =>
          exact (beq_iff_eq.1 heq).symm
        · rfl
      exact hsame ▸ hkeys
    · obtain ⟨o, ho, heq⟩ := mem_map.1 hr
      split at heq
      · exact .inl heq.symm
      next hne =>
        exact .inr ⟨heq ▸ ho, heq ▸ fun hid => hne (beq_iff_eq.2 hid)⟩
    · rcases hr with rfl | ⟨hr, hne⟩
      · exact mem_map.2 ⟨stored, hmem, if_pos (beq_iff_eq.2 hid)⟩
      · exact mem_map.2 ⟨r, hr, if_neg fun hid => hne (beq_iff_eq.1 hid)⟩
  · refine ⟨?_, fun r => ⟨fun hr => ?_, fun hr => ?_⟩⟩
    · exact nodup_snoc hkeys fun o ho => turnLease?_none hnone ho
    · rcases mem_snoc.1 hr with hr | hr
      · exact .inr ⟨hr, turnLease?_none hnone hr⟩
      · exact .inl hr
    · rcases hr with rfl | ⟨hr, _⟩
      · exact mem_concat_self
      · exact mem_append_left _ hr

end Stored

/-! ## Restores -/

theorem Tables.turn_of_admissions {s s' : Tables} (h : s'.admissions = s.admissions) {turnID : UUID}
    (hturn : ∃ t ∈ s.turns, t.id = turnID) : ∃ t ∈ s'.turns, t.id = turnID := by
  obtain ⟨t, ht, hid⟩ := hturn
  have hmem : (t.id, t.stopRevision) ∈ s'.admissions := h ▸ mem_map_of_mem ht
  obtain ⟨t', ht', heq⟩ := mem_map.1 hmem
  exact ⟨t', ht', (congrArg Prod.fst heq).trans hid⟩

section Restore
variable {w w' : World} {newLeaseID : UUID} {input : RestoreExecutionTurnInput}
  {execution : Execution} {lease : Lease}

/-- The lease of a restore: the active one of a turn without a holder, the stored one for its owner,
or a new one where there is no holder or the caller presents its lease. -/
inductive Chosen (w : World) (execution : Execution) (input : RestoreExecutionTurnInput)
    (newLeaseID : UUID) (lease : Lease) : Prop
  | adopted (held : ActiveTurn) (active : w.active = some held) (same : held.lease = lease)
      (unheld : w.tables.turnLease? execution.id = none)
  | reused (row : ExecutionTurnLease) (stored : w.tables.turnLease? execution.id = some row)
      (same : row.leaseID = lease.id) (valid : row.leaseID ≠ UUID.nil)
      (owner : row.ownerGenerationID = input.ownerGenerationID)
  | drawn (new : lease.id = newLeaseID)
      (presented : ∀ row, w.tables.turnLease? execution.id = some row →
        input.previousLeaseID = row.leaseID)

theorem Tables.turn?_id {s : Tables} (h : s.turn? turnID = some turn) :
    turn.id = turnID := (mem_of_turn? h).2

theorem Restored.chosen_cases
    (h : Restored cfg w.tables w.active executionID input newLeaseID execution turn lease s') :
    lease.turnID = execution.rootTurnID ∧ Chosen w execution input newLeaseID lease := by
  have hturn : turn.id = execution.rootTurnID := turn?_id h.rootTurn.1
  have hcho := h.chosen
  unfold chooseExecutionTurnLease at hcho
  split at hcho
  next hnone =>
    cases hcho
    unfold initialTurnLease
    split
    · exact ⟨hturn, .drawn rfl fun row hrow => nomatch hnone.symm.trans hrow⟩
    next held hheld =>
      split
      · refine ⟨hturn, .adopted held hheld ?_ hnone⟩
        rw [ActiveTurn.lease, h.session held hheld]
      · exact ⟨hturn, .drawn rfl fun row hrow => nomatch hnone.symm.trans hrow⟩
  next row hsto =>
    obtain ⟨hval, hcho⟩ := of_check hcho
    split at hcho
    next hreuse =>
      cases hcho
      refine ⟨hturn, .reused row hsto rfl (fun hnil => hval (.inl hnil)) ?_⟩
      unfold mayReuseExecutionTurnHolder at hreuse
      simp only [Bool.and_eq_true, beq_iff_eq] at hreuse
      exact hreuse.1.1.1.1
    obtain ⟨hprs, hcho⟩ := of_check hcho
    cases hcho
    refine ⟨hturn, .drawn rfl fun r hr => ?_⟩
    cases hsto.symm.trans hr
    exact Decidable.not_not.1 hprs

theorem executionTurnLeaseMatches_ok (h : executionTurnLeaseMatches stored turn lease = true) :
    ∃ row, stored = some row ∧ row.leaseID = lease.id := by
  obtain ⟨hany, _⟩ := Bool.and_eq_true_iff.1 h
  cases stored with
  | none => cases hany
  | some row => exact ⟨row, rfl, beq_iff_eq.1 hany⟩

theorem Restored.stored (hw : Fenced w)
    (h : Restored cfg w.tables w.active executionID input newLeaseID execution turn lease s')
    (hls : ¬ Replaced w.restored lease) : Stored w.rows s'.turnLeases (lease :: w.restored) := by
  have he := Executions.Store.mem_of_findExecution h.found
  have hturn := h.chosen_cases.1
  rcases h.written with ⟨rfl, hmat, _⟩ | ⟨leases, e, executions, hsave, _, rfl⟩
  · obtain ⟨row, hrow, hid⟩ := executionTurnLeaseMatches_ok hmat
    obtain ⟨hmem, hof⟩ := turnLease?_mem hrow
    have hrowTurn := (hw.stored.owned row hmem).turn hw.rooted he hof
    have hsame : row.lease = lease := by
      rw [ExecutionTurnLease.lease, hid, hrowTurn, ← hturn]
    rw [← hsame] at hls ⊢
    refine hw.stored.restore hw.rooted he h.restorable.1 hof hrowTurn hw.stored.keys
      (fun r => ⟨fun hr => ?_, fun hr => ?_⟩) hls
    · by_cases hrid : r.executionID = execution.id
      · exact .inl (hw.stored.row_eq hr hmem (hrid.trans hof.symm))
      · exact .inr ⟨hr, hrid⟩
    · rcases hr with rfl | ⟨hr, _⟩
      · exact hmem
      · exact hr
  · obtain ⟨hkeys, hmem⟩ := saveTurnLease_rows hw.stored.keys hsave
    have hsame : (holderRow execution lease input).lease = lease := by
      rw [ExecutionTurnLease.lease, holderRow, ← hturn]
    rw [(others_restoreRootTurnRow cfg _ turn _).turnLeases]
    rw [← hsame] at hls ⊢
    exact hw.stored.restore hw.rooted he h.restorable.1 rfl rfl hkeys hmem hls

theorem Restored.not_replaced (hw : Fenced w) (hfr : w.fresh newLeaseID = true)
    (h : Restored cfg w.tables w.active executionID input newLeaseID execution turn lease s') :
    lease.id ≠ UUID.nil ∧ ¬ Replaced w.restored lease := by
  have he := Executions.Store.mem_of_findExecution h.found
  obtain ⟨hturn, hcho⟩ := h.chosen_cases
  cases hcho with
  | adopted held active same unheld =>
    rw [← same]
    exact hw.active held active
  | reused row stored same valid owner =>
    obtain ⟨hmem, hof⟩ := turnLease?_mem stored
    have hsame : row.lease = lease := by
      rw [ExecutionTurnLease.lease, same, (hw.stored.owned row hmem).turn hw.rooted he hof, ← hturn]
    rw [← hsame]
    exact ⟨valid, (hw.stored.current row hmem).2⟩
  | drawn new presented =>
    have hsame : lease = ⟨newLeaseID, lease.turnID⟩ := by rw [← new]
    rw [hsame]
    exact World.not_replaced_of_fresh hfr

variable {boundary : Except Err Unit}

theorem AcquiredDeferred.turnLeases (h : AcquiredDeferred cfg w.tables w.active turnID inboxID start
    newLeaseID newID message s') : s'.turnLeases = w.tables.turnLeases := by
  rcases h.written with ⟨_, _, _, rfl⟩ | ⟨_, hadm⟩
  · rfl
  · exact (admitTurn_ok hadm).2.2.others.turnLeases

@[simp] theorem Tables.deferredLease_turnID (active : Option ActiveTurn) (turnID leaseID : UUID) :
    (deferredLease active turnID leaseID).turnID = turnID := by
  cases active <;> rfl

theorem AcquiredDeferred.turn_there (h : AcquiredDeferred cfg w.tables w.active turnID inboxID start
    newLeaseID newID message s') : ∃ t ∈ s'.turns, t.id = turnID := by
  rcases h.written with ⟨turn, hturn, _, rfl⟩ | ⟨_, hadm⟩
  · exact mem_updateTurn ⟨turn, mem_of_turn? hturn⟩ turnID _ fun _ => rfl
  · exact turn_of_admissions (admitTurn_ok hadm).2.2.admissions ⟨_, mem_concat_self, rfl⟩

theorem AcquiredDeferred.not_replaced (hw : Fenced w) (hfr : w.fresh newLeaseID = true)
    (h : AcquiredDeferred cfg w.tables w.active turnID inboxID start newLeaseID newID message s')
    (hls : lease = deferredLease w.active turnID newLeaseID) :
    lease.id ≠ UUID.nil ∧ ¬ Replaced w.restored lease := by
  rw [hls]
  cases hact : w.active with
  | none => exact World.not_replaced_of_fresh hfr
  | some held =>
    rw [← h.session held hact]
    exact hw.active held hact

end Restore

/-! ## Runs -/

section Steps
theorem Frame.reserved (h : Frame a w w') (hw : Reserved w) : Reserved w' := by
  obtain ⟨told, htold, hpln⟩ := h.told
  have hiss : w'.issued = w.issued := by
    rw [World.issued_append htold, issued_of_plain fun entry hent => (hpln entry hent).lease?]
    rfl
  refine ⟨h.pending ▸ hw.nodup, ?_⟩
  intro lease hls hmis
  have hmis' : ∀ t ∈ w.tables.turns, t.id ≠ lease.turnID := by
    intro t ht hid
    obtain ⟨t', ht', hid'⟩ := turn_of_admissions h.admissions ⟨t, ht, hid⟩
    exact hmis t' ht' hid'
  obtain ⟨hact, hnil, hnew⟩ := hw.active lease (h.pending ▸ hls) hmis'
  refine ⟨?_, hnil, hiss ▸ hnew⟩
  rcases h.active with hsame | ⟨_, hreason⟩
  · exact hsame.trans hact
  · rcases hreason _ hact with ⟨l, hl, hid⟩ | ⟨t, ht, hid⟩
    · exact absurd hid (hnew l hl)
    · exact absurd hid (hmis' t ht)

theorem Frame.fenced (h : Frame a w w') (hw : Fenced w)
    (hkept : ∀ e ∈ w.rows, ∃ e' ∈ w'.rows, e'.identity = e.identity) (hroo : Rooted w'.rows) :
    Fenced w' := by
  obtain ⟨told, htold, hpln⟩ := h.told
  have hrst : w'.restored = w.restored := by
    rw [World.restored_append htold, restored_of_plain fun entry hent => (hpln entry hent).lease?]
    rfl
  refine ⟨hroo, ?_, ?_, h.reserved hw.reserved⟩
  · rw [h.turnLeases, hrst]
    exact hw.stored.kept hkept
  · intro held hheld
    rw [hrst]
    rcases h.active with hsame | ⟨hnone, _⟩
    · exact hw.active held (hsame.symm.trans hheld)
    · cases hnone.symm.trans hheld

theorem Change.turn_kept (h : Change s s') (hturn : ∃ t ∈ s.turns, t.id = turnID) :
    ∃ t ∈ s'.turns, t.id = turnID := by
  cases h with
  | aside _ same => exact same.turns ▸ hturn
  | openTurn =>
    obtain ⟨t, ht, hid⟩ := hturn
    exact ⟨t, mem_append_left _ ht, hid⟩
  | resumeTurn updated f keeps => exact mem_updateTurn hturn updated f keeps
  | write _ written => exact turn_of_admissions written.admissions hturn

theorem Changes.turn_kept (h : Changes s s') (hturn : ∃ t ∈ s.turns, t.id = turnID) :
    ∃ t ∈ s'.turns, t.id = turnID := by
  induction h with
  | refl => exact hturn
  | tail _ hchg ih => exact hchg.turn_kept ih

theorem act_turn_kept (h : act cfg w a = .ok w') (hturn : ∃ t ∈ w.tables.turns, t.id = turnID) :
    ∃ t ∈ w'.tables.turns, t.id = turnID := by
  rcases act_changes h with hch | ⟨_, _, _, _, _, rfl, _, hsts⟩
  · exact hch.turn_kept hturn
  · obtain ⟨t, executions, hsv, heq⟩ := hsts.stored
    obtain ⟨_, _, _, _, _, rfl⟩ := saveActivityCompaction_ok hsv
    rw [heq]
    exact hturn

section
variable (hw : Fenced w)
include hw

theorem Fenced.after (h : act cfg w a = .ok w') : Rooted w'.rows ∧
    (∀ e ∈ w.rows, ∃ e' ∈ w'.rows, e'.identity = e.identity) ∧
    ∀ {turnID}, (∀ t ∈ w'.tables.turns, t.id ≠ turnID) → ∀ t ∈ w.tables.turns, t.id ≠ turnID := by
  obtain ⟨told, _, hrows, _⟩ := executions_act hw.rooted.ids h
  refine ⟨hrows.rooted hw.rooted, fun e he => hrows.kept he, fun hmis t ht hid => ?_⟩
  obtain ⟨t', ht', hid'⟩ := act_turn_kept h ⟨t, ht, hid⟩
  exact hmis t' ht' hid'

theorem fenced_reserve (hfr : w.fresh leaseID = true)
    (h : act cfg w (.reserveTurn turnID leaseID) = .ok w') : Fenced w' := by
  obtain ⟨hidle, h⟩ := of_check h
  cases h
  refine ⟨hw.rooted, hw.stored, ?_, ?_, ?_⟩
  · intro held hheld
    cases hheld
    exact World.not_replaced_of_fresh (w := w) hfr
  · exact nodup_cons.2
      ⟨fun hmem => (World.not_issued_of_fresh hfr).2.2 _ hmem rfl, hw.reserved.nodup⟩
  · intro lease hls hmis
    rcases mem_cons.1 hls with rfl | hls
    · obtain ⟨hnil, hiss, _⟩ := World.not_issued_of_fresh hfr
      exact ⟨rfl, hnil, hiss⟩
    · rw [(hw.reserved.active lease hls hmis).1] at hidle
      exact absurd rfl hidle

theorem fenced_admit (hpend : lease ∈ w.pending)
    (h : act cfg w (.admitTurn lease input newID) = .ok w') : Fenced w' := by
  obtain ⟨hroo, hkept, hts⟩ := hw.after h
  obtain ⟨s, hs, h⟩ := of_bind h
  cases h
  obtain ⟨_, hfr, hwr⟩ := admitTurn_ok hs
  refine ⟨hroo, ?_, hw.active, hw.reserved.nodup.erase lease, ?_⟩
  · show Stored _ s.turnLeases w.restored
    rw [hwr.others.turnLeases]
    exact hw.stored.kept hkept
  · intro l hl hmis
    have hact := (hw.reserved.active lease hpend hfr).1
    have hact' := (hw.reserved.active l (mem_of_mem_erase hl) (hts hmis)).1
    have hsame : l.turnID = lease.turnID :=
      congrArg ActiveTurn.turnID (Option.some.inj (hact'.symm.trans hact))
    -- The turn of the lease is there now.
    have hthere : ∃ t ∈ s.turns, t.id = lease.turnID :=
      turn_of_admissions hwr.admissions ⟨_, mem_concat_self, rfl⟩
    obtain ⟨t, ht, hid⟩ := hthere
    exact absurd (hid.trans hsame.symm) (hmis t ht)

theorem fenced_abandon (h : act cfg w (.abandonTurn lease) = .ok w') : Fenced w' := by
  cases h
  refine ⟨hw.rooted, hw.stored, ?_, hw.reserved.nodup.erase lease, ?_⟩
  · intro held hheld
    refine hw.active held ?_
    obtain ⟨_, hheld⟩ := of_unless hheld
    exact hheld
  · intro l hl hmis
    obtain ⟨hne, hmem⟩ := (hw.reserved.nodup.mem_erase_iff).1 hl
    obtain ⟨hact, hnil, hiss⟩ := hw.reserved.active l hmem hmis
    refine ⟨?_, hnil, hiss⟩
    unfold releaseTurn
    rw [hact, if_neg]
    intro hsame
    cases l
    cases hsame
    exact hne rfl

theorem fenced_restore (hfr : w.fresh newLeaseID = true)
    (h : act cfg w (.restoreExecutionTurn executionID input newLeaseID) = .ok w') : Fenced w' := by
  obtain ⟨hroo, hkept, hts⟩ := hw.after h
  obtain ⟨⟨lease, s⟩, hs, h⟩ := of_bind h
  cases h
  obtain ⟨execution, turn, hs⟩ := restoreExecutionTurn_ok hs
  obtain ⟨hnil, hls⟩ := hs.not_replaced hw hfr
  refine ⟨hroo, (hs.stored hw hls).kept hkept, ?_, hw.reserved.nodup, ?_⟩
  · intro held hheld
    cases hheld
    refine ⟨hnil, fun hrep => ?_⟩
    rcases replaced_cons.1 hrep with hrep | ⟨_, _, hne⟩
    · exact hls hrep
    · exact hne rfl
  · intro l hl hmis
    have hact := (hw.reserved.active l hl (hts hmis)).1
    obtain ⟨ht, hid⟩ := mem_of_turn? hs.rootTurn.1
    exact absurd (hs.session _ hact).symm (hts hmis turn ht)

theorem fenced_acquireDeferred (hfr : w.fresh newLeaseID = true)
    (h : act cfg w (.acquireDeferred boundary inboxID input newLeaseID newID) = .ok w') :
    Fenced w' := by
  obtain ⟨hroo, hkept, hts⟩ := hw.after h
  obtain ⟨⟨lease, s⟩, hs, h⟩ := of_bind h
  cases h
  obtain ⟨hls, message, hs⟩ := acquireDeferredExecutionTurn_ok hs
  have hrst : World.restored { w.commit s (.acquired lease :: admittedEntries w.tables
      lease.turnID) with active := some ⟨lease.turnID, lease.id⟩ } = w.restored := by
    unfold admittedEntries
    split <;> rfl
  refine ⟨hroo, ?_, ?_, hw.reserved.nodup, ?_⟩
  · rw [hrst]
    show Stored _ s.turnLeases w.restored
    rw [hs.turnLeases]
    exact hw.stored.kept hkept
  · intro held hheld
    cases hheld
    rw [hrst]
    exact hs.not_replaced hw hfr hls
  · intro l hl hmis
    have hact := (hw.reserved.active l hl (hts hmis)).1
    obtain ⟨t, ht, hid⟩ := hs.turn_there
    exact absurd (hid.trans (hs.session _ hact).symm) (hmis t ht)

/-- **Every call keeps the fence.** -/
theorem act_fenced (hpr : w.presents a = true) (h : act cfg w a = .ok w') : Fenced w' := by
  cases hmv : a.movesHolder with
  | false =>
    obtain ⟨hroo, hkept, _⟩ := hw.after h
    exact (act_frame hpr h hmv).fenced hw hkept hroo
  | true =>
    cases a with
    | reserveTurn => exact fenced_reserve hw hpr h
    | admitTurn => exact fenced_admit hw (contains_iff_mem.1 hpr) h
    | abandonTurn => exact fenced_abandon hw h
    | restoreExecutionTurn => exact fenced_restore hw hpr h
    | acquireDeferred => exact fenced_acquireDeferred hw hpr h
    | _ => cases hmv

theorem exec_fenced (h : exec (step cfg) w actions = some w') : Fenced w' := by
  refine Always.last (Always.of_step (I := Fenced) ?_ hw) h
  intro w a w' hw h
  obtain ⟨hpr, h⟩ := step_eq_some h
  exact act_fenced hw hpr h

theorem exec_history (h : exec (step cfg) w actions = some w') :
    ∃ told, w'.history = told ++ w.history := by
  induction actions generalizing w with
  | nil =>
    cases h
    exact ⟨[], rfl⟩
  | cons a actions ih =>
    obtain ⟨u, hu, h⟩ := Option.bind_eq_some_iff.1 h
    obtain ⟨hpr, hu⟩ := step_eq_some hu
    obtain ⟨told, htold, _⟩ := executions_act hw.rooted.ids hu
    obtain ⟨later, hlat⟩ := ih (act_fenced hw hpr hu) h
    exact ⟨later ++ told, by rw [hlat, htold, append_assoc]⟩

end

end Steps

/-! ## Writes under a lease -/

/-- The lease ids a completion presents: that of its projection and that of its result. -/
def CompleteActivityInput.leaseIDs (input : CompleteActivityInput) : List UUID :=
  (input.rootProjection.map (·.holder.leaseID)).toList ++
    ((input.finish.bind (·.rootHolder)).map (·.leaseID)).toList

def World.writeLeases (cfg : Config) (w : World) : Action → List Lease
  | .admitTurn lease _ _ | .appendCheckpoint lease _ _ | .finalizeTurn lease _ _
  | .acceptMessage _ _ lease _ _ _ | .deliverMessages lease _ _ _ => [lease]
  | .acquireDeferred _ inboxID _ newLeaseID _ =>
    [deferredLease w.active (deferredTurnID cfg inboxID) newLeaseID]
  | .complete _ lease input _ =>
    match w.tables.executions.activityForLease cfg.sessionID lease with
    | .ok (_, execution) => input.leaseIDs.map fun id => ⟨id, execution.rootTurnID⟩
    | .error _ => []
  | _ => []

section Accepted
variable {cfg : Config} {a : Action} {lease : Lease}

def SameMessages (s s' : Tables) : Prop := s'.turns = s.turns ∧ s'.messages = s.messages

/-- The lease a call other than a completion writes under is the accepted one, or becomes it where
none is accepted. -/
theorem Fenced.presented (hw : Fenced w) (hpr : w.presents a = true)
    (h : act cfg w a = .ok w') (hls : lease ∈ w.writeLeases cfg a) :
    hasLease w.active lease ∨
      (w.active = none ∧ hasLease w'.active lease ∧ w.fresh lease.id = true) ∨
      ∃ answers claim input newID, a = .complete answers claim input newID := by
  cases a with
  | admitTurn =>
    cases mem_singleton.1 hls
    obtain ⟨s, hs, _⟩ := of_bind h
    obtain ⟨hact, hnil, _⟩ := hw.reserved.active lease (contains_iff_mem.1 hpr)
      (admitTurn_ok hs).2.1
    exact .inl (hasLease_iff.2 ⟨hnil, hact⟩)
  | appendCheckpoint =>
    cases mem_singleton.1 hls
    obtain ⟨_, hheld, _⟩ := of_bind h
    exact .inl (holdLease_ok hheld)
  | finalizeTurn =>
    cases mem_singleton.1 hls
    obtain ⟨_, _, h⟩ := of_bind h
    obtain ⟨_, hheld, _⟩ := of_bind h
    exact .inl (holdLease_ok hheld)
  | acceptMessage boundary executionID held input deferred newID =>
    cases mem_singleton.1 hls
    obtain ⟨⟨row, s⟩, hs, _⟩ := of_bind h
    obtain ⟨_, hfor, _⟩ := acceptExecutionInbox_ok (acceptanceState_cases deferred) hs
    exact .inl hfor.held
  | deliverMessages =>
    cases mem_singleton.1 hls
    obtain ⟨s, hs, _⟩ := of_bind h
    obtain ⟨_, _, hs⟩ := deliverMessages_ok hs
    exact .inl hs.held
  | acquireDeferred boundary inboxID input newLeaseID newID =>
    cases mem_singleton.1 hls
    obtain ⟨⟨given, s⟩, hs, h⟩ := of_bind h
    cases h
    obtain ⟨rfl, message, hs⟩ := acquireDeferredExecutionTurn_ok hs
    cases hact : w.active with
    | none =>
      have hfr : w.fresh newLeaseID = true := hpr
      exact .inr (.inl ⟨rfl, hasLease_iff.2 ⟨(World.not_issued_of_fresh hfr).1, rfl⟩, hfr⟩)
    | some held =>
      refine .inl (hasLease_iff.2 ⟨(hw.active held hact).1, ?_⟩)
      show some held = some ⟨deferredTurnID cfg inboxID, held.leaseID⟩
      rw [← hs.session held hact]
  | complete answers claim input newID => exact .inr (.inr ⟨answers, claim, input, newID, rfl⟩)
  | _ => cases hls

theorem CompleteActivityInput.mem_leaseIDs {input : CompleteActivityInput} {id : UUID} :
    id ∈ input.leaseIDs ↔
      (∃ projection, input.rootProjection = some projection ∧ projection.holder.leaseID = id) ∨
        ∃ holder, input.finish.bind (·.rootHolder) = some holder ∧ holder.leaseID = id := by
  rw [leaseIDs, mem_append, Option.mem_toList, Option.mem_toList,
    Option.map_eq_some_iff, Option.map_eq_some_iff]

theorem CompleteActivityInput.request_rootHolder (input : CompleteActivityInput) :
    (input.request cfg).finish.bind (·.rootHolder) = input.finish.bind (·.rootHolder) := by
  cases hfin : input.finish <;> simp [request, hfin]

theorem finish_of_projection {input : CompleteActivityInput}
    (hval : Executions.validateActivityResult cfg.toConfig answers (input.request cfg) = .ok u)
    (hproj : input.rootProjection = some projection) :
    input.finish = none ∧ input.compaction = none := by
  have hmap : (input.request cfg).rootProjection =
      some ⟨projection.holder, cfg.encodeMessages projection.messages⟩ := by
    show input.rootProjection.map _ = _
    rw [hproj]
    rfl
  obtain ⟨hfin, hcomp⟩ := Executions.validateRootProjection_ok hval hmap
  exact ⟨Option.map_eq_none_iff.1 hfin, Option.map_eq_none_iff.1 hcomp⟩

/-- What a completion wrote: nothing, or what it presents the stored holder for. To the transcript
it writes under the accepted lease. -/
theorem complete_writes (h : act cfg w (.complete answers claim input newID) = .ok w') :
    w'.tables = w.tables ∨ ∃ activity execution,
      w.tables.executions.activityForLease cfg.sessionID claim = .ok (activity, execution) ∧
      (∀ id ∈ input.leaseIDs, ∃ row, w.tables.turnLease? execution.id = some row ∧
        row.leaseID = id) ∧
      (SameMessages w.tables w'.tables ∨
        ∀ id ∈ input.leaseIDs, hasLease w.active ⟨id, execution.rootTurnID⟩) := by
  obtain ⟨⟨after, s⟩, hs, h⟩ := of_bind h
  cases h
  obtain ⟨before, execution, write, executions, hof, hs⟩ := completeExecutionActivity_ok hs
  obtain ⟨hval, a, e, hfd, hcas⟩ :=
    Executions.Store.completeExecutionActivity_cases hof.completed
  cases hof.found.symm.trans hfd
  rcases hcas with ⟨hst, _, hsame⟩ | hcmp
  · rcases hs with rfl | ⟨_, _, hopen, _⟩
    · left
      show { w.tables with executions := executions } = w.tables
      rw [show executions = w.tables.executions from hsame]
    · exact absurd hst hopen
  refine .inr ⟨before, execution, hof.found, ?_, ?_⟩
  · intro id hid
    have hprs : ∃ holder : ExecutionFinishHolder, holder.leaseID = id ∧
        ((input.request cfg).rootProjection.map (·.holder) = some holder ∨
          (input.request cfg).finish.bind (·.rootHolder) = some holder) := by
      rcases mem_leaseIDs.1 hid with
        ⟨projection, hproj, hid⟩ | ⟨holder, hhol, hid⟩
      · refine ⟨projection.holder, hid, .inl ?_⟩
        show (input.rootProjection.map _).map _ = _
        rw [hproj]
        rfl
      · exact ⟨holder, hid, .inr (input.request_rootHolder.trans hhol)⟩
    obtain ⟨holder, rfl, hprs⟩ := hprs
    obtain ⟨stored, hans, hid⟩ := hcmp.stored_holder hprs
    change w.tables.holderAnswer execution.id = .ok stored at hans
    unfold holderAnswer at hans
    split at hans
    · cases hans
    next row hrow =>
      cases hans
      exact ⟨row, hrow, hid⟩
  · rcases hs with rfl | ⟨written, hwr, _, rfl⟩
    · exact .inl ⟨rfl, rfl⟩
    rcases completionWrite_ok (hof.asked.symm.trans hwr) with rfl |
      ⟨compaction, hcomp, _, _⟩ | ⟨leaseID, _, hprs, hheld, _⟩
    · exact .inl ⟨rfl, rfl⟩
    · have hmap : (input.request cfg).compaction = some ⟨cfg.encodeCompaction compaction⟩ := by
        show input.compaction.map _ = _
        rw [hcomp]
        rfl
      have hfin := hcmp.finish_of_compaction hmap
      refine .inr fun id hid => ?_
      rcases mem_leaseIDs.1 hid with
        ⟨projection, hproj, _⟩ | ⟨holder, hhol, _⟩
      · cases hcomp.symm.trans (finish_of_projection hval hproj).2
      · rw [Option.map_eq_none_iff.1 hfin] at hhol
        cases hhol
    · refine .inr fun id hid => ?_
      have hsame : id = leaseID := by
        rcases mem_leaseIDs.1 hid with
          ⟨projection, hproj, rfl⟩ | ⟨holder, hhol, rfl⟩
        · rw [hproj] at hprs
          rcases hprs with hprs | ⟨hnone, _⟩
          · exact Option.some.inj hprs
          · cases hnone
        · rw [hhol] at hprs
          rcases hprs with hprs | ⟨_, hprs⟩
          · obtain ⟨projection, hproj, _⟩ := Option.map_eq_some_iff.1 hprs
            rw [(finish_of_projection hval hproj).1] at hhol
            cases hhol
          · exact hprs.symm
      exact hsame ▸ hheld

/-- **Only the accepted lease writes to the transcript.** -/
theorem Fenced.accepted (hw : Fenced w) (hpr : w.presents a = true)
    (h : act cfg w a = .ok w') (hls : lease ∈ w.writeLeases cfg a)
    (hwrt : ¬ SameMessages w.tables w'.tables) :
    hasLease w.active lease ∨ w.active = none ∧ hasLease w'.active lease := by
  rcases hw.presented hpr h hls with hheld | ⟨hnone, hheld, _⟩ |
    ⟨answers, claim, input, newID, rfl⟩
  · exact .inl hheld
  · exact .inr ⟨hnone, hheld⟩
  rcases complete_writes h with hsame | ⟨activity, execution, hfd, _, hsame | hheld⟩
  · exact absurd ⟨congrArg _ hsame, congrArg _ hsame⟩ hwrt
  · exact absurd hsame hwrt
  · rw [World.writeLeases, hfd] at hls
    obtain ⟨id, hid, rfl⟩ := mem_map.1 hls
    exact .inl (hheld id hid)

/-- **A replaced lease writes nothing.** -/
theorem Fenced.refused (hw : Fenced w) (hpr : w.presents a = true)
    (h : act cfg w a = .ok w') (hrep : Replaced w.restored lease)
    (hls : lease ∈ w.writeLeases cfg a) : w'.tables = w.tables := by
  rcases hw.presented hpr h hls with hheld | ⟨_, _, hfr⟩ |
    ⟨answers, claim, input, newID, rfl⟩
  · exact absurd hrep (hw.active _ (hasLease_iff.1 hheld).2).2
  · exact absurd hrep (World.not_replaced_of_fresh hfr).2
  rcases complete_writes h with hsame | ⟨activity, execution, hfd, hsto, _⟩
  · exact hsame
  · rw [World.writeLeases, hfd] at hls
    obtain ⟨id, hid, rfl⟩ := mem_map.1 hls
    obtain ⟨row, hrow, rfl⟩ := hsto id hid
    obtain ⟨hmem, hof⟩ := turnLease?_mem hrow
    have hturn := (hw.stored.owned row hmem).turn hw.rooted
      (Executions.Store.mem_of_activityForLease hfd).1 hof
    rw [← hturn] at hrep
    exact absurd hrep (hw.stored.current row hmem).2

end Accepted

/-! ## Leases that are returned -/

/-- What a lease is returned for: a restore for an execution at work whose turn has not completed or
failed, an acquisition for a new turn or for one that was stopped. -/
def Entry.returnable (cfg : Config) (w : World) : Entry → Prop
  | .restored executionID lease => ∃ execution turn,
      w.tables.executions.findExecution cfg.sessionID executionID = .ok execution ∧
      execution.state ≠ .paused ∧ Executions.isExecutionTerminal execution.state = false ∧
      execution.rootTurnID = lease.turnID ∧ w.tables.turn? lease.turnID = some turn ∧
      turn.state ≠ .completed ∧ turn.state ≠ .failed
  | .acquired lease => ∀ turn, w.tables.turn? lease.turnID = some turn →
      turn.state = .running ∨ turn.state = .interrupted
  | _ => True

section Returned
theorem Fenced.returned (hw : Fenced w) (hpr : w.presents a = true)
    (h : act cfg w a = .ok w') : ∃ told, w'.history = told ++ w.history ∧
      ∀ entry ∈ told, entry.returnable cfg w ∧
        ∀ lease, entry.lease? = some lease → ¬ Replaced w.restored lease := by
  cases hmv : a.movesHolder with
  | false =>
    obtain ⟨told, htold, hpln⟩ := (act_frame hpr h hmv).told
    refine ⟨told, htold, fun entry hent => ?_⟩
    have htel := hpln entry hent
    refine ⟨?_, fun lease hls => by cases htel.lease?.symm.trans hls⟩
    cases htel <;> trivial
  | true =>
    cases a with
    | reserveTurn =>
      obtain ⟨_, h⟩ := of_check h
      cases h
      exact ⟨[], rfl, by simp⟩
    | abandonTurn lease =>
      cases h
      exact ⟨[], rfl, by simp⟩
    | admitTurn lease input newID =>
      obtain ⟨s, hs, h⟩ := of_bind h
      cases h
      have hmis := (admitTurn_ok hs).2.1
      obtain ⟨hact, _⟩ := hw.reserved.active lease (contains_iff_mem.1 hpr) hmis
      refine ⟨_, rfl, fun entry hent => ?_⟩
      rcases mem_cons.1 hent with rfl | hent
      · refine ⟨fun turn hturn => ?_, fun l hl => ?_⟩
        · obtain ⟨ht, hid⟩ := mem_of_turn? hturn
          exact absurd hid (hmis turn ht)
        · cases hl
          exact (hw.active _ hact).2
      · cases mem_singleton.1 hent
        exact ⟨trivial, by simp [Entry.lease?]⟩
    | restoreExecutionTurn =>
      obtain ⟨⟨lease, s⟩, hs, h⟩ := of_bind h
      cases h
      obtain ⟨execution, turn, hs⟩ := restoreExecutionTurn_ok hs
      have hturn := hs.chosen_cases.1
      refine ⟨_, rfl, fun entry hent => ?_⟩
      cases mem_singleton.1 hent
      refine ⟨⟨execution, turn, hs.found, hs.restorable.2.1, hs.restorable.2.2, hturn.symm, ?_⟩, ?_⟩
      · rw [hturn]
        exact hs.rootTurn
      · intro l hl
        cases hl
        exact (hs.not_replaced hw hpr).2
    | acquireDeferred =>
      obtain ⟨⟨lease, s⟩, hs, h⟩ := of_bind h
      cases h
      obtain ⟨hls, message, hs⟩ := acquireDeferredExecutionTurn_ok hs
      refine ⟨_, rfl, fun entry hent => ?_⟩
      rcases mem_cons.1 hent with rfl | hent
      · refine ⟨fun turn hturn => ?_, fun l hl => ?_⟩
        · rw [hls, deferredLease_turnID] at hturn
          rcases hs.written with ⟨turn', hturn', hst, _⟩ | ⟨hnone, _⟩
          · cases hturn'.symm.trans hturn
            exact hst
          · cases hnone.symm.trans hturn
        · cases hl
          exact (hs.not_replaced hw hpr hls).2
      · unfold admittedEntries at hent
        split at hent
        · cases mem_singleton.1 hent
          exact ⟨trivial, by simp [Entry.lease?]⟩
        · cases hent
    | _ => cases hmv

/-- **A stored holder is replaced only by a caller that presents its lease.** -/
theorem Fenced.kept_holder (hw : Fenced w) (hpr : w.presents a = true)
    (h : act cfg w a = .ok w') (hrow : row ∈ w.tables.turnLeases) :
    ∃ row' ∈ w'.tables.turnLeases, row'.executionID = row.executionID ∧
      ((row'.leaseID = row.leaseID ∧ row'.ownerGenerationID = row.ownerGenerationID) ∨
        ∃ input newLeaseID, a = .restoreExecutionTurn row.executionID input newLeaseID ∧
          input.previousLeaseID = row.leaseID) := by
  by_cases hsame : w'.tables.turnLeases = w.tables.turnLeases
  · exact ⟨row, hsame ▸ hrow, rfl, .inl ⟨rfl, rfl⟩⟩
  cases hmv : a.movesHolder with
  | false => exact absurd (act_frame hpr h hmv).turnLeases hsame
  | true =>
    cases a with
    | reserveTurn =>
      obtain ⟨_, h⟩ := of_check h
      cases h
      exact absurd rfl hsame
    | abandonTurn lease =>
      cases h
      exact absurd rfl hsame
    | admitTurn =>
      obtain ⟨s, hs, h⟩ := of_bind h
      cases h
      exact absurd (admitTurn_ok hs).2.2.others.turnLeases hsame
    | restoreExecutionTurn executionID input newLeaseID =>
      obtain ⟨⟨lease, s⟩, hs, h⟩ := of_bind h
      cases h
      obtain ⟨execution, turn, hs⟩ := restoreExecutionTurn_ok hs
      have heid := (Executions.Store.of_findExecution hs.found).2
      rcases hs.written with ⟨rfl, _, _⟩ | ⟨leases, e, executions, hsave, _, rfl⟩
      · exact absurd rfl hsame
      obtain ⟨_, hmem⟩ := saveTurnLease_rows hw.stored.keys hsave
      show ∃ row' ∈ (restoreRootTurnRow cfg _ turn _).turnLeases, _
      rw [(others_restoreRootTurnRow cfg _ turn _).turnLeases]
      by_cases hid : row.executionID = execution.id
      · have hsto : w.tables.turnLease? execution.id = some row := by
          cases hfd : w.tables.turnLease? execution.id with
          | none => exact absurd hid (turnLease?_none hfd hrow)
          | some found =>
            obtain ⟨hfd, hfid⟩ := turnLease?_mem hfd
            rw [hw.stored.row_eq hfd hrow (hfid.trans hid.symm)]
        refine ⟨_, (hmem _).2 (.inl rfl), hid.symm, ?_⟩
        cases hs.chosen_cases.2 with
        | adopted held active same unheld => cases unheld.symm.trans hsto
        | reused r stored same valid owner =>
          cases stored.symm.trans hsto
          exact .inl ⟨same.symm, owner.symm⟩
        | drawn new presented =>
          exact .inr ⟨input, newLeaseID, by rw [hid, heid], presented row hsto⟩
      · exact ⟨row, (hmem row).2 (.inr ⟨hrow, hid⟩), rfl, .inl ⟨rfl, rfl⟩⟩
    | acquireDeferred =>
      obtain ⟨⟨lease, s⟩, hs, h⟩ := of_bind h
      cases h
      obtain ⟨hls, message, hs⟩ := acquireDeferredExecutionTurn_ok hs
      exact absurd hs.turnLeases hsame
    | _ => cases hmv

end Returned

/-- **A turn has one root and one holder.** In every run a turn has at most one root execution, and an
execution at most one stored holder. It is of the root of its turn and has the lease that was restored
last for it; every restored lease is that of such a holder or was replaced. -/
theorem one_root_one_holder (cfg : Config) (actions : List Action) :
    Always (step cfg) (fun w =>
      (∀ e ∈ w.rows, ∀ e' ∈ w.rows, e.kind = .root → e'.kind = .root →
        e.rootTurnID = e'.rootTurnID → e.id = e'.id) ∧
      (w.tables.turnLeases.map (·.executionID)).Nodup ∧
      (∀ row ∈ w.tables.turnLeases, Owned w.rows row ∧ row.lease ∈ w.restored ∧
        ¬ Replaced w.restored row.lease) ∧
      ∀ lease ∈ w.restored, ∃ row ∈ w.tables.turnLeases, row.turnID = lease.turnID ∧
        (row.leaseID = lease.id ∨ Replaced w.restored lease)) .new actions := by
  refine .of_exec fun as w h => ?_
  have hw := exec_fenced fenced_new h
  exact ⟨hw.rooted.roots, hw.stored.keys,
    fun row hrow => ⟨hw.stored.owned row hrow, hw.stored.current row hrow⟩, hw.stored.covers⟩

/-- **A replaced holder can write nothing more.** After any calls, of any callers and in any order, at
most one lease is accepted. A lease that a later restore of its turn replaced writes nothing in
whatever follows, and no call returns it. A call that writes to the transcript under a lease has the
accepted one; a stored holder is replaced only by a restore that presents its lease; and a lease is
returned only for an execution at work whose turn has not completed or failed, or for a turn that is
new or was stopped. -/
theorem replaced_holder_writes_nothing {cfg : Config} {actions : List Action} {w : World}
    (hw : exec (step cfg) World.new actions = some w) :
    (∀ lease lease', hasLease w.active lease → hasLease w.active lease' → lease = lease') ∧
    (∀ lease, Replaced w.restored lease → ∀ later u, exec (step cfg) w later = some u →
      ∀ a u', step cfg u a = some u' →
        (lease ∈ u.writeLeases cfg a → u'.tables = u.tables) ∧
        ∃ told, u'.history = told ++ u.history ∧ ∀ entry ∈ told, entry.lease? ≠ some lease) ∧
    ∀ a w', step cfg w a = some w' →
      (∀ lease ∈ w.writeLeases cfg a, ¬ SameMessages w.tables w'.tables →
        hasLease w.active lease ∨ w.active = none ∧ hasLease w'.active lease) ∧
      (∀ row ∈ w.tables.turnLeases, ∃ row' ∈ w'.tables.turnLeases,
        row'.executionID = row.executionID ∧
        ((row'.leaseID = row.leaseID ∧ row'.ownerGenerationID = row.ownerGenerationID) ∨
          ∃ input newLeaseID, a = .restoreExecutionTurn row.executionID input newLeaseID ∧
            input.previousLeaseID = row.leaseID)) ∧
      ∃ told, w'.history = told ++ w.history ∧ ∀ entry ∈ told, entry.returnable cfg w := by
  have hfenced := exec_fenced fenced_new hw
  refine ⟨?_, ?_, ?_⟩
  · intro lease lease' hlease hlease'
    obtain ⟨_, hactive⟩ := hasLease_iff.1 hlease
    obtain ⟨_, hactive'⟩ := hasLease_iff.1 hlease'
    cases lease
    cases hactive.symm.trans hactive'
    rfl
  · intro lease hreplaced later u hu a u' hstep
    obtain ⟨hpresents, h⟩ := step_eq_some hstep
    have hfenced' := exec_fenced hfenced hu
    obtain ⟨past, hpast⟩ := exec_history hfenced hu
    have hreplaced' : Replaced u.restored lease := by
      rw [World.restored_append hpast]
      exact hreplaced.append _
    obtain ⟨told, htold, hreturned⟩ := hfenced'.returned hpresents h
    exact ⟨fun hlease => hfenced'.refused hpresents h hreplaced' hlease, told, htold,
      fun entry hentry hlease => (hreturned entry hentry).2 lease hlease hreplaced'⟩
  · intro a w' hstep
    obtain ⟨hpresents, h⟩ := step_eq_some hstep
    obtain ⟨told, htold, hreturned⟩ := hfenced.returned hpresents h
    exact ⟨fun lease hlease hwritten => hfenced.accepted hpresents h hlease hwritten,
      fun row hrow => hfenced.kept_holder hpresents h hrow, told, htold,
      fun entry hentry => (hreturned entry hentry).1⟩

/-- A turn is opened under the lease `50`, restored for its execution by the owner that has it, and
then by another owner, which presents that lease and draws the lease `52`. -/
def twoOwners : List Action :=
  [.reserveTurn 100 50, .admitTurn ⟨50, 100⟩ (plainTurn 3 "hello") (1000 + ·),
    .createExecution agreedCreation (plainRoot 10 100 "task"),
    .restoreExecutionTurn 10 (plainRestore 0 UUID.nil) 51,
    .restoreExecutionTurn 10 { plainRestore 0 50 with ownerGenerationID := 9 } 52]

theorem first_owner_writes_nothing : ∃ w, exec (step plainConfig) World.new twoOwners = some w ∧
    Replaced w.restored ⟨50, 100⟩ ∧ ∀ later u, exec (step plainConfig) w later = some u →
      ∀ a u', step plainConfig u a = some u' → ⟨50, 100⟩ ∈ u.writeLeases plainConfig a →
        u'.tables = u.tables := by
  have hrun : (exec (step plainConfig) World.new twoOwners).map (·.restored) =
      some [⟨52, 100⟩, ⟨50, 100⟩] := by decide +kernel
  obtain ⟨w, hw, hrestored⟩ := Option.map_eq_some_iff.1 hrun
  have hreplaced : Replaced w.restored ⟨50, 100⟩ :=
    ⟨⟨52, 100⟩, rfl, nofun, hrestored ▸ Sublist.refl _⟩
  refine ⟨w, hw, hreplaced, fun later u hu a u' hstep hlease => ?_⟩
  exact ((replaced_holder_writes_nothing hw).2.1 _ hreplaced later u hu a u' hstep).1 hlease

end Peen.Sessions
