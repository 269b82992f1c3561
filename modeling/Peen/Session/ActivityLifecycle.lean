import Peen.Session.ExecutionActivity
import Mathlib.Logic.Relation
import Mathlib.Data.List.Nodup

/-!
# The life of an activity

What the transactions do to activities, abstracted to two kinds of change: an activity is created,
or one row makes a `Transition`.
-/

namespace Peen.Executions

open List

/-! ## Histories -/

/-- What was decided about an activity. -/
inductive Entry where
  /-- The work was handed out under this lease. -/
  | executed (lease : ActivityLease)
  /-- The worker was interrupted, or another generation took the activity over. -/
  | interrupted
  /-- An inspection allowed a retry. -/
  | retried
  deriving DecidableEq

section
variable (lease : ActivityLease) (h : List Entry)

def Entry.lease? : Entry → Option ActivityLease
  | .executed lease => some lease
  | .interrupted | .retried => none

def leases : List ActivityLease := h.filterMap Entry.lease?

def retries : Nat := h.count .retried

/-- The activity was interrupted, and no retry has been allowed since. Histories have the latest
entry first. -/
def awaitsInspection : List Entry → Bool
  | [] => false
  | .retried :: _ => false
  | .interrupted :: _ => true
  | .executed _ :: h => awaitsInspection h

/-- Whenever the work was handed out, no interruption waited for its inspection. -/
def Inspected : Prop :=
  ∀ newer lease older, h = newer ++ .executed lease :: older → awaitsInspection older = false

@[simp] theorem leases_executed : leases (.executed lease :: h) = lease :: leases h := rfl

@[simp] theorem leases_interrupted : leases (.interrupted :: h) = leases h := rfl

@[simp] theorem leases_retried : leases (.retried :: h) = leases h := rfl

@[simp] theorem retries_executed : retries (.executed lease :: h) = retries h := by
  simp [retries]

@[simp] theorem retries_interrupted : retries (.interrupted :: h) = retries h := by
  simp [retries]

@[simp] theorem retries_retried : retries (.retried :: h) = retries h + 1 := by
  simp [retries]

end

theorem inspected_nil : Inspected [] := by
  intro newer lease older h
  cases newer <;> cases h

theorem Inspected.cons (hi : Inspected h) {e : Entry} (he : e.lease? = none) :
    Inspected (e :: h) := by
  intro newer lease older heq
  cases newer with
  | nil => cases heq; cases he
  | cons e' newer => exact hi newer lease older (cons.inj heq).2

theorem Inspected.executed (hi : Inspected h) (hw : awaitsInspection h = false)
    (lease : ActivityLease) : Inspected (.executed lease :: h) := by
  intro newer lease' older heq
  cases newer with
  | nil => cases heq; exact hw
  | cons e' newer => exact hi newer lease' older (cons.inj heq).2

/-! ## Transitions of a row -/

def ExecutionActivity.dropped (a : ExecutionActivity) (state : ActivityState) : ExecutionActivity :=
  { a with state := state, failureDetail := interruptedActivityReason }

/-- A row with its result and what identifies the request that gave it. -/
def ExecutionActivity.settled (a : ExecutionActivity) (output context : String)
    (resolution : ResolutionJSON) : ExecutionActivity :=
  { a.withResult output context with resolutionJSON := resolution }

def ExecutionActivity.released (a : ExecutionActivity) (payload : String) : ExecutionActivity :=
  { a with state := .scheduled, ownerGenerationID := none, failureDetail := "",
           resolutionJSON := .inspection payload }

/-- What can happen to a row, with the entries it adds to its history. -/
inductive Transition : ExecutionActivity → ExecutionActivity → List Entry → Prop
  /-- An attempt is started that takes nothing from anybody. -/
  | start {a : ExecutionActivity} (g : UUID) (hr : a.state ≠ .running) (hc : a.state ≠ .completed)
      (hu : a.state ≠ .uncertain) :
      Transition a (a.started g) [.executed ⟨a.id, g, a.attempt + 1⟩]
  /-- An attempt is started in the place of another generation's. -/
  | takeOver {a : ExecutionActivity} (g : UUID) (hr : a.state = .running)
      (hp : a.replayPolicy ≠ .reconcile) :
      Transition a (a.started g) [.executed ⟨a.id, g, a.attempt + 1⟩, .interrupted]
  /-- The outcome of an attempt becomes unknown. -/
  | lose {a : ExecutionActivity} (hr : a.state = .running) :
      Transition a a.uncertain [.interrupted]
  /-- An attempt that may be repeated is given up. -/
  | drop {a : ExecutionActivity} (hr : a.state = .running) (hp : a.replayPolicy ≠ .reconcile)
      {state : ActivityState} (hs : state = .failed ∨ state = .paused) :
      Transition a (a.dropped state) [.interrupted]
  /-- The owner's attempt is interrupted after it ended. -/
  | note {a : ExecutionActivity} (hr : a.state ≠ .running) {g : UUID}
      (ho : a.ownerGenerationID = some g) : Transition a a [.interrupted]
  /-- The result of a running attempt, or of one whose effect was inspected, is saved. -/
  | settle {a : ExecutionActivity} (hr : a.state = .running ∨ a.state = .uncertain)
      (output context : String) (resolution : ResolutionJSON) :
      Transition a (a.settled output context resolution) []
  /-- An inspection allows a retry. -/
  | release {a : ExecutionActivity} (hu : a.state = .uncertain) (payload : String) :
      Transition a (a.released payload) [.retried]

def ExecutionActivity.identity (a : ExecutionActivity) :
    UUID × UUID × UUID × String × ReplayPolicy :=
  (a.id, a.sessionID, a.executionID, a.stepID, a.replayPolicy)

namespace Transition

variable {h : List Entry}

section
variable (t : Transition a a' es)
include t

theorem identity_eq : a'.identity = a.identity := by
  cases t <;> rfl

theorem id_eq : a'.id = a.id := congrArg (·.1) t.identity_eq

theorem step_eq : (a'.executionID, a'.stepID) = (a.executionID, a.stepID) :=
  congrArg (fun i => (i.2.2.1, i.2.2.2.1)) t.identity_eq

theorem replayPolicy_eq : a'.replayPolicy = a.replayPolicy :=
  congrArg (·.2.2.2.2) t.identity_eq

/-- **Completed is final.** No transition changes a completed row. -/
theorem eq_of_completed (hc : a.state = .completed) : a' = a := by
  cases t with
  | start g hr hc' hu => exact absurd hc hc'
  | takeOver g hr hp | lose hr | drop hr hp hs => rw [hc] at hr; cases hr
  | note hr ho => rfl
  | settle hr => rw [hc] at hr; rcases hr with hr | hr <;> cases hr
  | release hu => rw [hc] at hu; cases hu

end

end Transition

/-! ## The two invariants of a row -/

/-- The owner of a row holds the lease handed out last, and every lease handed out has a higher
attempt than those before it. -/
structure Fenced (h : List Entry) (a : ExecutionActivity) : Prop where
  owner : ∀ g, a.ownerGenerationID = some g → (leases h).head? = some ⟨a.id, g, a.attempt⟩
  bound : ∀ lease ∈ leases h, lease.attempt ≤ a.attempt
  increasing : (leases h).Pairwise fun newer older => older.attempt < newer.attempt

/-- The work of a row was handed out at most once more than a retry was allowed; while the row waits
for an attempt every execution has been inspected, and while an inspection is awaited the row is not
to be executed. -/
structure Guarded (h : List Entry) (a : ExecutionActivity) : Prop where
  count : (leases h).length ≤ retries h + 1
  scheduled : a.state = .scheduled → (leases h).length ≤ retries h ∧ a.ownerGenerationID = none
  states : a.state = .scheduled ∨ a.state = .running ∨ a.state = .uncertain ∨ a.state = .completed
  awaits : awaitsInspection h = true → a.state = .uncertain ∨ a.state = .completed
  inspected : Inspected h

variable {a a' : ExecutionActivity} {es : List Entry}

theorem Fenced.nil (ho : a.ownerGenerationID = none) : Fenced [] a := by
  refine ⟨?_, nofun, Pairwise.nil⟩
  intro g hg
  rw [ho] at hg
  cases hg

theorem Guarded.nil (hs : a.state = .scheduled) (ho : a.ownerGenerationID = none) :
    Guarded [] a :=
  ⟨Nat.zero_le _, fun _ => ⟨Nat.le_refl _, ho⟩, .inl hs, nofun, inspected_nil⟩

theorem Fenced.hand (hf : Fenced h a) (g : UUID) :
    Fenced (.executed ⟨a.id, g, a.attempt + 1⟩ :: h) (a.started g) := by
  refine ⟨?_, ?_, ?_⟩
  · intro g' hg'
    cases hg'
    rfl
  · intro lease hl
    rcases mem_cons.1 hl with hl | hl
    · subst hl; exact Nat.le_refl _
    · exact Nat.le_succ_of_le (hf.bound lease hl)
  · exact pairwise_cons.2 ⟨fun lease hl => Nat.lt_succ_of_le (hf.bound lease hl), hf.increasing⟩

/-- Everything but a new lease keeps the fence, as long as owner and attempt stay or the owner is
cleared. -/
theorem Fenced.of_leases (hf : Fenced h a) (hl : leases h' = leases h) (hid : a'.id = a.id)
    (ha : a'.attempt = a.attempt)
    (ho : a'.ownerGenerationID = a.ownerGenerationID ∨ a'.ownerGenerationID = none) :
    Fenced h' a' := by
  refine ⟨?_, ?_, ?_⟩
  · intro g hg
    rw [hl, hid, ha]
    rcases ho with ho | ho
    · exact hf.owner g (ho ▸ hg)
    · rw [ho] at hg; cases hg
  · rw [hl, ha]; exact hf.bound
  · rw [hl]; exact hf.increasing

/-- **Every transition keeps the fence.** -/
theorem Transition.fenced (t : Transition a a' es) (hf : Fenced h a) : Fenced (es ++ h) a' := by
  cases t with
  | start g hr hc hu => exact hf.hand g
  | takeOver g hr hp => exact (hf.of_leases (leases_interrupted h) rfl rfl (.inl rfl)).hand g
  | lose | drop | note => exact hf.of_leases (leases_interrupted h) rfl rfl (.inl rfl)
  | settle hr => exact hf.of_leases rfl rfl rfl (.inl rfl)
  | release => exact hf.of_leases (leases_retried h) rfl rfl (.inr rfl)

theorem Guarded.hand (hg : Guarded h a) (hs : a.state = .scheduled) (g : UUID) :
    Guarded (.executed ⟨a.id, g, a.attempt + 1⟩ :: h) (a.started g) := by
  have hw : awaitsInspection h = false := by
    cases hw : awaitsInspection h with
    | false => rfl
    | true => rcases hg.awaits hw with hs' | hs' <;> rw [hs] at hs' <;> cases hs'
  refine ⟨?_, nofun, .inr (.inl rfl), fun hw' => ?_, hg.inspected.executed hw _⟩
  · simpa using (hg.scheduled hs).1
  · rw [show awaitsInspection (_ :: h) = awaitsInspection h from rfl, hw] at hw'
    cases hw'

theorem Guarded.interrupt (hg : Guarded h a) (hs : a'.state = .uncertain ∨ a'.state = .completed) :
    Guarded (.interrupted :: h) a' := by
  refine ⟨by simpa using hg.count, ?_, ?_, fun _ => hs, hg.inspected.cons rfl⟩
  · intro hsch
    rw [hsch] at hs
    rcases hs with hs | hs <;> cases hs
  · rcases hs with hs | hs
    · exact .inr (.inr (.inl hs))
    · exact .inr (.inr (.inr hs))

/-- **Every transition of an activity that must be reconciled keeps the guard.** -/
theorem Transition.guarded (t : Transition a a' es) (hp : a.replayPolicy = .reconcile)
    (hg : Guarded h a) : Guarded (es ++ h) a' := by
  cases t with
  | start g hr hc hu =>
    rcases hg.states with hs | hs | hs | hs
    · exact hg.hand hs g
    · exact absurd hs hr
    · exact absurd hs hu
    · exact absurd hs hc
  | takeOver g hr hp' => exact absurd hp hp'
  | lose hr => exact hg.interrupt (.inl rfl)
  | drop hr hp' hs => exact absurd hp hp'
  | note hr ho =>
    rcases hg.states with hs | hs | hs | hs
    · rw [(hg.scheduled hs).2] at ho; cases ho
    · exact absurd hs hr
    · exact hg.interrupt (.inl hs)
    · exact hg.interrupt (.inr hs)
  | settle hr =>
    exact ⟨hg.count, nofun, .inr (.inr (.inr rfl)), fun _ => .inr rfl, hg.inspected⟩
  | release hu payload =>
    refine ⟨?_, fun _ => ⟨?_, rfl⟩, .inl rfl, nofun, hg.inspected.cons rfl⟩
    · simpa using Nat.le_succ_of_le hg.count
    · simpa using hg.count

/-! ## Ledgers -/

/-- The activities of a store, and what was decided about each of them, the latest first. -/
structure Ledger where
  rows : List ExecutionActivity
  history : List (UUID × Entry)

def entriesOf (id : UUID) (history : List (UUID × Entry)) : List Entry :=
  history.filterMap fun e => if e.1 = id then some e.2 else none

def entriesFor (id : UUID) (es : List Entry) : List (UUID × Entry) := es.map (id, ·)

def putRow (rows : List ExecutionActivity) (a' : ExecutionActivity) : List ExecutionActivity :=
  rows.map fun a => if a.id = a'.id then a' else a

/-- The changes of a ledger: a new activity waits for its first attempt, or one row makes a
transition. -/
inductive Change : Ledger → Ledger → Prop
  | create {l : Ledger} {a : ExecutionActivity} (hid : ∀ b ∈ l.rows, b.id ≠ a.id)
      (hstep : ∀ b ∈ l.rows, (b.executionID, b.stepID) ≠ (a.executionID, a.stepID))
      (hs : a.state = .scheduled) (ho : a.ownerGenerationID = none) :
      Change l ⟨l.rows ++ [a], l.history⟩
  | row {l : Ledger} {a a' : ExecutionActivity} {es : List Entry} (ha : a ∈ l.rows)
      (t : Transition a a' es) : Change l ⟨putRow l.rows a', entriesFor a.id es ++ l.history⟩

@[simp] theorem entriesOf_append (id : UUID) (h h' : List (UUID × Entry)) :
    entriesOf id (h ++ h') = entriesOf id h ++ entriesOf id h' := filterMap_append

@[simp] theorem entriesOf_entriesFor (id : UUID) (es : List Entry) :
    entriesOf id (entriesFor id es) = es := by
  simp [entriesOf, entriesFor, filterMap_map]

theorem entriesOf_entriesFor_of_ne {id : UUID} (hne : id' ≠ id) (es : List Entry) :
    entriesOf id (entriesFor id' es) = [] := by
  simp [entriesOf, entriesFor, filterMap_map, hne]

theorem entriesOf_eq_nil {id : UUID} {h : List (UUID × Entry)} (hn : ∀ e ∈ h, e.1 ≠ id) :
    entriesOf id h = [] :=
  filterMap_eq_nil_iff.2 fun e he => if_neg (hn e he)

theorem mem_putRow {a' : ExecutionActivity} (ha : a ∈ rows) (hid : a'.id = a.id) :
    b ∈ putRow rows a' ↔ b = a' ∨ (b ∈ rows ∧ b.id ≠ a.id) := by
  rw [putRow, mem_map]
  refine ⟨?_, ?_⟩
  · intro h
    obtain ⟨c, hc, hcb⟩ := h
    split at hcb
    next => exact .inl hcb.symm
    next hne => subst hcb; exact .inr ⟨hc, hid ▸ hne⟩
  · intro h
    rcases h with h | ⟨hb, hne⟩
    · subst h; exact ⟨a, ha, if_pos hid.symm⟩
    · exact ⟨b, hb, if_neg (hid ▸ hne)⟩

theorem map_putRow {rows : List ExecutionActivity} {a a' : ExecutionActivity}
    (hids : (rows.map (·.id)).Nodup) (ha : a ∈ rows) {κ : Type} {key : ExecutionActivity → κ}
    (hid : a'.id = a.id) (hkey : key a' = key a) : (putRow rows a').map key = rows.map key := by
  rw [putRow, map_map]
  refine map_congr_left fun b hb => ?_
  show key (if b.id = a'.id then a' else b) = key b
  split
  next h => rw [hkey, inj_on_of_nodup_map hids hb ha (h.trans hid)]
  next => rfl

theorem Change.ids (c : Change l l') (hids : (l.rows.map (·.id)).Nodup) :
    (l'.rows.map (·.id)).Nodup := by
  cases c with
  | create hid hstep hs ho =>
    exact nodup_snoc hids hid
  | row ha t =>
    rw [map_putRow hids ha t.id_eq t.id_eq]
    exact hids

/-- The rows of a ledger agree with its history. -/
structure Ledger.Kept (l : Ledger) : Prop where
  ids : (l.rows.map (·.id)).Nodup
  steps : (l.rows.map fun a => (a.executionID, a.stepID)).Nodup
  known : ∀ e ∈ l.history, ∃ a ∈ l.rows, a.id = e.1
  fenced : ∀ a ∈ l.rows, Fenced (entriesOf a.id l.history) a
  guarded : ∀ a ∈ l.rows, a.replayPolicy = .reconcile → Guarded (entriesOf a.id l.history) a

namespace Ledger.Kept

variable {l : Ledger}

theorem empty : Kept ⟨[], []⟩ :=
  ⟨.nil, .nil, nofun, fun _ h => (nomatch h), fun _ h => (nomatch h)⟩

theorem eq_of_id (hk : Kept l) (ha : a ∈ l.rows) (hb : b ∈ l.rows) (h : a.id = b.id) : a = b :=
  inj_on_of_nodup_map hk.ids ha hb h

theorem eq_of_step (hk : Kept l) (ha : a ∈ l.rows) (hb : b ∈ l.rows)
    (h : (a.executionID, a.stepID) = (b.executionID, b.stepID)) : a = b :=
  inj_on_of_nodup_map hk.steps ha hb h

theorem entriesOf_eq_nil (hk : Kept l) {id : UUID} (hid : ∀ b ∈ l.rows, b.id ≠ id) :
    entriesOf id l.history = [] := by
  refine Executions.entriesOf_eq_nil fun e he hid' => ?_
  obtain ⟨a, ha, hae⟩ := hk.known e he
  exact hid a ha (hae.trans hid')

theorem create (hk : Kept l) {a : ExecutionActivity} (hid : ∀ b ∈ l.rows, b.id ≠ a.id)
    (hstep : ∀ b ∈ l.rows, (b.executionID, b.stepID) ≠ (a.executionID, a.stepID))
    (hs : a.state = .scheduled) (ho : a.ownerGenerationID = none) :
    Kept ⟨l.rows ++ [a], l.history⟩ := by
  have hnil := hk.entriesOf_eq_nil hid
  refine ⟨?_, ?_, ?_, ?_, ?_⟩
  · exact (Change.create hid hstep hs ho).ids hk.ids
  · exact nodup_snoc hk.steps hstep
  · intro e he
    obtain ⟨b, hb, hbe⟩ := hk.known e he
    exact ⟨b, mem_append_left _ hb, hbe⟩
  · intro b hb
    rcases mem_snoc.1 hb with hb | hb
    · exact hk.fenced b hb
    · rw [hb, hnil]; exact Fenced.nil ho
  · intro b hb hp
    rcases mem_snoc.1 hb with hb | hb
    · exact hk.guarded b hb hp
    · rw [hb, hnil]; exact Guarded.nil hs ho

theorem entriesOf_row {a b : ExecutionActivity} (hne : b.id ≠ a.id) :
    entriesOf b.id (entriesFor a.id es ++ l.history) = entriesOf b.id l.history := by
  rw [entriesOf_append, entriesOf_entriesFor_of_ne (Ne.symm hne), nil_append]

theorem row (hk : Kept l) (ha : a ∈ l.rows) (t : Transition a a' es) :
    Kept ⟨putRow l.rows a', entriesFor a.id es ++ l.history⟩ := by
  have hmem {b : ExecutionActivity} := mem_putRow (b := b) ha t.id_eq
  refine ⟨?_, ?_, ?_, ?_, ?_⟩
  · exact (Change.row ha t).ids hk.ids
  · rw [map_putRow hk.ids ha t.id_eq t.step_eq]; exact hk.steps
  · intro e he
    have hex : ∃ b ∈ l.rows, b.id = e.1 := by
      rcases mem_append.1 he with he | he
      · obtain ⟨_, _, hx⟩ := mem_map.1 he
        exact ⟨a, ha, hx ▸ rfl⟩
      · exact hk.known e he
    obtain ⟨b, hb, hbe⟩ := hex
    rcases Classical.em (b.id = a.id) with hba | hba
    · exact ⟨a', hmem.2 (.inl rfl), t.id_eq.trans (hba.symm.trans hbe)⟩
    · exact ⟨b, hmem.2 (.inr ⟨hb, hba⟩), hbe⟩
  · intro b hb
    rcases hmem.1 hb with hb | ⟨hb, hne⟩
    · subst hb
      rw [t.id_eq, entriesOf_append, entriesOf_entriesFor]
      exact t.fenced (hk.fenced a ha)
    · rw [entriesOf_row hne]; exact hk.fenced b hb
  · intro b hb hp
    rcases hmem.1 hb with hb | ⟨hb, hne⟩
    · subst hb
      rw [t.replayPolicy_eq] at hp
      rw [t.id_eq, entriesOf_append, entriesOf_entriesFor]
      exact t.guarded hp (hk.guarded a ha hp)
    · rw [entriesOf_row hne]; exact hk.guarded b hb hp

/-- **Every change keeps the invariants.** -/
theorem change (hk : Kept l) (c : Change l l') : Kept l' := by
  cases c with
  | create hid hstep hs ho => exact hk.create hid hstep hs ho
  | row ha t => exact hk.row ha t

theorem changes (hk : Kept l) (c : Relation.ReflTransGen Change l l') : Kept l' := by
  induction c with
  | refl => exact hk
  | tail _ c ih => exact ih.change c

end Ledger.Kept

theorem Change.completed (c : Change l l') (hids : (l.rows.map (·.id)).Nodup) (ha : a ∈ l.rows)
    (hc : a.state = .completed) : a ∈ l'.rows := by
  cases c with
  | create => exact mem_append_left _ ha
  | @row b b' es hb t =>
    refine (mem_putRow hb t.id_eq).2 ?_
    rcases Classical.em (a.id = b.id) with hab | hab
    · have := inj_on_of_nodup_map hids ha hb hab
      subst this
      exact .inl (t.eq_of_completed hc).symm
    · exact .inr ⟨ha, hab⟩

theorem completed_of_changes (c : Relation.ReflTransGen Change l l')
    (hids : (l.rows.map (·.id)).Nodup) (ha : a ∈ l.rows) (hc : a.state = .completed) :
    a ∈ l'.rows ∧ (l'.rows.map (·.id)).Nodup := by
  induction c with
  | refl => exact ⟨ha, hids⟩
  | tail _ c ih => exact ⟨c.completed ih.2 ih.1 hc, c.ids ih.2⟩

end Peen.Executions
