import Peen.Base
import Peen.Lib.Run

/-!
# The notices of a session

The event bus holds the notices of a session until a turn drains them.
-/

namespace Peen.Events

open List Lts

/-! ## The bus -/

structure Notice where
  id : UUID
  summary : String
deriving DecidableEq

/-- The pending notices of a session; an empty queue is none. -/
structure Queue where
  notices : List Notice
  dropped : Nat
  held : notices ≠ []

/-- What a drain returns. -/
structure Batch where
  notices : List Notice := []
  dropped : Nat := 0

/-- A bus and its entry for one session, the one all calls below are for. -/
structure Bus where
  maxPendingPerSession : Nat
  room : 0 < maxPendingPerSession
  pending : Option Queue := none

/-- The loop of `enqueue`. -/
def trim (max : Nat) : List Notice → Nat → List Notice × Nat
  | [], dropped => ([], dropped)
  | notice :: notices, dropped =>
    if (notice :: notices).length > max then trim max notices (dropped + 1)
    else (notice :: notices, dropped)

theorem trim_eq (max : Nat) (notices : List Notice) (dropped : Nat) :
    trim max notices dropped =
      (notices.drop (notices.length - max), dropped + (notices.length - max)) := by
  induction notices generalizing dropped with
  | nil => simp [trim]
  | cons notice notices ih =>
    unfold trim
    split
    next hover =>
      have hlen : (notice :: notices).length - max = notices.length - max + 1 := by
        rw [length_cons] at hover ⊢
        omega
      rw [ih, hlen, drop_succ_cons, Nat.add_assoc, Nat.add_comm 1]
    next hfits =>
      rw [Nat.sub_eq_zero_of_le (Nat.le_of_not_lt hfits)]
      rfl

theorem trim_ne_nil {max : Nat} (hroom : 0 < max) (notices : List Notice) (notice : Notice)
    (dropped : Nat) : (trim max (notices ++ [notice]) dropped).1 ≠ [] := by
  rw [trim_eq]
  refine ne_nil_of_length_pos ?_
  simp only [length_drop, length_append, length_singleton]
  omega

namespace Bus

/-- `NewBus`, with the default of `withDefaults`. -/
def new (maxPendingPerSession : Int) : Bus :=
  ⟨if maxPendingPerSession ≤ 0 then 256 else maxPendingPerSession.toNat, by split <;> omega, none⟩

def notices (b : Bus) : List Notice := b.pending.elim [] Queue.notices

def dropped (b : Bus) : Nat := b.pending.elim 0 Queue.dropped

/-- What `Publish` does with a notice that `PrepareContext` returned. -/
def enqueue (b : Bus) (notice : Notice) : Bus :=
  let left := trim b.maxPendingPerSession (b.notices ++ [notice]) b.dropped
  { b with pending := some ⟨left.1, left.2, trim_ne_nil b.room b.notices notice b.dropped⟩ }

/-- Take what is pending and report the drops. -/
def drain (b : Bus) : Batch × Bus :=
  match b.pending with
  | none => ({}, b)
  | some session =>
    if session.notices = [] then ({}, b)
    else (⟨session.notices, session.dropped⟩, { b with pending := none })

/-- Take the acknowledged notices out. The count goes with an empty queue. -/
def discard (b : Bus) (ids : List UUID) : Bus :=
  if ids = [] then b
  else match b.pending with
  | none => b
  | some pending =>
    let kept := pending.notices.filter fun notice => notice.id ∉ ids
    if h : kept = [] then { b with pending := none }
    else { b with pending := some ⟨kept, pending.dropped, h⟩ }

end Bus

/-! ## What becomes of the notices -/

inductive Call where
  | publish (notice : Notice)
  | drain
  | discard (ids : List UUID)

/-- A bus, the notices that were published, drained, discarded and dropped, and the number of drops
the drains reported. -/
structure Account where
  bus : Bus
  published : List Notice := []
  drained : List Notice := []
  discarded : List Notice := []
  dropped : List Notice := []
  reported : Nat := 0

namespace Account

def new (maxPendingPerSession : Int) : Account := { bus := .new maxPendingPerSession }

/-- A call. A publication drops the notices in front that are not pending after it. -/
def step (a : Account) : Call → Option Account
  | .publish notice =>
    let bus := a.bus.enqueue notice
    let arrived := a.bus.notices ++ [notice]
    some { a with
      bus, published := a.published ++ [notice]
      dropped := a.dropped ++ arrived.take (arrived.length - bus.notices.length) }
  | .drain =>
    let (batch, bus) := a.bus.drain
    some { a with
      bus, drained := a.drained ++ batch.notices, reported := a.reported + batch.dropped }
  | .discard ids =>
    some { a with
      bus := a.bus.discard ids
      discarded := a.discarded ++ a.bus.notices.filter fun notice => notice.id ∈ ids }

/-- Every published notice is drained, discarded, dropped or pending, once. Those that were neither
drained nor discarded are, in the order of publication, the dropped ones and then the pending ones. -/
structure Fates (a : Account) : Prop where
  one : a.published ~ a.drained ++ a.discarded ++ (a.dropped ++ a.bus.notices)
  newest : a.dropped ++ a.bus.notices <+ a.published
  bounded : a.bus.notices.length ≤ a.bus.maxPendingPerSession

/-- The drops that were reported and those a drain would report now are all drops. -/
def Counted (a : Account) : Prop := a.reported + a.bus.drain.1.dropped = a.dropped.length

instance : DecidablePred Counted := fun _ => inferInstanceAs (Decidable (_ = _))

/-- A `Discard` leaves a pending notice, or the queue has dropped none. -/
def KeepsCount (a : Account) : Call → Prop
  | .discard ids => (∃ notice ∈ a.bus.notices, notice.id ∉ ids) ∨ a.bus.dropped = 0
  | _ => True

end Account

section
variable {a a' : Account}

theorem Bus.drain_eq (b : Bus) :
    b.drain = (⟨b.notices, b.dropped⟩, { b with pending := none }) := by
  obtain ⟨max, room, _ | q⟩ := b
  · rfl
  · exact if_neg q.held

theorem Bus.discard_spec (b : Bus) (ids : List UUID) :
    (b.discard ids).notices = (b.notices.filter fun notice => notice.id ∉ ids) ∧
    (b.discard ids).dropped = (if (b.discard ids).notices = [] then 0 else b.dropped) ∧
    (b.discard ids).maxPendingPerSession = b.maxPendingPerSession := by
  obtain ⟨max, room, _ | q⟩ := b
  · unfold discard
    split <;> exact ⟨rfl, rfl, rfl⟩
  · unfold discard
    split
    next hnone =>
      subst hnone
      simp [notices, q.held]
    · dsimp only
      split
      next hnil => exact ⟨hnil.symm, rfl, rfl⟩
      next hne => exact ⟨rfl, (if_neg hne).symm, rfl⟩

namespace Account

theorem counted_iff : a.Counted ↔ a.reported + a.bus.dropped = a.dropped.length := by
  rw [Counted, Bus.drain_eq]

theorem Fates.publish (h : a.Fates) (hstep : a.step (.publish notice) = some a') :
    a'.Fates ∧ (a.Counted → a'.Counted) := by
  cases hstep
  have hone := h.one.append_right [notice]
  have hnew := h.newest.append_right [notice]
  simp only [append_assoc] at hone hnew
  have htrim := trim_eq a.bus.maxPendingPerSession (a.bus.notices ++ [notice]) a.bus.dropped
  obtain ⟨hleft, hcount⟩ := Prod.mk.inj htrim
  change (a.bus.enqueue notice).notices = _ at hleft
  change (a.bus.enqueue notice).dropped = _ at hcount
  rw [counted_iff, counted_iff]
  generalize a.bus.notices ++ [notice] = arrived at *
  have hlen := congrArg length hleft
  rw [length_drop] at hlen
  have hcut : arrived.length - (a.bus.enqueue notice).notices.length =
      arrived.length - a.bus.maxPendingPerSession := by omega
  rw [hcut]
  refine ⟨⟨?_, ?_, ?_⟩, fun hcounted => ?_⟩
  · simpa only [hleft, append_assoc, take_append_drop] using hone
  · simpa only [hleft, append_assoc, take_append_drop] using hnew
  · show _ ≤ a.bus.maxPendingPerSession
    dsimp only
    omega
  · dsimp only
    rw [hcount, length_append, length_take]
    omega

theorem Fates.drain (h : a.Fates) (hstep : a.step .drain = some a') :
    a'.Fates ∧ (a.Counted → a'.Counted) := by
  rw [step, Bus.drain_eq] at hstep
  cases hstep
  refine ⟨⟨?_, ?_, Nat.zero_le _⟩, counted_iff.1⟩
  · refine perm_iff_count.2 fun n => ?_
    have hone := h.one.count_eq n
    simp only [Bus.notices, Option.elim_none, append_nil, count_append] at hone ⊢
    omega
  · exact ((nil_sublist _).append_left _).trans h.newest

theorem Fates.discard (h : a.Fates) (hstep : a.step (.discard ids) = some a') :
    a'.Fates ∧ (a.Counted → (a'.Counted ↔ a.KeepsCount (.discard ids))) := by
  cases hstep
  obtain ⟨hleft, hcount, hmax⟩ := a.bus.discard_spec ids
  rw [hleft] at hcount
  refine ⟨⟨?_, ?_, ?_⟩, ?_⟩
  · refine perm_iff_count.2 fun n => ?_
    have hone := h.one.count_eq n
    have hsplit := (filter_append_perm (·.id ∈ ids) a.bus.notices).count_eq n
    simp only [hleft, count_append, decide_not] at hone hsplit ⊢
    omega
  · rw [hleft]
    exact (filter_sublist.append_left _).trans h.newest
  · rw [hleft, hmax]
    exact Nat.le_trans (length_filter_le _ _) h.bounded
  · have hany : (∃ notice ∈ a.bus.notices, notice.id ∉ ids) ↔
        (a.bus.notices.filter fun notice => notice.id ∉ ids) ≠ [] := by
      simp [filter_eq_nil_iff]
    rw [counted_iff, counted_iff, KeepsCount, hany]
    rw [hcount]
    intro hcounted
    split
    next hnil =>
      simp only [hnil, ne_eq, not_true_eq_false, false_or]
      omega
    next hne => exact ⟨fun _ => .inl hne, fun _ => hcounted⟩

end Account

end

/-- **What becomes of the notices of a session.** Whatever is published, drained and discarded, every
published notice is at every moment pending, drained, discarded or dropped for lack of room, once; the
pending ones are the newest of those that were not delivered and within the bound. The drops are
reported by the drains, now and so far, exactly as long as every `Discard` leaves a pending notice or
meets a queue that has dropped none. -/
theorem notices_accounted (maxPendingPerSession : Int) (calls : List Call) :
    Always Account.step Account.Fates (.new maxPendingPerSession) calls ∧
    (Always Account.step Account.Counted (.new maxPendingPerSession) calls ↔
      Along Account.step Account.KeepsCount (.new maxPendingPerSession) calls) := by
  have hfates : ∀ a call a', Account.Fates a → a.step call = some a' → a'.Fates := by
    intro a call a' h hstep
    cases call with
    | publish => exact (h.publish hstep).1
    | drain => exact (h.drain hstep).1
    | discard ids => exact (h.discard hstep).1
  have hnew : Account.Fates (.new maxPendingPerSession) := ⟨.nil, .slnil, Nat.zero_le _⟩
  refine ⟨.of_step hfates hnew, always_iff_along hfates ?_ hnew rfl⟩
  intro a call a' h hcounted hstep
  cases call with
  | publish => exact iff_of_true ((h.publish hstep).2 hcounted) trivial
  | drain => exact iff_of_true ((h.drain hstep).2 hcounted) trivial
  | discard ids => exact (h.discard hstep).2 hcounted

/-- A queue of one notice drops the first of two, and its count goes with the second: no drain reports
the drop. -/
theorem not_always_counted : ¬ Always Account.step Account.Counted (.new 1)
    [.publish ⟨1, "first"⟩, .publish ⟨2, "second"⟩, .discard [2], .drain] := by
  decide

end Peen.Events
