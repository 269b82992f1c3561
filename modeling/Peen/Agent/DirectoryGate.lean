import Peen.Base
import Peen.Lib.Run

/-!
# The directory gate

`directoryGate` lets shared callers in together and an exclusive one alone.
-/

namespace Peen.DirectoryGate

open List Lts

/-- A caller of `acquire`: in its `select` on the channel it read, with the gate, after its release,
which it may call again, or after its context was cancelled. -/
inductive Caller
  | asleep (exclusive : Bool) (changed : Nat)
  | holding (exclusive : Bool)
  | released
  | cancelled

/-- `directoryGate` and its callers. Channels are numbered, and all before `changed` are closed. -/
structure World where
  changed : Nat := 1
  readers : Int := 0
  waitingWriters : Int := 0
  writer : Bool := false
  callers : List Caller := []

section
variable (w : World) (i : Nat) (exclusive : Bool)

/-- Whether the caller may enter now. -/
def World.canEnter : Bool :=
  if w.writer then false
  else if exclusive then w.readers = 0
  else w.waitingWriters = 0

/-- Close `changed` and replace it: every sleeper looks again. -/
@[simp] def World.notifyLocked : World := { w with changed := w.changed + 1 }

/-- Caller `i` goes on. -/
@[simp] def World.put (c : Caller) : World :=
  { w with callers := w.callers.set i c }

/-- `acquire` up to its loop. The new caller has read no channel yet. -/
def World.register : World :=
  { w with
    waitingWriters := if exclusive then w.waitingWriters + 1 else w.waitingWriters
    callers := w.callers ++ [.asleep exclusive 0] }

/-- A round of the loop of `acquire`. -/
def World.attempt (exclusive cancelled : Bool) : World :=
  if cancelled then
    (if exclusive then { w with waitingWriters := w.waitingWriters - 1 }.notifyLocked
      else w).put i .cancelled
  else if w.canEnter exclusive then
    (if exclusive then { w with waitingWriters := w.waitingWriters - 1, writer := true }
      else { w with readers := w.readers + 1 }).put i (.holding exclusive)
  else w.put i (.asleep exclusive w.changed)

def World.release : World :=
  (if exclusive then { w with writer := false }
    else { w with readers := w.readers - 1 }).notifyLocked.put i .released

end

/-- A caller asks, wakes on a closed channel, or leaves. Each is one section under the mutex, and
whether its context has ended by then is open. -/
inductive Action
  | acquire (exclusive cancelled : Bool)
  | wake (i : Nat) (cancelled : Bool)
  | release (i : Nat)

def step (w : World) : Action → Option World
  | .acquire exclusive cancelled =>
    some ((w.register exclusive).attempt w.callers.length exclusive cancelled)
  | .wake i cancelled =>
    match w.callers[i]? with
    | some (.asleep exclusive changed) =>
      if changed ≠ w.changed ∨ cancelled then some (w.attempt i exclusive cancelled) else none
    | _ => none
  | .release i =>
    match w.callers[i]? with
    | some (.holding exclusive) => some (w.release i exclusive)
    | some .released => some w
    | _ => none

@[simp] def Caller.waits : Caller → Bool
  | .asleep exclusive _ => exclusive
  | _ => false

@[simp] def Caller.holds (exclusive : Bool) : Caller → Bool
  | .holding e => e == exclusive
  | _ => false

/-- How many callers have the gate, shared or exclusive. -/
def World.holders (w : World) (exclusive : Bool) : Nat := w.callers.countP (·.holds exclusive)

def World.waiting (w : World) : Nat := w.callers.countP Caller.waits

/-- Nobody sleeps on the open channel whom the gate would let in. -/
def Noticed (w : World) : Prop :=
  ∀ exclusive changed, .asleep exclusive changed ∈ w.callers →
    changed ≤ w.changed ∧ (changed = w.changed → w.canEnter exclusive = false)

/-- The counters are right, a writer is alone, and whoever sleeps will be woken. -/
structure Inv (w : World) : Prop where
  readers : w.readers = w.holders false
  writer : w.holders true = w.writer.toNat
  waiting : w.waitingWriters = w.waiting
  alone : w.writer = true → w.readers = 0
  changed : 0 < w.changed
  noticed : Noticed w

section
variable {w w' v : World} {i n : Nat} {old new : Caller} {exclusive cancelled : Bool}

theorem countP_set_toNat (p : Caller → Bool) (h : w.callers[i]? = some old) (new : Caller) :
    (w.callers.set i new).countP p + (p old).toNat = w.callers.countP p + (p new).toNat := by
  obtain ⟨hi, rfl⟩ := List.getElem?_eq_some_iff.1 h
  have hpos : p w.callers[i] = true → 0 < w.callers.countP p := fun hp =>
    countP_pos_iff.2 ⟨_, getElem_mem hi, hp⟩
  rw [countP_set hi]
  split <;> split <;> simp_all [-countP_pos_iff] <;> omega

/-- What keeps the invariant when one caller goes on: the counters follow it, and while the channel
stays, nobody may enter who could not before. -/
theorem Inv.put (h : Inv w) (hi : w.callers[i]? = some old)
    (hcallers : v.callers = w.callers.set i new)
    (hreaders : v.readers + (old.holds false).toNat = w.readers + (new.holds false).toNat)
    (hwriter : v.writer.toNat + (old.holds true).toNat = w.writer.toNat + (new.holds true).toNat)
    (hwaiting : v.waitingWriters + old.waits.toNat = w.waitingWriters + new.waits.toNat)
    (halone : v.writer = true → v.readers = 0) (hle : w.changed ≤ v.changed)
    (henter : v.changed = w.changed → ∀ e, w.canEnter e = false → v.canEnter e = false)
    (hnew : ∀ e n, new = .asleep e n → n = v.changed ∧ v.canEnter e = false) : Inv v := by
  have hcount := fun p => countP_set_toNat p hi new
  obtain ⟨hr, hw, hq, -, hchanged, hnoticed⟩ := h
  unfold World.holders World.waiting at *
  refine ⟨?_, ?_, ?_, halone, Nat.lt_of_lt_of_le hchanged hle, fun e n hm => ?_⟩
  · have := hcount (·.holds false)
    rw [World.holders, hcallers]
    omega
  · have := hcount (·.holds true)
    rw [World.holders, hcallers]
    omega
  · have := hcount Caller.waits
    rw [World.waiting, hcallers]
    omega
  · rw [hcallers] at hm
    rcases mem_or_eq_of_mem_set hm with hm | hm
    · obtain ⟨hn, hno⟩ := hnoticed e n hm
      exact ⟨Nat.le_trans hn hle, fun heq => henter (by omega) e (hno (by omega))⟩
    · obtain ⟨rfl, hno⟩ := hnew e n hm.symm
      exact ⟨Nat.le_refl _, fun _ => hno⟩

theorem Inv.register (h : Inv w) (exclusive : Bool) : Inv (w.register exclusive) := by
  obtain ⟨hreaders, hwriter, hwaiting, halone, hchanged, hnoticed⟩ := h
  refine ⟨?_, ?_, ?_, halone, hchanged, fun e n hm => ?_⟩
  · simpa [World.holders, World.register] using hreaders
  · simpa [World.holders, World.register] using hwriter
  · cases exclusive <;> simp [World.waiting, World.register, hwaiting]
  · rcases mem_append.1 hm with hm | hm
    · refine ⟨(hnoticed e n hm).1, fun heq => ?_⟩
      have hno := (hnoticed e n hm).2 heq
      cases exclusive <;> cases e <;> simp_all [World.canEnter, World.register]
      omega
    · cases mem_singleton.1 hm
      exact ⟨Nat.zero_le _, fun h => absurd h (Nat.ne_of_lt hchanged)⟩

theorem Inv.attempt (h : Inv w) (hi : w.callers[i]? = some (.asleep exclusive n)) :
    Inv (w.attempt i exclusive cancelled) := by
  have hreaders := h.readers
  unfold World.attempt
  split
  · cases exclusive
    · exact h.put hi rfl (by simp) (by simp) (by simp) h.alone (Nat.le_refl _) (fun _ _ h => h)
        nofun
    · exact h.put hi rfl (by simp) (by simp) (by simp) h.alone (Nat.le_succ _)
        (fun h => absurd h (Nat.succ_ne_self _)) nofun
  split
  next henter =>
    simp only [World.canEnter] at henter
    cases exclusive
    · refine h.put hi rfl (by simp) (by simp) (by simp) (by simp_all) (Nat.le_refl _)
        (fun _ e hno => ?_) nofun
      cases e <;> simp_all [World.canEnter]
      omega
    · exact h.put hi rfl (by simp) (by simp_all) (by simp) (by simp_all) (Nat.le_refl _)
        (fun _ _ _ => rfl) nofun
  next hno =>
    refine h.put hi rfl (by simp) (by simp) (by simp) h.alone (Nat.le_refl _) (fun _ _ h => h) ?_
    intro e n hnew
    cases hnew
    exact ⟨rfl, Bool.not_eq_true _ ▸ hno⟩

theorem Inv.release (h : Inv w) (hi : w.callers[i]? = some (.holding exclusive)) :
    Inv (w.release i exclusive) := by
  have hheld : 0 < w.holders exclusive := countP_pos_iff.2 ⟨_, mem_of_getElem? hi, by simp⟩
  have hone := h.writer
  unfold World.release
  cases exclusive
  · refine h.put hi rfl (by simp) (by simp) (by simp) (fun hw => ?_) (Nat.le_succ _)
      (fun h => absurd h (Nat.succ_ne_self _)) nofun
    have := h.alone hw
    have := h.readers
    omega
  · refine h.put hi rfl (by simp) ?_ (by simp) nofun (Nat.le_succ _)
      (fun h => absurd h (Nat.succ_ne_self _)) nofun
    cases hw : w.writer <;> simp_all

theorem Inv.entered (h : Inv w) (hi : w.callers[i]? = some (.asleep exclusive n))
    (cancelled : Bool) :
    (w.attempt i exclusive cancelled).holders false ≤ w.holders false ∨ w.waiting = 0 := by
  have hcount := countP_set_toNat (·.holds false) hi
  unfold World.attempt
  split
  · cases exclusive <;> exact .inl (Nat.le_of_eq (hcount .cancelled))
  split
  next henter =>
    cases exclusive
    · have := h.waiting
      simp only [World.canEnter] at henter
      grind
    · exact .inl (Nat.le_of_eq (hcount (.holding true)))
  next => exact .inl (Nat.le_of_eq (hcount _))

theorem Inv.step (h : Inv w) (hs : step w a = some w') :
    Inv w' ∧ (w'.holders false ≤ w.holders false ∨ w.waiting = 0) := by
  cases a with
  | acquire exclusive cancelled =>
    cases hs
    have hi : (w.register exclusive).callers[w.callers.length]? = some (.asleep exclusive 0) := by
      simp [World.register]
    refine ⟨(h.register exclusive).attempt hi, ?_⟩
    refine ((h.register exclusive).entered hi cancelled).imp (fun hle => ?_) fun hzero => ?_
    · simpa [World.register, World.holders] using hle
    · simp_all [World.register, World.waiting]
  | wake i cancelled =>
    simp only [DirectoryGate.step] at hs
    split at hs
    next hi =>
      cases (of_guard hs).2
      exact ⟨h.attempt hi, h.entered hi cancelled⟩
    next => cases hs
  | release i =>
    simp only [DirectoryGate.step] at hs
    split at hs
    next exclusive hi =>
      cases hs
      refine ⟨h.release hi, .inl ?_⟩
      have := countP_set_toNat (·.holds false) hi .released
      cases exclusive <;> simp [World.release, World.holders] at * <;> omega
    next => cases hs; exact ⟨h, .inl (Nat.le_refl _)⟩
    next => cases hs

end

/-- **The directory gate is a readers-writer gate.** However calls, releases and cancellations
interleave: an exclusive holder is the only one; the counters are the numbers of holders and of
waiting exclusive callers; nobody sleeps without a notification whom the gate would let in; and more
callers come to share the gate only while no exclusive one waits. -/
theorem gate_excludes (actions : List Action) :
    Always step (fun w => (0 < w.holders true → w.holders true + w.holders false = 1) ∧
      w.readers = w.holders false ∧ w.holders true = w.writer.toNat ∧
      w.waitingWriters = w.waiting ∧
      ∀ exclusive, .asleep exclusive w.changed ∈ w.callers → w.canEnter exclusive = false)
      {} actions ∧
    Along step (fun w a => ∀ w', step w a = some w' → w.holders false < w'.holders false →
      w.waiting = 0) {} actions := by
  have hnew : Inv {} := ⟨rfl, rfl, rfl, nofun, Nat.one_pos, nofun⟩
  have hstep : ∀ w a w', Inv w → step w a = some w' → Inv w' := fun _ _ _ h hs => (h.step hs).1
  refine ⟨(Always.of_step hstep hnew).mono fun w h => ?_, along_of_inv hstep ?_ hnew⟩
  · refine ⟨fun hpos => ?_, h.readers, h.writer, h.waiting,
      fun exclusive hm => (h.noticed exclusive _ hm).2 rfl⟩
    have hone := h.writer
    have hshared := h.readers
    cases hw : w.writer with
    | false => simp_all
    | true =>
      rw [hw, Bool.toNat_true] at hone
      have := h.alone hw
      omega
  · exact fun w a _ h _ w' hs hmore => (h.step hs).2.resolve_left (Nat.not_le.2 hmore)

end Peen.DirectoryGate
