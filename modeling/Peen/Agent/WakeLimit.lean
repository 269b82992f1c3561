import Mathlib.Logic.Function.Basic
import Peen.Base
import Peen.Lib.Purge

/-!
# The rate limit of wakes

`wakeLimiter.allow` grants a session at most `limit` wakes an hour and forgets a grant once it is an
hour old.
-/

namespace Peen.WakeLimit

open List Lts Purge Function

/-- One hour, in nanoseconds. -/
def wakeWindow : Int := 3600000000000

abbrev Seen := UUID → List Int

/-- `wakeLimiter.allow`: at most `limit` wakes an hour, and older grants are forgotten. -/
def allow (limit : Int) (seen : Seen) (sessionID : UUID) (now : Int) : Bool × Seen :=
  if limit ≤ 0 then (true, seen)
  else
    let cutoff := now - wakeWindow
    let kept := (seen sessionID).filter (cutoff < ·)
    if kept.length ≥ limit then (false, update seen sessionID kept)
    else (true, update seen sessionID (kept ++ [now]))

/-- A limiter, the time of its last call and, as history, the wakes it granted each session. -/
structure World where
  seen : Seen := fun _ => []
  clock : Int
  granted : UUID → List Int := fun _ => []

def step (limit : Int) (w : World) (call : UUID × Int) : Option World :=
  if w.clock ≤ call.2 then
    let (allowed, seen) := allow limit w.seen call.1 call.2
    let granted := w.granted call.1
    some ⟨seen, call.2, update w.granted call.1 (if allowed then granted ++ [call.2] else granted)⟩
  else none

/-- How many of these wakes lie in the hour after `since`. -/
def inHour (granted : List Int) (since : Int) : Nat :=
  granted.countP fun g => since < g ∧ g ≤ since + wakeWindow

/-- What `allow` does to the times of the session it is called for. -/
def allowOwn (limit : Int) (seen : List Int) (now : Int) : Bool × List Int :=
  let kept := seen.filter (now - wakeWindow < ·)
  if limit ≤ 0 then (true, seen) else if kept.length ≥ limit then (false, kept)
  else (true, kept ++ [now])

theorem allow_eq (limit : Int) (seen : Seen) (sessionID : UUID) (now : Int) :
    allow limit seen sessionID now = ((allowOwn limit (seen sessionID) now).1,
      update seen sessionID (allowOwn limit (seen sessionID) now).2) := by
  unfold allow allowOwn
  split
  · rw [update_eq_self]
  · dsimp only
    split <;> rfl

/-- What holds of the remembered and the granted times of a session. -/
structure Inv (limit clock : Int) (seen granted : List Int) : Prop where
  kept : ∀ now, clock ≤ now →
    seen.filter (now - wakeWindow < ·) = granted.filter (now - wakeWindow < ·)
  past : ∀ g ∈ granted, g ≤ clock
  bounded : ∀ since, inHour granted since ≤ limit

section
variable {limit clock now : Int} {seen granted : List Int}

theorem Inv.later (h : Inv limit clock seen granted) (hle : clock ≤ now) :
    Inv limit now seen granted :=
  ⟨fun t ht => h.kept t (Int.le_trans hle ht), fun g hg => Int.le_trans (h.past g hg) hle, h.bounded⟩

/-- What is forgotten at a call is outside the hour up to every later one. -/
theorem Inv.forget (h : Inv limit now seen granted) :
    Inv limit now (seen.filter (now - wakeWindow < ·)) granted := by
  refine ⟨fun t ht => ?_, h.past, h.bounded⟩
  rw [← h.kept t ht, filter_filter]
  refine filter_congr fun x _ => ?_
  simp only [Bool.and_eq_left_iff_imp, decide_eq_true_eq]
  omega

theorem Inv.length_kept (h : Inv limit now seen granted) :
    (seen.filter (now - wakeWindow < ·)).length = inHour granted (now - wakeWindow) := by
  rw [h.kept now (Int.le_refl _), ← countP_eq_length_filter]
  refine countP_congr fun g hg => ?_
  have := h.past g hg
  simp only [decide_eq_true_eq]
  omega

theorem Inv.grant (h : Inv limit now seen granted)
    (hroom : inHour granted (now - wakeWindow) < limit) :
    Inv limit now (seen ++ [now]) (granted ++ [now]) := by
  refine ⟨fun t ht => ?_, fun g hg => ?_, fun since => ?_⟩
  · rw [filter_append, filter_append, h.kept t ht]
  · rcases mem_append.1 hg with hg | hg
    · exact h.past g hg
    · exact Int.le_of_eq (mem_singleton.1 hg)
  · rw [inHour, countP_append, countP_singleton]
    split
    next hin =>
      have hsub : inHour granted since ≤ inHour granted (now - wakeWindow) := by
        refine countP_mono_left fun g hg => ?_
        have := h.past g hg
        simp only [decide_eq_true_eq] at hin ⊢
        omega
      unfold inHour at *
      omega
    next => exact h.bounded since

/-- A call is refused exactly when the hour up to it is full, and keeps the invariant. -/
theorem Inv.allowOwn (h : Inv limit now seen granted) (hlimit : 0 < limit) :
    ((allowOwn limit seen now).1 = false ↔ limit ≤ inHour granted (now - wakeWindow)) ∧
    Inv limit now (allowOwn limit seen now).2
      (if (allowOwn limit seen now).1 then granted ++ [now] else granted) := by
  have heq : WakeLimit.allowOwn limit seen now = if inHour granted (now - wakeWindow) ≥ limit then
      (false, seen.filter (now - wakeWindow < ·))
      else (true, seen.filter (now - wakeWindow < ·) ++ [now]) := by
    rw [WakeLimit.allowOwn, if_neg (Int.not_le.2 hlimit), h.length_kept]
  rw [heq]
  split
  next hfull => exact ⟨iff_of_true rfl hfull, h.forget⟩
  next hroom => exact ⟨iff_of_false nofun hroom, h.forget.grant (Int.not_le.1 hroom)⟩

end

/-- **The rate limit of wakes.** Whatever calls are made for whatever sessions at times that never
go back, no hour of a session holds more granted wakes than the limit, a call is refused exactly if
the hour up to it holds that many, and every session is answered as if it were the only one. -/
theorem wakes_rate_limited (limit : Int) (hlimit : 0 < limit) (start : Int)
    (calls : List (UUID × Int)) :
    Always (step limit) (fun w => ∀ sessionID since, inHour (w.granted sessionID) since ≤ limit)
      { clock := start } calls ∧
    Along (step limit) (fun w call => (allow limit w.seen call.1 call.2).1 = false ↔
      limit ≤ inHour (w.granted call.1) (call.2 - wakeWindow)) { clock := start } calls ∧
    ∀ own seen, answers (allow limit) own seen calls =
      answers (allow limit) own seen (purge own calls) := by
  let I : World → Prop := fun w => ∀ s, Inv limit w.clock (w.seen s) (w.granted s)
  have hnew : I { clock := start } := fun _ =>
    ⟨fun _ _ => rfl, fun _ hg => absurd hg not_mem_nil, fun _ => Int.le_of_lt hlimit⟩
  have hown : ∀ w call w', I w → step limit w call = some w' → I w' ∧
      ((allow limit w.seen call.1 call.2).1 = false ↔
        limit ≤ inHour (w.granted call.1) (call.2 - wakeWindow)) := by
    intro w ⟨sessionID, now⟩ w' h hs
    obtain ⟨hle, hs⟩ := of_guard hs
    have ⟨hiff, hcall⟩ := ((h sessionID).later hle).allowOwn hlimit
    rw [allow_eq] at hs ⊢
    cases hs
    refine ⟨fun s => ?_, hiff⟩
    by_cases hself : s = sessionID
    · subst hself
      simpa only [update_self] using hcall
    · simpa only [update_of_ne hself] using (h s).later hle
  refine ⟨(Always.of_step (fun w call w' h hs => (hown w call w' h hs).1) hnew).mono
      fun w h s => (h s).bounded, along_of_inv (fun w call w' h hs => (hown w call w' h hs).1)
      (fun w call w' h hs => (hown w call w' h hs).2) hnew, fun own seen => ?_⟩
  -- what a session is answered depends on its own times, which only its own calls change
  have h := @unwinding _ _ _ _ _ _ (allow limit) own id (fun s t => s own = t own) (fun _ _ => True)
    (fun s t now h _ => by simp [allow_eq, h])
    (fun s t i now hi h => by simpa [allow_eq, update_of_ne (Ne.symm hi)] using h) seen seen calls rfl
    (along_of_inv (fun _ _ _ _ _ => trivial) (fun _ _ _ _ _ => trivial) trivial)
  rwa [map_id, map_id] at h

/-- Calls for two sessions, of which the last is an hour after the first. -/
def hourOfCalls : List (UUID × Int) := [(1, 0), (1, 5), (2, 5), (1, 6), (1, wakeWindow)]

/-- Two wakes an hour: the third call of a session is refused, and the one an hour later granted. -/
theorem wakes_rate_limited_two : (0 : Int) < 2 ∧
    answers (allow 2) 1 (fun _ => []) hourOfCalls = [true, true, false, true] ∧
    Always (step 2) (fun w => ∀ sessionID since, inHour (w.granted sessionID) since ≤ (2 : Int))
      { clock := 0 } hourOfCalls ∧
    Along (step 2) (fun w call => (allow 2 w.seen call.1 call.2).1 = false ↔
      2 ≤ (inHour (w.granted call.1) (call.2 - wakeWindow) : Int)) { clock := 0 } hourOfCalls ∧
    ∀ own seen, answers (allow 2) own seen hourOfCalls =
      answers (allow 2) own seen (purge own hourOfCalls) :=
  ⟨by decide, by decide +kernel, wakes_rate_limited 2 (by decide) 0 hourOfCalls⟩

end Peen.WakeLimit
