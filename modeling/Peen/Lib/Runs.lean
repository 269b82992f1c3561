import Mathlib.Data.List.Basic

/-!
# Cutting a list into runs

`cut` walks a list from the left and ends a run after every element that is a boundary; whether it
is may depend on how long the run has become.
-/

namespace Runs

open List

section
variable {α β : Type*} (boundary : α → Nat → Bool)

/-- The closed runs of `run ++ l` and its open run, where `run` has been walked already. -/
def cut : List α → List α → List (List α) × List α
  | run, [] => ([], run)
  | run, x :: xs =>
    if boundary x (run.length + 1) then
      let (runs, rest) := cut [] xs
      ((run ++ [x]) :: runs, rest)
    else cut (run ++ [x]) xs

variable {boundary}

@[simp] theorem cut_nil (run : List α) : cut boundary run [] = ([], run) := rfl

theorem cut_cons_boundary {run : List α} (h : boundary x (run.length + 1) = true) :
    cut boundary run (x :: xs) =
      ((run ++ [x]) :: (cut boundary [] xs).1, (cut boundary [] xs).2) := by
  rw [cut, if_pos h]

theorem cut_cons_inside {run : List α} (h : boundary x (run.length + 1) = false) :
    cut boundary run (x :: xs) = cut boundary (run ++ [x]) xs := by
  rw [cut, if_neg (by simp [h])]

theorem cut_flatten (run l : List α) :
    (cut boundary run l).1.flatten ++ (cut boundary run l).2 = run ++ l := by
  induction l generalizing run with
  | nil => simp
  | cons x xs ih =>
    cases h : boundary x (run.length + 1) with
    | true =>
      have := ih []
      rw [cut_cons_boundary h, flatten_cons, append_assoc, this]
      simp
    | false =>
      rw [cut_cons_inside h, ih]
      simp

/-- **Cutting never looks ahead.** -/
theorem cut_append (run l l' : List α) :
    cut boundary run (l ++ l') =
      ((cut boundary run l).1 ++ (cut boundary (cut boundary run l).2 l').1,
        (cut boundary (cut boundary run l).2 l').2) := by
  induction l generalizing run with
  | nil => simp
  | cons x xs ih =>
    cases h : boundary x (run.length + 1) with
    | true => rw [cons_append, cut_cons_boundary h, cut_cons_boundary h, ih]; rfl
    | false => rw [cons_append, cut_cons_inside h, cut_cons_inside h, ih]

theorem cut_map (hf : ∀ x n, boundary' (f x) n = boundary x n) (run l : List α) :
    cut boundary' (run.map f) (l.map f) =
      ((cut boundary run l).1.map (map f), (cut boundary run l).2.map f) := by
  induction l generalizing run with
  | nil => simp
  | cons x xs ih =>
    cases h : boundary x (run.length + 1) with
    | true =>
      have h' : boundary' (f x) ((run.map f).length + 1) = true := by
        rw [length_map, hf, h]
      have := ih []
      rw [map_nil] at this
      rw [map_cons, cut_cons_boundary h', cut_cons_boundary h, this]
      simp
    | false =>
      have h' : boundary' (f x) ((run.map f).length + 1) = false := by
        rw [length_map, hf, h]
      have := ih (run ++ [x])
      rw [map_append] at this
      rw [map_cons, cut_cons_inside h', cut_cons_inside h]
      exact this

theorem exists_cut_cons {m : Nat} (hb : ∀ x n, m ≤ n → boundary x n = true) (run : List α)
    (hl : l ≠ []) (hm : m ≤ run.length + l.length) :
    ∃ r runs rest, cut boundary run l = (r :: runs, rest) ∧ r ≠ [] ∧ r <+: run ++ l := by
  induction l generalizing run with
  | nil => exact absurd rfl hl
  | cons x xs ih =>
    cases h : boundary x (run.length + 1) with
    | true =>
      refine ⟨run ++ [x], _, _, cut_cons_boundary h, by simp, xs, by simp⟩
    | false =>
      have hlt : ¬ m ≤ run.length + 1 := fun hle => by
        rw [hb x _ hle] at h
        cases h
      rw [length_cons] at hm
      have hxs : xs ≠ [] := fun e => by
        rw [e, length_nil] at hm
        omega
      rw [cut_cons_inside h, show run ++ x :: xs = run ++ [x] ++ xs by simp]
      exact ih _ hxs (by rw [length_append, length_singleton]; omega)

end

end Runs
