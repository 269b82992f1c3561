import Mathlib.Data.List.Basic

/-!
# Replacing ranges of a list

A list of edits, each a range of the original list and what stands there afterwards, applied in one
pass from left to right.
-/

namespace Splice

open List

variable {α β : Type}

def slice (xs : List α) (i j : Nat) : List α := (xs.take j).drop i

/-- A range of the list and what replaces it. -/
structure Edit (α : Type) where
  start : Nat
  count : Nat
  new : List α

def Edit.stop (e : Edit α) : Nat := e.start + e.count

def Edit.map (f : α → β) (e : Edit α) : Edit β := ⟨e.start, e.count, e.new.map f⟩

/-- One pass from left to right, in positions of the original list. -/
def apply (xs : List α) : Nat → List (Edit α) → List α
  | s, [] => xs.drop s
  | s, e :: es => slice xs s e.start ++ e.new ++ apply xs e.stop es

/-! ## Slices -/

section
variable {xs : List α} {i j k : Nat}

theorem length_slice (hj : j ≤ xs.length) : (slice xs i j).length = j - i := by
  rw [slice, length_drop, length_take, Nat.min_eq_left hj]

theorem slice_eq_take_drop : slice xs i j = (xs.drop i).take (j - i) := drop_take

@[simp] theorem slice_all : slice xs 0 xs.length = xs := take_length

theorem slice_append_slice (hij : i ≤ j) (hjk : j ≤ k) :
    slice xs i j ++ slice xs j k = slice xs i k := by
  have hk : k - i = (j - i) + (k - j) := by omega
  rw [slice_eq_take_drop, slice_eq_take_drop, slice_eq_take_drop, hk, take_add,
    drop_drop, Nat.add_sub_cancel' hij]

theorem slice_append_drop (hij : i ≤ j) : slice xs i j ++ xs.drop j = xs.drop i := by
  have h : xs.drop j = (xs.drop i).drop (j - i) := by
    rw [drop_drop, Nat.add_sub_cancel' hij]
  rw [slice_eq_take_drop, h, take_append_drop]

theorem slice_append_left (hj : j ≤ xs.length) : slice (xs ++ ys) i j = slice xs i j := by
  rw [slice, take_append_of_le_length hj, slice]

theorem slice_middle (xs ys zs : List α) :
    slice (xs ++ ys ++ zs) xs.length (xs ++ ys).length = ys := by
  rw [slice, take_left, drop_left]

theorem map_slice (f : α → β) : (slice xs i j).map f = slice (xs.map f) i j := by
  rw [slice, map_drop, map_take, slice]

end

/-! ## Edits -/

theorem map_apply (f : α → β) (xs : List α) (s : Nat) (es : List (Edit α)) :
    (apply xs s es).map f = apply (xs.map f) s (es.map (Edit.map f)) := by
  induction es generalizing s with
  | nil => exact map_drop
  | cons e es ih =>
    rw [apply, map_append, map_append, map_slice, ih]
    rfl

end Splice
