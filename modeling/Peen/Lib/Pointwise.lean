import Mathlib.Data.List.Forall2

/-!
# Tables related row by row

A table that keeps its rows in their order and rewrites each of them: two lists related by
`List.Forall₂`.
-/

namespace List.Forall₂

variable {α β κ : Type}

theorem exists_right (h : Forall₂ R xs ys) (hx : x ∈ xs) : ∃ y ∈ ys, R x y := by
  induction h with
  | nil => cases hx
  | cons hrow _ ih =>
    rcases mem_cons.1 hx with rfl | hx
    · exact ⟨_, mem_cons_self, hrow⟩
    · obtain ⟨y, hy, hxy⟩ := ih hx
      exact ⟨y, mem_cons_of_mem _ hy, hxy⟩

theorem exists_left (h : Forall₂ R xs ys) (hy : y ∈ ys) : ∃ x ∈ xs, R x y := by
  induction h with
  | nil => cases hy
  | cons hrow _ ih =>
    rcases mem_cons.1 hy with rfl | hy
    · exact ⟨_, mem_cons_self, hrow⟩
    · obtain ⟨x, hx, hxy⟩ := ih hy
      exact ⟨x, mem_cons_of_mem _ hx, hxy⟩

theorem comp {ys zs : List α} (htrans : ∀ {x y z}, S x y → S y z → S x z)
    (h : Forall₂ S xs ys) (h' : Forall₂ S ys zs) : Forall₂ S xs zs := by
  induction h generalizing zs with
  | nil => exact h'
  | cons hrow _ ih =>
    cases h' with
    | cons hrow' hrest => exact .cons (htrans hrow hrow') (ih hrest)

theorem map_congr (hkey : ∀ {x y}, R x y → g y = f x) (h : Forall₂ R xs ys) : ys.map g = xs.map f := by
  induction h with
  | nil => rfl
  | cons hrow _ ih => rw [map_cons, map_cons, ih, hkey hrow]

end List.Forall₂
