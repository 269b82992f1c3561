import Peen.Lib.Paths

/-!
# Moving and removing subtrees

Two primitives of a filesystem that change more than one entry: `renameNoReplace`, which moves an
entry with everything below it to a name where nothing is, and `removeAll`, which takes an entry out
with everything below it.
-/

namespace Files

open List

/-- Where a location is after the subtree at `s` was moved to `d`. -/
def moveLoc (s d l : Loc) : Loc := if s <:+ l then l.take (l.length - s.length) ++ d else l

@[simp] theorem moveLoc_append (s d u : Loc) : moveLoc s d (u ++ s) = u ++ d := by
  have hlen : (u ++ s).length - s.length = u.length := by
    rw [length_append]
    omega
  rw [moveLoc, if_pos (suffix_append u s), hlen, take_left]

theorem moveLoc_of_not (h : ¬ s <:+ l) : moveLoc s d l = l := if_neg h

/-- A location is moved with what is below it, or stays. -/
theorem moveLoc_cases (s d l : Loc) :
    (∃ u, l = u ++ s ∧ moveLoc s d l = u ++ d) ∨ (¬ s <:+ l ∧ moveLoc s d l = l) := by
  by_cases h : s <:+ l
  · obtain ⟨u, rfl⟩ := h
    exact .inl ⟨u, rfl, moveLoc_append s d u⟩
  · exact .inr ⟨h, moveLoc_of_not h⟩

/-- The entries, those below `s` moved to `d`. -/
def moveEntries (entries : List (Loc × Node)) (s d : Loc) : List (Loc × Node) :=
  entries.map fun e => (moveLoc s d e.1, e.2)

/-- A moved entry is found where it was moved to. -/
theorem lookup_moveEntries (h : ∀ e ∈ entries, moveLoc s d e.1 = k ↔ e.1 = l) :
    lookup (moveEntries entries s d) k = lookup entries l := by
  induction entries with
  | nil => rfl
  | cons e entries ih =>
    have ih := ih fun e' he' => h e' (mem_cons_of_mem e he')
    have he := h e mem_cons_self
    simp only [lookup, moveEntries, map_cons, find?_cons] at ih ⊢
    by_cases hl : e.1 = l
    · have hk : (moveLoc s d e.1 == k) = true := beq_iff_eq.2 (he.2 hl)
      have hl' : (e.1 == l) = true := beq_iff_eq.2 hl
      simp only [hk, hl', Option.map_some]
    · have hk : (moveLoc s d e.1 == k) = false := by
        rw [beq_eq_false_iff_ne]
        exact fun hk => hl (he.1 hk)
      have hl' : (e.1 == l) = false := beq_eq_false_iff_ne.2 hl
      simpa [hk, hl'] using ih

theorem lookup_moveEntries_none (h : ∀ e ∈ entries, moveLoc s d e.1 ≠ k) :
    lookup (moveEntries entries s d) k = none := by
  have hnone : (moveEntries entries s d).find? (·.1 == k) = none := by
    refine find?_eq_none.2 fun e he => ?_
    obtain ⟨e', he', rfl⟩ := mem_map.1 he
    simpa using h e' he'
  rw [lookup, hnone]
  rfl

namespace Tree

variable {t : Tree} {s d : Loc}

theorem node_of_mem (he : e ∈ t.entries) : t.node e.1 ≠ none := by
  intro hn
  have := find?_eq_none.1 (Option.map_eq_none_iff.1 hn) e he
  simp at this

/-- Nothing is below a location that is free. -/
theorem not_suffix_of_none (hd : t.node d = none) (hk : t.node k ≠ none) : ¬ d <:+ k := by
  intro h
  obtain ⟨n, hn⟩ := Option.ne_none_iff_exists'.1 hk
  obtain ⟨u, rfl⟩ := h
  cases u with
  | nil => exact hk hd
  | cons c u =>
    have hdir := node_suffix (node_parent hn).1 (suffix_append u d)
    rw [hd] at hdir
    cases hdir

/-- What a move needs: the moved entry is not the root, the new place is a free name in a directory,
and it is not below the moved entry. -/
structure Movable (t : Tree) (s : Loc) (c : String) (d : Loc) : Prop where
  inner : s ≠ []
  name : c ≠ ".."
  parent : t.node d = some .dir
  free : t.node (c :: d) = none
  apart : ¬ s <:+ c :: d

section

/-- What is below the source is below the destination afterwards. -/
theorem Movable.lookup_moved (h : Movable t s c d) (u : Loc) :
    lookup (moveEntries t.entries s (c :: d)) (u ++ c :: d) = t.node (u ++ s) := by
  refine lookup_moveEntries fun e he => ?_
  rcases moveLoc_cases s (c :: d) e.1 with ⟨v, hv, hm⟩ | ⟨hs, hm⟩
  · rw [hm, hv, append_left_inj, append_left_inj]
  · rw [hm]
    refine ⟨fun hk => ?_, fun hk => absurd (hk ▸ suffix_append u s) hs⟩
    exact absurd (hk ▸ suffix_append u (c :: d)) (not_suffix_of_none h.free (node_of_mem he))

/-- Beside source and destination nothing changes. -/
theorem lookup_other (hs : ¬ s <:+ k) (hd : ¬ d <:+ k) :
    lookup (moveEntries t.entries s d) k = t.node k := by
  refine lookup_moveEntries fun e he => ?_
  rcases moveLoc_cases s d e.1 with ⟨v, hv, hm⟩ | ⟨hs', hm⟩
  · rw [hm]
    refine ⟨fun hk => absurd (hk ▸ suffix_append v d) hd, fun hk => ?_⟩
    exact absurd (hk ▸ hv ▸ suffix_append v s) hs
  · rw [hm]

/-- Nothing is left below the source. -/
theorem lookup_source (hs : s <:+ k) (hd : ¬ d <:+ k) :
    lookup (moveEntries t.entries s d) k = none := by
  refine lookup_moveEntries_none fun e he hk => ?_
  rcases moveLoc_cases s d e.1 with ⟨v, hv, hm⟩ | ⟨hs', hm⟩
  · exact hd (hk ▸ hm ▸ suffix_append v d)
  · rw [hm] at hk
    exact hs' (hk ▸ hs)

theorem Movable.lookup_parent (h : Movable t s c d) :
    lookup (moveEntries t.entries s (c :: d)) d = some .dir := by
  rw [lookup_other (fun hs => h.apart (hs.trans (suffix_cons c d))) (not_suffix_cons c d)]
  exact h.parent

end

/-- The tree with the entry at `s`, and everything below it, moved to `c :: d`. -/
def relocate (t : Tree) (s : Loc) (c : String) (d : Loc) (h : Movable t s c d) : Tree where
  entries := moveEntries t.entries s (c :: d)
  root := by
    have hs : ¬ s <:+ [] := fun hs => h.inner (suffix_nil.1 hs)
    have hd : ¬ c :: d <:+ [] := fun hd => cons_ne_nil c d (suffix_nil.1 hd)
    rw [lookup_other hs hd]
    exact t.root
  inner := by
    refine all_attached fun e he c' d' hl => ?_
    obtain ⟨e', he', rfl⟩ := mem_map.1 he
    obtain ⟨n, hn⟩ := Option.ne_none_iff_exists'.1 (node_of_mem he')
    have hl : moveLoc s (c :: d) e'.1 = c' :: d' := hl
    rcases moveLoc_cases s (c :: d) e'.1 with ⟨u, hu, hm⟩ | ⟨hs, hm⟩
    · rw [hm] at hl
      cases u with
      | nil =>
        cases hl
        exact ⟨h.lookup_parent, h.name⟩
      | cons x u =>
        cases hl
        rw [hu] at hn
        refine ⟨(h.lookup_moved u).trans ?_, (node_parent hn).2⟩
        exact (node_parent hn).1
    · rw [hm] at hl
      rw [hl] at hn hs
      obtain ⟨hp, hc'⟩ := node_parent hn
      refine ⟨?_, hc'⟩
      have hs' : ¬ s <:+ d' := fun hs' => hs (hs'.trans (suffix_cons c' d'))
      have hd' : ¬ c :: d <:+ d' := by
        refine not_suffix_of_none h.free ?_
        rw [hp]
        exact Option.some_ne_none _
      rw [lookup_other hs' hd']
      exact hp

/-- `renameat2` with `RENAME_NOREPLACE`. -/
def renameNoReplace (t : Tree) (source destination : Path) : Except Errno Tree :=
  match t.entry source with
  | .error e => .error e
  | .ok s =>
    match t.entry destination with
    | .error e => .error e
    | .ok [] => .error .alreadyExists
    | .ok (c :: d) =>
      if t.node s = none then .error .noEntry
      else if t.node (c :: d) ≠ none then .error .alreadyExists
      else if h : s ≠ [] ∧ c ≠ ".." ∧ t.node d = some .dir ∧ t.node (c :: d) = none ∧
          ¬ s <:+ c :: d then
        .ok (t.relocate s c d ⟨h.1, h.2.1, h.2.2.1, h.2.2.2.1, h.2.2.2.2⟩)
      else .error .invalid

/-- A successful rename has moved the entry of its source. -/
theorem of_renameNoReplace (h : t.renameNoReplace p q = .ok t') :
    ∃ s c d, ∃ hm : Movable t s c d, t.entry p = .ok s ∧ t.entry q = .ok (c :: d) ∧
      t' = t.relocate s c d hm := by
  unfold renameNoReplace at h
  cases hs : t.entry p with
  | error e =>
    rw [hs] at h
    cases h
  | ok s =>
    rw [hs] at h
    cases hq : t.entry q with
    | error e =>
      rw [hq] at h
      cases h
    | ok l =>
      rw [hq] at h
      cases l with
      | nil => cases h
      | cons c d =>
        simp only at h
        split at h
        · cases h
        split at h
        · cases h
        split at h
        · next hm =>
          cases h
          exact ⟨s, c, d, ⟨hm.1, hm.2.1, hm.2.2.1, hm.2.2.2.1, hm.2.2.2.2⟩, rfl, rfl, rfl⟩
        · cases h

/-- A moved file changes two locations. -/
theorem node_relocate_file {mode : Nat} (h : Movable t s c d)
    (hf : t.node s = some (.file content mode)) (k : Loc) :
    (t.relocate s c d h).node k = if k = c :: d then some (.file content mode)
      else if k = s then none else t.node k := by
  show lookup (moveEntries t.entries s (c :: d)) k = _
  have hdir : t.node s ≠ some .dir := by
    rw [hf]
    exact nofun
  -- nothing is below a file, so only the file itself moves
  have hbel (u : Loc) (hu : u ≠ []) : t.node (u ++ s) = none := by
    cases u with
    | nil => exact absurd rfl hu
    | cons x u =>
      exact node_cons_eq_none (fun hu => hdir (node_suffix hu (suffix_append u s))) x
  by_cases hd : c :: d <:+ k
  · have hk : t.node k = none := by
      by_contra hk
      exact not_suffix_of_none h.free hk hd
    obtain ⟨u, rfl⟩ := hd
    rw [h.lookup_moved u]
    by_cases hu : u = []
    · rw [hu]
      exact hf.trans (if_pos rfl).symm
    · have hne : u ++ c :: d ≠ c :: d := fun he => hu (append_left_eq_self.1 he)
      rw [hbel u hu, if_neg hne, hk, ite_self]
  · have hne : k ≠ c :: d := fun he => hd (he ▸ suffix_refl _)
    rw [if_neg hne]
    by_cases hs : s <:+ k
    · rw [lookup_source hs hd]
      obtain ⟨u, rfl⟩ := hs
      by_cases hu : u = []
      · rw [hu]
        exact (if_pos rfl).symm
      · rw [hbel u hu, ite_self]
    · have hne : k ≠ s := fun he => hs (he ▸ suffix_refl _)
      rw [lookup_other hs hd, if_neg hne]

/-- Beside the removed entry nothing changes. -/
theorem lookup_filter_not_suffix (entries : List (Loc × Node)) (hk : ¬ s <:+ k) :
    lookup (entries.filter fun e => !decide (s <:+ e.1)) k = lookup entries k := by
  have hfind (e : Loc × Node) :
      decide ((!decide (s <:+ e.1)) = true ∧ (e.1 == k) = true) = (e.1 == k) := by
    by_cases he : e.1 = k
    · simp [he, hk]
    · simp [he]
  simp only [lookup, find?_filter, hfind]

/-- The tree without an entry and all below it. -/
def prune (t : Tree) (s : Loc) (h : s ≠ []) : Tree where
  entries := t.entries.filter fun e => !decide (s <:+ e.1)
  root := by
    rw [lookup_filter_not_suffix _ fun hs => h (suffix_nil.1 hs)]
    exact t.root
  inner := by
    refine all_attached fun e he c d hl => ?_
    obtain ⟨he, hs⟩ := mem_filter.1 he
    obtain ⟨hp, hc⟩ := mem_parent he hl
    have hs : ¬ s <:+ c :: d := by simpa [hl] using hs
    refine ⟨?_, hc⟩
    rw [lookup_filter_not_suffix _ fun hd => hs (hd.trans (suffix_cons c d))]
    exact hp

/-- Remove an entry with everything below it; a missing one is removed. -/
def removeAll (t : Tree) (path : Path) : Except Errno Tree :=
  match t.entry path with
  | .error e => if e = .noEntry then .ok t else .error e
  | .ok s => if h : s ≠ [] then .ok (t.prune s h) else .error .invalid

/-- How many entries are there and below. -/
def countUnder (t : Tree) (s : Loc) : Nat :=
  ((t.entries.map (·.1)).dedup.filter fun l => decide (s <:+ l)).length

end Tree

end Files
