import Peen.ContentBlob.RoundTrip

/-!
# Appending to an array

Array runs are cut by their elements, so an append keeps them; but a run of a higher level that
reaches into open elements may be torn.
-/

namespace Peen.ContentBlob

open List Sha256 Json

/-- The text of an array with these elements and no white space. -/
def arrayText (xs : List Bytes) : Bytes :=
  openBracket :: [comma].intercalate xs ++ [closeBracket]

/-! ## The layout of an array -/

/-- The items of an array, the first behind `gap`. -/
def itemsFrom (gap : Bytes) : List Layout → Items
  | [] => .nil
  | v :: vs => .cons gap v (itemsFrom [comma] vs)

/-- The layout of an array with these elements and no white space. -/
def arrayLayout (vs : List Layout) : Layout := .array (itemsFrom [] vs) [closeBracket]

variable {vs : List Layout} {es : List Elem}

theorem readsElements_intercalate (hx : Reads x v) (hxs : Forall₂ Reads xs vs) :
    ReadsElements ([comma].intercalate (x :: xs)) v (itemsFrom [comma] vs) [closeBracket] := by
  induction hxs generalizing x v with
  | nil =>
    have := readsElements_last hx Space.nil
    rw [append_nil] at this
    rwa [intercalate_singleton]
  | cons hy _ ih =>
    have := readsElements_cons hx Space.nil Space.nil (ih hy)
    rw [append_nil] at this
    rw [intercalate_cons_cons, append_assoc]
    exact this

theorem reads_arrayText (h : Forall₂ Reads xs vs) : Reads (arrayText xs) (arrayLayout vs) := by
  cases h with
  | nil => exact reads_emptyArray Space.nil
  | cons hx hxs => exact reads_array Space.nil (readsElements_intercalate hx hxs)

theorem exists_layouts (h : ∀ x ∈ xs, Value x) : ∃ vs, Forall₂ Reads xs vs := by
  induction xs with
  | nil => exact ⟨[], .nil⟩
  | cons x xs ih =>
    obtain ⟨v, hv⟩ := exists_reads (h x mem_cons_self)
    obtain ⟨vs, hvs⟩ := ih fun y hy => h y (mem_cons_of_mem _ hy)
    exact ⟨v :: vs, .cons hv hvs⟩

theorem elements_intercalate (h : ∀ y ∈ x :: xs, Value y) :
    Derives .elements ([comma].intercalate (x :: xs)) := by
  induction xs generalizing x with
  | nil =>
    have := Derives.lastElement Space.nil (h x mem_cons_self) Space.nil
    rw [append_nil] at this
    rwa [intercalate_singleton]
  | cons y ys ih =>
    have := Derives.element Space.nil (h x mem_cons_self) Space.nil
      (ih fun z hz => h z (mem_cons_of_mem _ hz))
    rw [append_nil] at this
    rw [intercalate_cons_cons, append_assoc]
    exact this

theorem value_arrayText (h : ∀ x ∈ xs, Value x) : Value (arrayText xs) := by
  cases xs with
  | nil => exact .emptyArray Space.nil
  | cons x xs => exact .array (elements_intercalate h)

/-! ## What lasts -/

section
variable (sum : Bytes → Digest)

/-- The compacted elements of an array, the first behind `gap`. -/
def elemsOf (gap : Bytes) : List Layout → List Elem
  | [] => []
  | v :: vs => ⟨gap, (v.compact sum).1⟩ :: elemsOf [comma] vs

def movedOf (vs : List Layout) : List Text := vs.flatMap fun v => (v.compact sum).2

theorem compact_itemsFrom (gap : Bytes) (vs : List Layout) :
    (itemsFrom gap vs).compact sum = (elemsOf sum gap vs, movedOf sum vs) := by
  induction vs generalizing gap with
  | nil => rfl
  | cons v vs ih => simp only [itemsFrom, Items.compact, ih, elemsOf, movedOf, flatMap_cons]

/-- The runs of `run ++ es`, where `run` has been walked already. -/
def cutOn (run es : List Elem) : List (List Elem) × List Elem :=
  Runs.cut (fun e n => runBoundary sum (e.text.render sum) n) run es

theorem foldClosedText_append (rs ss : List (List Elem)) :
    foldClosedText sum (rs ++ ss) =
      ((foldClosedText sum rs).1 ++ (foldClosedText sum ss).1,
        (foldClosedText sum rs).2 ++ (foldClosedText sum ss).2) := by
  induction rs with
  | nil => rfl
  | cons r rs ih =>
    rw [cons_append, foldClosedText, foldClosedText, ih]
    dsimp only
    split
    · rw [append_assoc]
    · rfl

theorem foldRunsText_append (es fs : List Elem) :
    foldRunsText sum (es ++ fs) =
      ((foldClosedText sum (cutElems sum es).1).1 ++
        ((foldClosedText sum (cutOn sum (cutElems sum es).2 fs).1).1 ++
          (cutOn sum (cutElems sum es).2 fs).2),
        (foldClosedText sum (cutElems sum es).1).2 ++
          (foldClosedText sum (cutOn sum (cutElems sum es).2 fs).1).2) := by
  have hcut : cutElems sum (es ++ fs) = _ := Runs.cut_append [] es fs
  rw [foldRunsText, hcut, foldClosedText_append, append_assoc]
  rfl

/-- The elements two lists begin with alike, and what follows in each. -/
def splitSame : List Elem → List Elem → List Elem × List Elem × List Elem
  | e :: es, f :: fs =>
    if e = f then
      let (same, rest, rest') := splitSame es fs
      (e :: same, rest, rest')
    else ([], e :: es, f :: fs)
  | es, fs => ([], es, fs)

/-- What a level of the longer array hands to the next one. -/
def nextElems (es : List Elem) : List Elem :=
  if (foldRunsText sum es).2.isEmpty then es else (foldRunsText sum es).1

/-- The runs that the levels move out of `es` and that reach beyond the elements which are still
there, in front, when the same levels have folded `fs`. -/
def tornRuns : Nat → List Elem → List Elem → List Text
  | 0, _, _ => []
  | n + 1, es, fs =>
    if (foldRunsText sum es).2.isEmpty then []
    else
      let (same, rest, _) := splitSame es fs
      (foldClosedText sum (cutOn sum (cutElems sum same).2 rest).1).2 ++
        tornRuns n (foldRunsText sum es).1 (nextElems sum fs)

/-- The compacted elements of an array document. -/
def elementsOf (raw : Bytes) : List Elem :=
  match parseValue (compactFuel raw) raw with
  | some (.array items _, _) => (items.compact sum).1
  | _ => []

/-- The runs of the array `raw` that are torn in the array `longer`. -/
def tornParts (raw longer : Bytes) : List Text :=
  tornRuns sum maxRunLevels (elementsOf sum raw) (elementsOf sum longer)

theorem splitSame_eq : ∀ es fs : List Elem,
    es = (splitSame es fs).1 ++ (splitSame es fs).2.1 ∧
      fs = (splitSame es fs).1 ++ (splitSame es fs).2.2
  | [], _ => ⟨rfl, rfl⟩
  | _ :: _, [] => ⟨rfl, rfl⟩
  | e :: es, f :: fs => by
    obtain ⟨hes, hfs⟩ := splitSame_eq es fs
    rw [splitSame]
    split
    · next hef => exact ⟨congrArg (e :: ·) hes, hef ▸ congrArg (e :: ·) hfs⟩
    · exact ⟨rfl, rfl⟩

/-- Later levels only add to what is moved out. -/
theorem foldLevelsText_succ (n : Nat) (es : List Elem) :
    (foldLevelsText sum (n + 1) es).2 =
      (foldRunsText sum es).2 ++ (foldLevelsText sum n (nextElems sum es)).2 := by
  rw [foldLevelsText, nextElems]
  split
  · next hnone =>
    rw [isEmpty_iff.1 hnone]
    cases n with
    | zero => rfl
    | succ n => rw [foldLevelsText, if_pos hnone]; rfl
  · rfl

/-- **What is not torn is moved out again.** By induction over the levels: the runs that lie in the
elements both arrays begin with are closed by either. -/
theorem moved_subset (n : Nat) (es fs : List Elem) :
    (foldLevelsText sum n es).2 ⊆ (foldLevelsText sum n fs).2 ++ tornRuns sum n es fs := by
  induction n generalizing es fs with
  | zero => exact nil_subset _
  | succ n ih =>
    obtain ⟨hes, hfs⟩ := splitSame_eq es fs
    have hrest := ih (nextElems sum es) (nextElems sum fs)
    have hmoved := congrArg Prod.snd (foldRunsText_append sum (splitSame es fs).1
      (splitSame es fs).2.1)
    have hmoved' := congrArg Prod.snd (foldRunsText_append sum (splitSame es fs).1
      (splitSame es fs).2.2)
    rw [← hes] at hmoved
    rw [← hfs] at hmoved'
    cases hnone : (foldRunsText sum es).2.isEmpty with
    | true =>
      rw [foldLevelsText, if_pos hnone]
      exact nil_subset _
    | false =>
      have hnext : nextElems sum es = (foldRunsText sum es).1 := by simp [nextElems, hnone]
      rw [foldLevelsText_succ, foldLevelsText_succ, tornRuns, hnone, hmoved, hmoved']
      rw [hnext] at hrest ⊢
      intro x hx
      have := @hrest x
      simp only [mem_append, Bool.false_eq_true, if_false] at hx this ⊢
      tauto

/-- A torn run is one of those moved out. -/
theorem tornRuns_subset (n : Nat) (es fs : List Elem) :
    tornRuns sum n es fs ⊆ (foldLevelsText sum n es).2 := by
  induction n generalizing es fs with
  | zero => exact nil_subset _
  | succ n ih =>
    obtain ⟨hes, -⟩ := splitSame_eq es fs
    have hmoved := congrArg Prod.snd (foldRunsText_append sum (splitSame es fs).1
      (splitSame es fs).2.1)
    rw [← hes] at hmoved
    rw [tornRuns, foldLevelsText]
    split
    · exact nil_subset _
    · intro x hx
      rcases mem_append.1 hx with hx | hx
      · rw [hmoved]
        exact mem_append_left _ (mem_append_right _ hx)
      · exact mem_append_right _ (ih _ _ hx)

theorem movedParts_arrayText (h : Forall₂ Reads xs vs) :
    movedParts sum (arrayText xs) =
      movedOf sum vs ++ (foldLevelsText sum maxRunLevels (elemsOf sum [] vs)).2 := by
  have hdoc := documentText_reads sum Space.nil (reads_arrayText h) Space.nil
  rw [nil_append, append_nil] at hdoc
  rw [movedParts, hdoc]
  simp only [arrayLayout, Layout.compact, compact_itemsFrom, Option.map_some, Option.getD_some]

theorem elementsOf_arrayText (h : Forall₂ Reads xs vs) :
    elementsOf sum (arrayText xs) = elemsOf sum [] vs := by
  have hparse := (reads_arrayText h).parse (compactFuel (arrayText xs)) []
    (by simp only [compactFuel]; omega) fun b hb => by cases hb
  rw [append_nil] at hparse
  rw [elementsOf, hparse]
  simp only [arrayLayout, compact_itemsFrom]

/-- The parts of an array are parts of the longer one, or torn in it. -/
theorem movedParts_subset (hxs : ∀ x ∈ xs, Value x) (hys : ∀ y ∈ ys, Value y) :
    movedParts sum (arrayText xs) ⊆ movedParts sum (arrayText (xs ++ ys)) ++
      tornParts sum (arrayText xs) (arrayText (xs ++ ys)) := by
  obtain ⟨us, hus⟩ := exists_layouts hxs
  obtain ⟨vs, hvs⟩ := exists_layouts hys
  have hall := rel_append hus hvs
  rw [tornParts, elementsOf_arrayText sum hus, elementsOf_arrayText sum hall,
    movedParts_arrayText sum hus, movedParts_arrayText sum hall, movedOf, movedOf, flatMap_append]
  intro x hx
  have := @moved_subset sum maxRunLevels (elemsOf sum [] us) (elemsOf sum [] (us ++ vs)) x
  simp only [mem_append] at hx this ⊢
  tauto

theorem tornParts_subset (hxs : ∀ x ∈ xs, Value x) (longer : Bytes) :
    tornParts sum (arrayText xs) longer ⊆ movedParts sum (arrayText xs) := by
  obtain ⟨us, hus⟩ := exists_layouts hxs
  rw [tornParts, elementsOf_arrayText sum hus, movedParts_arrayText sum hus]
  exact Subset.trans (tornRuns_subset sum maxRunLevels _ _) (subset_append_right _ _)

end

/-! ## Appending -/

theorem intercalate_extends (xs ys : List Bytes) :
    [comma].intercalate xs <+: [comma].intercalate (xs ++ ys) := by
  induction xs with
  | nil => exact nil_prefix
  | cons x xs ih =>
    cases xs with
    | nil =>
      cases ys with
      | nil => exact prefix_refl _
      | cons y ys =>
        rw [intercalate_singleton, singleton_append, intercalate_cons_cons, append_assoc]
        exact prefix_append _ _
    | cons x' xs =>
      rw [cons_append, cons_append, intercalate_cons_cons, intercalate_cons_cons]
      exact (prefix_append_right_inj _).2 ih

theorem length_arrayText_le (xs ys : List Bytes) :
    (arrayText xs).length ≤ (arrayText (xs ++ ys)).length := by
  have := (intercalate_extends xs ys).length_le
  simp only [arrayText, length_cons, length_append]
  omega

def digits : Bytes := ascii "12345678"

theorem primitive_digits : Primitive digits :=
  .inr (.inr (.inr ⟨[], digits, [], [], .inl rfl, ⟨⟨nofun, all_eq_true.1 rfl⟩, by decide⟩, .inl rfl,
    .inl rfl, rfl⟩))

/-! ## An array that loses a blob -/

def digitElems (n : Nat) : List Elem := replicate n ⟨[comma], .lit digits⟩

def digitRun : List Elem := ⟨[], .lit digits⟩ :: digitElems 63

/-- The run of a higher level: a reference to sixty-four elements, and sixty-three more. -/
def mixedRun : List Elem := ⟨[], .ref (spanText digitRun) .nil⟩ :: digitElems 63

section
variable (sum : Bytes → Digest)

theorem elemsOf_digits (n : Nat) :
    elemsOf sum [] (replicate (n + 1) (.primitive digits)) =
      ⟨[], .lit digits⟩ :: digitElems n := by
  have hgap : ∀ gap n, elemsOf sum gap (replicate (n + 1) (.primitive digits)) =
      ⟨gap, .lit digits⟩ :: digitElems n := by
    intro gap n
    induction n generalizing gap with
    | zero => rfl
    | succ n ih => rw [replicate_succ, elemsOf, ih]; rfl
  exact hgap [] n

theorem movedOf_digits (n : Nat) : movedOf sum (replicate n (.primitive digits)) = [] := by
  induction n with
  | zero => rfl
  | succ n ih => rw [replicate_succ, movedOf, flatMap_cons, ← movedOf, ih]; rfl

theorem movedParts_digits (n : Nat) :
    movedParts sum (arrayText (replicate (n + 1) digits)) =
      (foldLevelsText sum maxRunLevels (⟨[], .lit digits⟩ :: digitElems n)).2 := by
  have hrd : ∀ n, Forall₂ Reads (replicate n digits)
      (replicate n (.primitive digits)) := by
    intro n
    induction n with
    | zero => exact .nil
    | succ n ih => exact .cons (reads_primitive primitive_digits) ih
  rw [movedParts_arrayText sum (hrd (n + 1)), elemsOf_digits, movedOf_digits, nil_append]

end

set_option maxRecDepth 10000 in
/-- Of 127 equal elements, two runs are moved out: the first sixty-four elements, and one level up
their reference with the sixty-three left open. -/
theorem foldLevelsText_127 :
    (foldLevelsText sum256 maxRunLevels (⟨[], .lit digits⟩ :: digitElems 126)).2 =
      [spanText digitRun, spanText mixedRun] := by
  decide +kernel

set_option maxRecDepth 10000 in
theorem foldLevelsText_128 :
    (foldLevelsText sum256 maxRunLevels (⟨[], .lit digits⟩ :: digitElems 127)).2 =
      [spanText digitRun, spanText digitRun] := by
  decide +kernel

set_option maxRecDepth 10000 in
theorem digitRun_ne_mixedRun :
    sum256 ((spanText digitRun).render sum256) ≠ sum256 ((spanText mixedRun).render sum256) := by
  decide +kernel

end Peen.ContentBlob
