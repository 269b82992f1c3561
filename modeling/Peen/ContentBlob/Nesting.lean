import Peen.ContentBlob.RoundTrip

/-!
# Documents nested deeper than `Expand` follows

`nested n` is a JSON document of arrays inside arrays, `n` of them, each with sixty-four elements.
-/

namespace Peen.ContentBlob

open List Json
open Text (depth_append render depth)

/-! ## Folding keeps the layers -/

section
variable (sum : Bytes → Digest)

theorem depth_spanText (run : List Elem) : (spanText run).depth = (joinText run).depth := by
  cases run with
  | nil => rfl
  | cons e es => simp [spanText, joinText]

theorem folds_depth : Folds fun es es' _ => (joinText es).depth ≤ (joinText es').depth where
  refl _ := le_rfl
  run run := by
    simp only [joinText, depth_append, Text.depth_lit, depth, depth_spanText]
    omega
  append h h' := by
    rw [joinText_append, joinText_append, depth_append, depth_append]
    omega
  trans h h' := h.trans h'

theorem depth_foldLevelsText (n : Nat) (es : List Elem) :
    (joinText es).depth ≤ (joinText (foldLevelsText sum n es).1).depth :=
  folds_depth.levels n es

theorem runBoundary_of_le (b : Bytes) {n : Nat} (h : maxRunElements ≤ n) :
    runBoundary sum b n = true := by
  rw [runBoundary, if_pos h]

theorem length_spanText_le (hr : run ≠ []) (hpre : run <+: e :: es) :
    (e.text.render sum).length ≤ ((spanText run).render sum).length ∧
      e.text.depth ≤ (spanText run).depth := by
  cases run with
  | nil => exact absurd rfl hr
  | cons x xs =>
    obtain ⟨rfl, -⟩ := cons_prefix_cons.1 hpre
    rw [spanText, Text.render_append, depth_append, length_append]
    exact ⟨Nat.le_add_right _ _, le_max_left _ _⟩

theorem depth_foldRunsText_cons (hlen : maxRunElements ≤ (e :: es).length)
    (hlong : minBlobBytes ≤ (e.text.render sum).length) :
    e.text.depth + 1 ≤ (joinText (foldRunsText sum (e :: es)).1).depth ∧
      (foldRunsText sum (e :: es)).2.isEmpty = false := by
  obtain ⟨r, runs, rest, hcut, hr, hpre⟩ := Runs.exists_cut_cons
    (fun (x : Elem) n => runBoundary_of_le sum (x.text.render sum)) []
    (cons_ne_nil e es) (by simpa using hlen)
  obtain ⟨hl, hd⟩ := length_spanText_le sum hr hpre
  have hnot : ¬ ((spanText r).render sum).length < minBlobBytes := by omega
  rw [foldRunsText, cutElems, hcut]
  simp only [foldClosedText, if_neg hnot, cons_append, joinText, depth_append,
    Text.depth_lit, depth, isEmpty_cons, and_true]
  omega

theorem depth_foldLevelsText_cons (e : Elem) (es : List Elem) (n : Nat)
    (hlen : maxRunElements ≤ (e :: es).length) (hlong : minBlobBytes ≤ (e.text.render sum).length) :
    e.text.depth + 1 ≤ (joinText (foldLevelsText sum (n + 1) (e :: es)).1).depth := by
  obtain ⟨hd, hmoved⟩ := depth_foldRunsText_cons sum hlen hlong
  rw [foldLevelsText, hmoved]
  exact hd.trans (depth_foldLevelsText sum n _)

end

/-! ## The documents -/

def key (n : Nat) : Bytes := filled n ++ [colon]

def zero : Bytes := ascii "0"

def zeros : Nat → Bytes
  | 0 => zero
  | n + 1 => zero ++ comma :: zeros n

def zeroItems : Nat → Items
  | 0 => .nil
  | n + 1 => .cons [comma] (.primitive zero) (zeroItems n)

/-- The object of a document's outermost array: a string just too short to be moved out, and the
array inside. Its key grows with `n`, so that no two objects have the same length. -/
def nestedObject (n : Nat) (inner : Bytes) : Bytes :=
  openBrace :: (key 0 ++ filled 505 ++ comma :: (key n ++ inner)) ++ [closeBrace]

/-- A document of `n` arrays inside each other, each with sixty-four elements. -/
def nested : Nat → Bytes
  | 0 => zero
  | n + 1 =>
    openBracket :: (nestedObject n (nested n) ++ comma :: zeros 62) ++ [closeBracket]

def nestedObjectLayout (n : Nat) (inner : Layout) : Layout :=
  .object (.cons (key 0) (.string (filled 505)) (.cons (comma :: key n) inner .nil)) [closeBrace]

def nestedLayout : Nat → Layout
  | 0 => .primitive zero
  | n + 1 => .array (.cons [] (nestedObjectLayout n (nestedLayout n))
      (.cons [comma] (.primitive zero) (zeroItems 62))) [closeBracket]

theorem primitive_zero : Primitive zero :=
  .inr (.inr (.inr ⟨[], zero, [], [], .inl rfl, ⟨⟨nofun, all_eq_true.1 rfl⟩, by decide⟩, .inl rfl,
    .inl rfl, rfl⟩))

theorem readsElements_zeros (n : Nat) :
    ReadsElements (zeros n) (.primitive zero) (zeroItems n) [closeBracket] := by
  induction n with
  | zero => exact readsElements_last (reads_primitive primitive_zero) Space.nil
  | succ n ih => exact readsElements_cons (reads_primitive primitive_zero) Space.nil Space.nil ih

theorem readsKey_of_literal (hk : StringLiteral k) : ReadsKey (k ++ [colon]) := by
  have := readsKey hk Space.nil Space.nil
  rwa [append_nil] at this

section
variable (n : Nat)

theorem reads_nestedObject {inner : Bytes} (h : Reads inner v) :
    Reads (nestedObject n inner) (nestedObjectLayout n v) := by
  have hb := readsMembers_last (readsKey_of_literal (stringLiteral_filled n)) h Space.nil
  have ha := readsMembers_cons (readsKey_of_literal (stringLiteral_filled 0))
    (reads_string (stringLiteral_filled 505)) Space.nil Space.nil hb
  have := reads_object Space.nil ha
  simp only [append_nil] at this
  exact this

theorem reads_nested : Reads (nested n) (nestedLayout n) := by
  induction n with
  | zero => exact reads_primitive primitive_zero
  | succ n ih =>
    have hes := readsElements_cons (reads_nestedObject n ih) Space.nil Space.nil
      (readsElements_zeros 62)
    have := reads_array Space.nil hes
    rw [append_nil] at this
    exact this

theorem value_zeros : Derives .elements (zeros n) := by
  induction n with
  | zero => exact .lastElement Space.nil (.primitive primitive_zero) Space.nil
  | succ n ih => exact .element Space.nil (.primitive primitive_zero) Space.nil ih

theorem value_nestedObject {inner : Bytes} (h : Value inner) : Value (nestedObject n inner) := by
  have hb := Derives.lastMember Space.nil (stringLiteral_filled n) Space.nil Space.nil h Space.nil
  have ha := Derives.member Space.nil (stringLiteral_filled 0) Space.nil Space.nil
    (.string (stringLiteral_filled 505)) Space.nil hb
  have := Derives.object ha
  simp only [append_nil] at this
  exact this

theorem value_nested : Value (nested n) := by
  induction n with
  | zero => exact .primitive primitive_zero
  | succ n ih =>
    have := Derives.array (.element Space.nil (value_nestedObject n ih) Space.nil (value_zeros 62))
    rw [append_nil] at this
    exact this

theorem zeros_no_backslash : ∀ b ∈ zeros n, b ≠ backslash := by
  induction n with
  | zero => simp [zeros, zero, backslash, ascii]
  | succ n ih =>
    intro b hb
    rcases mem_cons.1 hb with rfl | hb
    · decide
    · rcases mem_cons.1 hb with rfl | hb
      · decide
      · exact ih b hb

theorem nested_no_backslash : ∀ b ∈ nested n, b ≠ backslash := by
  have hkey : ∀ n, ∀ b ∈ key n, b ≠ backslash := by
    intro n b hb
    rcases mem_snoc.1 hb with hb | hb
    · exact filled_no_backslash b hb
    · rw [hb]
      decide
  induction n with
  | zero => simp [nested, zero, backslash, ascii]
  | succ n ih =>
    intro b hb
    simp only [nested, nestedObject, cons_append, mem_cons, mem_append, not_mem_nil, or_false] at hb
    rcases hb with rfl | rfl | ((((hb | hb) | rfl | hb | hb) | rfl) | rfl | hb) | rfl
    · decide
    · decide
    · exact hkey 0 b hb
    · exact filled_no_backslash b hb
    · decide
    · exact hkey n b hb
    · exact ih b hb
    · decide
    · decide
    · exact zeros_no_backslash _ b hb
    · decide

theorem length_zeros : (zeros n).length = 2 * n + 1 := by
  induction n with
  | zero => rfl
  | succ n ih =>
    rw [zeros, length_append, length_cons, ih, show zero.length = 1 from rfl]
    omega

theorem length_nested : minBlobBytes ≤ (nested (n + 1)).length := by
  simp only [nested, nestedObject, length_cons, length_append, length_filled,
    length_zeros, minBlobBytes]
  omega

end

/-! ## Their layers -/

section
variable (sum : Bytes → Digest)

section
variable (t : Text) (n : Nat) (v : Layout)

theorem compact_nestedObject :
    (nestedObjectLayout n v).compact sum =
      (.byte openBrace (.lit (key 0) ++ .lit (filled 505) ++ (.lit (comma :: key n) ++
        (v.compact sum).1 ++ .nil) ++ .lit [closeBrace]), (v.compact sum).2) := by
  have hshort : ¬ (filled 505).length ≥ minBlobBytes := by
    rw [length_filled]
    decide
  simp only [nestedObjectLayout, Layout.compact, Items.compact, if_neg hshort, joinText,
    append_nil, nil_append]

theorem compact_zeroItems : (zeroItems n).compact sum = (replicate n ⟨[comma], .lit zero⟩, []) := by
  induction n with
  | zero => rfl
  | succ n ih => simp only [zeroItems, Items.compact, ih, Layout.compact]; rfl

def elemsFrom : List Elem :=
  ⟨[], t⟩ :: ⟨[comma], .lit zero⟩ :: replicate 62 ⟨[comma], .lit zero⟩

theorem length_elemsFrom : (elemsFrom t).length = maxRunElements := by
  simp only [elemsFrom, length_cons, length_replicate, maxRunElements]

theorem depth_elemsFrom (hlong : minBlobBytes ≤ (t.render sum).length) :
    t.depth + 1 ≤ (joinText (foldLevelsText sum maxRunLevels (elemsFrom t)).1).depth :=
  depth_foldLevelsText_cons sum ⟨[], t⟩ _ (maxRunLevels - 1) (length_elemsFrom t).ge hlong

def nestedElems (sum : Bytes → Digest) (n : Nat) : List Elem :=
  elemsFrom ((nestedObjectLayout n (nestedLayout n)).compact sum).1

theorem compact_nested :
    (nestedLayout (n + 1)).compact sum =
      (.byte openBracket (joinText (foldLevelsText sum maxRunLevels (nestedElems sum n)).1 ++
          .lit [closeBracket]),
        ((nestedLayout n).compact sum).2 ++
          (foldLevelsText sum maxRunLevels (nestedElems sum n)).2) := by
  simp only [nestedLayout, Layout.compact, Items.compact, compact_zeroItems, nestedElems,
    elemsFrom, compact_nestedObject, append_nil]

theorem length_nestedObject : (((nestedObjectLayout n v).compact sum).1.render sum).length =
    516 + n + ((v.compact sum).1.render sum).length := by
  rw [compact_nestedObject]
  simp only [render, Text.render_append, Text.render_lit, length_cons, length_append,
    key, length_filled, length_nil]
  omega

theorem depth_nested : n ≤ ((nestedLayout n).compact sum).1.depth := by
  induction n with
  | zero => exact Nat.zero_le _
  | succ n ih =>
    have hlong : minBlobBytes ≤
        (((nestedObjectLayout n (nestedLayout n)).compact sum).1.render sum).length := by
      rw [length_nestedObject, minBlobBytes]
      omega
    have hdepth : n ≤ ((nestedObjectLayout n (nestedLayout n)).compact sum).1.depth := by
      rw [compact_nestedObject]
      simp only [depth, depth_append]
      omega
    have hfold := depth_elemsFrom sum _ hlong
    rw [compact_nested, nestedElems]
    simp only [depth, depth_append]
    omega

/-- **A document of `n` arrays inside each other has at least `n` layers**, whatever the hash. -/
theorem layers_nested : n ≤ layers sum (nested n) := by
  have hdoc := documentText_reads sum Space.nil (reads_nested n) Space.nil
  rw [nil_append, append_nil] at hdoc
  rw [layers, hdoc]
  simp only [Option.map_some, Option.getD_some, depth_append]
  have := depth_nested sum n
  omega

end

/-- `Expand` refuses what `Compact` made of thirty-two arrays inside each other. -/
theorem expand_nested (hv : valid (nested 32) = true)
    (hcf : CollisionFree sum {d | d ∈ (movedParts sum (nested 32)).map (render sum)}) :
    (expand (compact sum valid (nested 32)).1 (fetchFrom (compact sum valid (nested 32)).2) ()).1 =
      .error tooDeep := by
  have hm : ¬ markerText <:+: nested 32 := fun h => by
    have := contains_marker_eq_false (nested_no_backslash 32)
    rw [contains_iff.2 h] at this
    cases this
  have hlen : minBlobBytes ≤ (nested 32).length := length_nested 31
  have hlayers := layers_nested sum 32
  rw [expand_compact_eq valid hm hcf, if_neg]
  intro h
  rcases h with h | h | h
  · omega
  · rw [hv] at h
    cases h
  · exact absurd hlayers (Nat.not_le.2 h)

end

/-! ## A hash without collisions on them -/

/-- A hash that tells byte strings of different lengths apart, and never ends a run. -/
def lengthSum (d : Bytes) : Digest :=
  Vector.ofFn fun i => if i.val = 0 then 1 else if i.val = 1 then UInt8.ofNat (d.length / 256)
    else if i.val = 2 then UInt8.ofNat d.length else 0

theorem movedParts_nested (sum : Bytes → Digest) (n : Nat) :
    movedParts sum (nested n) = ((nestedLayout n).compact sum).2 := by
  have hdoc := documentText_reads sum Space.nil (reads_nested n) Space.nil
  rw [nil_append, append_nil] at hdoc
  rw [movedParts, hdoc]
  rfl

/-- Parts do not collide if the last bytes of their lengths differ. -/
theorem collisionFree_of_nodup {parts : List Text}
    (h : (parts.map fun t => (lengthSum (t.render lengthSum))[2].toNat).Nodup) :
    CollisionFree lengthSum {d | d ∈ parts.map (render lengthSum)} := by
  intro a ha b hb hab
  obtain ⟨t, ht, rfl⟩ := mem_map.1 ha
  obtain ⟨u, hu, rfl⟩ := mem_map.1 hb
  rw [inj_on_of_nodup_map h ht hu (by rw [hab])]

theorem collisionFree_nested : CollisionFree lengthSum
    {d | d ∈ (movedParts lengthSum (nested 32)).map (render lengthSum)} := by
  rw [movedParts_nested]
  exact collisionFree_of_nodup (by decide +kernel)

/-- **Thirty-two arrays inside each other are stored and cannot be read back**: for the hash
`lengthSum`, which has no collisions on the parts of this document, and for every other hash that
has none. -/
theorem expand_refuses_nested :
    contains (nested 32) markerText = false ∧ accepts (nested 32) = true ∧
    CollisionFree lengthSum
      {d | d ∈ (movedParts lengthSum (nested 32)).map (render lengthSum)} ∧
    (expand (compact lengthSum accepts (nested 32)).1
      (fetchFrom (compact lengthSum accepts (nested 32)).2) ()).1 = .error tooDeep ∧
    ∀ sum, CollisionFree sum {d | d ∈ (movedParts sum (nested 32)).map (render sum)} →
      (expand (compact sum accepts (nested 32)).1
        (fetchFrom (compact sum accepts (nested 32)).2) ()).1 = .error tooDeep := by
  have hv : accepts (nested 32) = true := accepts_iff.2 (value_nested 32).document
  exact ⟨contains_marker_eq_false (nested_no_backslash 32), hv, collisionFree_nested,
    expand_nested lengthSum hv collisionFree_nested, fun sum hcf => expand_nested sum hv hcf⟩

end Peen.ContentBlob
