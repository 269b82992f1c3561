import Peen.ContentBlob.Text

/-!
# The layout of a document

The walker reads and rewrites a document at once. Here a layout is read (`parseValue`) and then
compacted (`Layout.compact`).
-/

namespace Peen.ContentBlob

open Option
open List hiding sum
open Text (plain_append plain_lit plain)

mutual

/-- A JSON value with every byte of its text. -/
inductive Layout where
  | primitive (text : Bytes)
  | string (literal : Bytes)
  | object (members : Items) (closing : Bytes)
  | array (elements : Items) (closing : Bytes)

/-- The values of an object or array, each with the bytes between it and the one before. -/
inductive Items where
  | nil
  | cons (gap : Bytes) (value : Layout) (rest : Items)

end

mutual

def Layout.text : Layout → Bytes
  | .primitive t => t
  | .string l => l
  | .object ms closing => openBrace :: ms.text ++ closing
  | .array es closing => openBracket :: es.text ++ closing

def Items.text : Items → Bytes
  | .nil => []
  | .cons gap v rest => gap ++ v.text ++ rest.text

end

/-! ## Reading -/

mutual

/-- The reading half of the walker. -/
def parseValue : Nat → Bytes → Option (Layout × Bytes)
  | 0, _ => none
  | _ + 1, [] => none
  | fuel + 1, b :: s =>
    if b = quote then (stringLiteralEnd s).map fun (body, rest) => (.string (b :: body), rest)
    else if b = openBrace then
      match skipSpace s with
      | (_, []) => none
      | (gap, b' :: s) =>
        if b' = closeBrace then some (.object .nil (gap ++ [b']), s)
        else (parseMembers fuel gap (b' :: s)).map fun (ms, closing, rest) =>
          (.object ms closing, rest)
    else if b = openBracket then
      match skipSpace s with
      | (_, []) => none
      | (gap, b' :: s) =>
        if b' = closeBracket then some (.array .nil (gap ++ [b']), s)
        else (parseElements fuel gap (b' :: s)).map fun (es, closing, rest) =>
          (.array es closing, rest)
    else
      match primitiveEnd (b :: s) with
      | ([], _) => none
      | (text, rest) => some (.primitive text, rest)

/-- The members of an object from the bytes in front of one of them on. -/
def parseMembers : Nat → Bytes → Bytes → Option (Items × Bytes × Bytes)
  | 0, _, _ => none
  | fuel + 1, gap, s => do
    let (key, s) ← memberValue s
    let (v, s) ← parseValue fuel s
    let (closed, between, s) ← separator closeBrace s
    if closed then some (.cons (gap ++ key) v .nil, between, s)
    else
      let (ms, closing, rest) ← parseMembers fuel between s
      some (.cons (gap ++ key) v ms, closing, rest)

/-- The elements of an array from the gap in front of one of them on. -/
def parseElements : Nat → Bytes → Bytes → Option (Items × Bytes × Bytes)
  | 0, _, _ => none
  | fuel + 1, gap, s => do
    let (v, s) ← parseValue fuel s
    let (closed, between, s) ← separator closeBracket s
    if closed then some (.cons gap v .nil, between, s)
    else
      let (es, closing, rest) ← parseElements fuel between s
      some (.cons gap v es, closing, rest)

end

@[simp] theorem skipSpace_append (s : Bytes) : (skipSpace s).1 ++ (skipSpace s).2 = s :=
  takeWhile_append_dropWhile

theorem stringLiteralEnd_append : ∀ {s body rest : Bytes},
    stringLiteralEnd s = some (body, rest) → body ++ rest = s
  | [], _, _, h => by cases h
  | [b], body, rest, h => by
    obtain ⟨_, h⟩ := of_unless h
    split at h
    · cases h; rfl
    · cases h
  | b :: e :: s, body, rest, h => by
    rw [stringLiteralEnd] at h
    split at h
    · obtain ⟨⟨body', rest'⟩, hrec, heq⟩ := map_eq_some_iff.1 h
      cases heq
      rw [cons_append, cons_append, stringLiteralEnd_append hrec]
    · split at h
      · cases h; rfl
      · obtain ⟨⟨body', rest'⟩, hrec, heq⟩ := map_eq_some_iff.1 h
        cases heq
        rw [cons_append, stringLiteralEnd_append hrec]

theorem memberValue_append (h : memberValue s = some (key, rest)) : key ++ rest = s := by
  cases s with
  | nil => cases h
  | cons b s =>
    obtain ⟨_, h⟩ := of_unless h
    obtain ⟨⟨k, s1⟩, hk, h⟩ := bind_eq_some_iff.1 h
    have hk := stringLiteralEnd_append hk
    have hs := skipSpace_append s1
    dsimp only at h
    split at h
    · cases h
    · next before b' s2 heq =>
      rw [heq] at hs
      obtain ⟨_, h⟩ := of_unless h
      cases h
      rw [← hk, ← hs]
      simp

theorem separator_append (h : separator closing s = some (closed, between, rest)) :
    between ++ rest = s := by
  have hs := skipSpace_append s
  unfold separator at h
  split at h
  · cases h
  · next before b s1 heq =>
    rw [heq] at hs
    split at h
    · cases h
      rw [← hs]
      simp
    · obtain ⟨_, h⟩ := of_guard h
      cases h
      rw [← hs]
      simp

/-- **Reading keeps every byte.** -/
theorem parse_append : ∀ (fuel : Nat),
    (∀ s v rest, parseValue fuel s = some (v, rest) → v.text ++ rest = s) ∧
    (∀ gap s ms closing rest, parseMembers fuel gap s = some (ms, closing, rest) →
      ms.text ++ closing ++ rest = gap ++ s) ∧
    (∀ gap s es closing rest, parseElements fuel gap s = some (es, closing, rest) →
      es.text ++ closing ++ rest = gap ++ s) := by
  intro fuel
  induction fuel with
  | zero =>
    refine ⟨fun s v rest h => ?_, fun gap s ms closing rest h => ?_, fun gap s es closing rest h => ?_⟩
    · cases h
    · cases h
    · cases h
  | succ fuel ih =>
    obtain ⟨ihv, ihm, ihe⟩ := ih
    refine ⟨fun s v rest h => ?_, fun gap s ms closing rest h => ?_, fun gap s es closing rest h => ?_⟩
    · cases s with
      | nil => cases h
      | cons b s =>
        have hs := skipSpace_append s
        rw [parseValue] at h
        split at h
        · obtain ⟨⟨body, rest'⟩, hb, heq⟩ := map_eq_some_iff.1 h
          cases heq
          rw [Layout.text, cons_append, stringLiteralEnd_append hb]
        · split at h
          · next hb =>
            split at h
            · cases h
            · next gap b' s1 heq =>
              rw [heq] at hs
              split at h
              · cases h
                rw [← hs, hb]
                simp [Layout.text, Items.text]
              · obtain ⟨⟨ms, closing, rest'⟩, hm, heq⟩ := map_eq_some_iff.1 h
                cases heq
                have := ihm _ _ _ _ _ hm
                rw [Layout.text, cons_append, cons_append, this, hb]
                exact congrArg _ hs
          · split at h
            · next hb =>
              split at h
              · cases h
              · next gap b' s1 heq =>
                rw [heq] at hs
                split at h
                · cases h
                  rw [← hs, hb]
                  simp [Layout.text, Items.text]
                · obtain ⟨⟨es, closing, rest'⟩, he, heq⟩ := map_eq_some_iff.1 h
                  cases heq
                  have := ihe _ _ _ _ _ he
                  rw [Layout.text, cons_append, cons_append, this, hb]
                  exact congrArg _ hs
            · split at h
              · cases h
              · next text rest' _ heq =>
                cases h
                have := takeWhile_append_dropWhile (p := fun b => !endsPrimitive b) (l := b :: s)
                rw [primitiveEnd] at heq
                cases heq
                exact this
    · simp only [parseMembers, bind_eq_bind, bind_eq_some_iff] at h
      obtain ⟨⟨key, s1⟩, hk, ⟨v, s2⟩, hv, ⟨closed, between, s3⟩, hsep, h⟩ := h
      dsimp only at hv hsep h
      have h1 := memberValue_append hk
      have h2 := ihv _ _ _ hv
      have h3 := separator_append hsep
      cases closed with
      | true =>
        cases h
        rw [← h1, ← h2, ← h3]
        simp [Items.text]
      | false =>
        simp only [Bool.false_eq_true, if_false, bind_eq_some_iff] at h
        obtain ⟨⟨ms', closing', rest'⟩, hms, heq⟩ := h
        cases heq
        have h4 := ihm _ _ _ _ _ hms
        dsimp only
        rw [← h1, ← h2, ← h3, ← h4]
        simp [Items.text]
    · simp only [parseElements, bind_eq_bind, bind_eq_some_iff] at h
      obtain ⟨⟨v, s2⟩, hv, ⟨closed, between, s3⟩, hsep, h⟩ := h
      dsimp only at hv hsep h
      have h2 := ihv _ _ _ hv
      have h3 := separator_append hsep
      cases closed with
      | true =>
        cases h
        rw [← h2, ← h3]
        simp [Items.text]
      | false =>
        simp only [Bool.false_eq_true, if_false, bind_eq_some_iff] at h
        obtain ⟨⟨es', closing', rest'⟩, hes, heq⟩ := h
        cases heq
        have h4 := ihe _ _ _ _ _ hes
        dsimp only
        rw [← h2, ← h3, ← h4]
        simp [Items.text]

/-! ## Compacting a layout -/

/-- A compacted element and the bytes before it. -/
structure Elem where
  gap : Bytes
  text : Text
  deriving DecidableEq

def joinText : List Elem → Text
  | [] => .nil
  | e :: es => .lit e.gap ++ e.text ++ joinText es

def spanText : List Elem → Text
  | [] => .nil
  | e :: es => e.text ++ joinText es

def frontGap (run : List Elem) : Bytes := (run.head?.map Elem.gap).getD []

section
variable (sum : Bytes → Digest)

/-- The closed runs, the long ones moved out: the elements left and what was moved. -/
def foldClosedText : List (List Elem) → List Elem × List Text
  | [] => ([], [])
  | run :: runs =>
    let (folded, moved) := foldClosedText runs
    if ((spanText run).render sum).length < minBlobBytes then (run ++ folded, moved)
    else (⟨frontGap run, .ref (spanText run) .nil⟩ :: folded, spanText run :: moved)

/-- The runs of the elements and what is left open. -/
def cutElems (es : List Elem) : List (List Elem) × List Elem :=
  Runs.cut (fun e n => runBoundary sum (e.text.render sum) n) [] es

/-- One level: every closed run that is long enough becomes a reference. -/
def foldRunsText (es : List Elem) : List Elem × List Text :=
  ((foldClosedText sum (cutElems sum es).1).1 ++ (cutElems sum es).2,
    (foldClosedText sum (cutElems sum es).1).2)

/-- The levels, until one folds nothing. -/
def foldLevelsText : Nat → List Elem → List Elem × List Text
  | 0, es => (es, [])
  | n + 1, es =>
    if (foldRunsText sum es).2.isEmpty then (es, [])
    else
      let (es', moved) := foldLevelsText n (foldRunsText sum es).1
      (es', (foldRunsText sum es).2 ++ moved)

mutual

/-- The text that stands for a value, and what is moved out, in the order of the walker. -/
def Layout.compact : Layout → Text × List Text
  | .primitive t => (.lit t, [])
  | .string l =>
    if l.length ≥ minBlobBytes then (.ref (.lit l) .nil, [.lit l]) else (.lit l, [])
  | .object ms closing =>
    let (es, moved) := ms.compact
    (.byte openBrace (joinText es ++ .lit closing), moved)
  | .array items closing =>
    let (es, moved) := items.compact
    let (es, moved') := foldLevelsText sum maxRunLevels es
    (.byte openBracket (joinText es ++ .lit closing), moved ++ moved')

def Items.compact : Items → List Elem × List Text
  | .nil => ([], [])
  | .cons gap v rest =>
    let (t, moved) := v.compact
    let (es, moved') := rest.compact
    (⟨gap, t⟩ :: es, moved ++ moved')

end

end

theorem joinText_append (es fs : List Elem) : joinText (es ++ fs) = joinText es ++ joinText fs := by
  induction es with
  | nil => rfl
  | cons e es ih => simp only [cons_append, joinText, ih, Text.append_assoc]

theorem plain_spanText (run : List Elem) :
    frontGap run ++ (spanText run).plain = (joinText run).plain := by
  cases run with
  | nil => rfl
  | cons e es => simp [frontGap, spanText, joinText]

theorem moved_spanText (run : List Elem) : (spanText run).moved = (joinText run).moved := by
  cases run with
  | nil => rfl
  | cons e es => simp [spanText, joinText]

/-! ## Folding -/

/-- What holds of elements, what they are folded to and what is moved out, whatever is folded. -/
structure Folds (R : List Elem → List Elem → List Text → Prop) : Prop where
  refl : ∀ es, R es es []
  run : ∀ run, R run [⟨frontGap run, .ref (spanText run) .nil⟩] [spanText run]
  append : ∀ {es es' fs fs' moved moved'}, R es es' moved → R fs fs' moved' →
    R (es ++ fs) (es' ++ fs') (moved ++ moved')
  trans : ∀ {es es' es'' moved moved'}, R es es' moved → R es' es'' moved' →
    R es es'' (moved ++ moved')

namespace Folds
variable {R : List Elem → List Elem → List Text → Prop} (h : Folds R)
include h

theorem closed (runs : List (List Elem)) :
    R runs.flatten (foldClosedText sum runs).1 (foldClosedText sum runs).2 := by
  induction runs with
  | nil => exact h.refl []
  | cons run runs ih =>
    rw [foldClosedText, flatten_cons]
    dsimp only
    split
    · exact h.append (h.refl run) ih
    · exact h.append (h.run run) ih

theorem runs (es : List Elem) : R es (foldRunsText sum es).1 (foldRunsText sum es).2 := by
  have hcut : (cutElems sum es).1.flatten ++ (cutElems sum es).2 = es := Runs.cut_flatten [] es
  have hclosed : R _ (foldClosedText sum (cutElems sum es).1).1 _ := h.closed _
  have hfold := h.append hclosed (h.refl (cutElems sum es).2)
  rwa [hcut, append_nil] at hfold

theorem levels (n : Nat) (es : List Elem) :
    R es (foldLevelsText sum n es).1 (foldLevelsText sum n es).2 := by
  induction n generalizing es with
  | zero => exact h.refl es
  | succ n ih =>
    rw [foldLevelsText]
    split
    · exact h.refl es
    · exact h.trans (h.runs es) (ih _)

end Folds

/-! ## Compacting keeps every byte -/

section
theorem folds_plain : Folds fun es es' _ => (joinText es').plain = (joinText es).plain where
  refl _ := rfl
  run run := by simp [joinText, plain, plain_spanText]
  append h h' := by simp only [joinText_append, plain_append, h, h']
  trans h h' := h'.trans h

theorem plain_foldLevelsText (n : Nat) (es : List Elem) :
    (joinText (foldLevelsText sum n es).1).plain = (joinText es).plain :=
  folds_plain.levels n es

mutual

/-- **Compacting keeps every byte.** -/
theorem plain_compact : ∀ v : Layout, (v.compact sum).1.plain = v.text
  | .primitive t => by rw [Layout.compact, Layout.text, plain_lit]
  | .string l => by
    rw [Layout.compact]
    split
    · simp [plain, Layout.text]
    · simp [Layout.text]
  | .object ms closing => by
    rw [Layout.compact, Layout.text]
    simp only [plain, plain_append, plain_lit, plain_items ms, cons_append]
  | .array es closing => by
    rw [Layout.compact, Layout.text]
    simp only [plain, plain_append, plain_lit, plain_foldLevelsText, plain_items es, cons_append]

theorem plain_items : ∀ es : Items, (joinText (es.compact sum).1).plain = es.text
  | .nil => rfl
  | .cons gap v rest => by
    rw [Items.compact, Items.text]
    simp only [joinText, plain_append, plain_lit, plain_compact v, plain_items rest]

end

end

end Peen.ContentBlob
