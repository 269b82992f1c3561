import Peen.ContentBlob.Layout

/-!
# The walker follows the layout

What the walker returns for a value is what `Layout.compact` says of the value's layout: the
rendered text, and the blobs of what is moved out (`walker_eq`).
-/

namespace Peen.ContentBlob

open Compactor
open List hiding sum
open Text (render)
open Option (bind_eq_bind bind_some map_some)

section
/-! ## What is moved out is what the text refers to -/

theorem folds_moved (x : Text) : Folds fun es es' moved =>
    (x ∈ (joinText es').moved ↔ x ∈ (joinText es).moved ∨ x ∈ moved) where
  refl _ := by simp
  run run := by
    simp only [joinText, Text.moved_append, Text.moved_lit, Text.moved, moved_spanText,
      nil_append, append_nil, mem_cons, not_mem_nil, or_false]
    tauto
  append h h' := by
    simp only [joinText_append, Text.moved_append, mem_append, h, h']
    tauto
  trans h h' := by rw [h', h, mem_append, or_assoc]

theorem mem_moved_foldLevelsText (n : Nat) (es : List Elem) (x : Text) :
    x ∈ (joinText (foldLevelsText sum n es).1).moved ↔
      x ∈ (joinText es).moved ∨ x ∈ (foldLevelsText sum n es).2 :=
  (folds_moved x).levels n es

mutual

/-- **What is moved out is what the text refers to**, at any layer. -/
theorem mem_moved_compact : ∀ (v : Layout) (x : Text),
    x ∈ (v.compact sum).1.moved ↔ x ∈ (v.compact sum).2
  | .primitive t, x => by simp [Layout.compact]
  | .string l, x => by
    rw [Layout.compact]
    split
    · simp [Text.moved]
    · simp
  | .object ms closing, x => by
    rw [Layout.compact]
    simp only [Text.moved, Text.moved_append, Text.moved_lit, append_nil]
    exact mem_moved_items ms x
  | .array es closing, x => by
    rw [Layout.compact]
    simp only [Text.moved, Text.moved_append, Text.moved_lit, append_nil,
      mem_moved_foldLevelsText, mem_append, mem_moved_items es x]

theorem mem_moved_items : ∀ (es : Items) (x : Text),
    x ∈ (joinText (es.compact sum).1).moved ↔ x ∈ (es.compact sum).2
  | .nil, x => by simp [Items.compact, joinText, Text.moved]
  | .cons gap v rest, x => by
    rw [Items.compact]
    simp only [joinText, Text.moved_append, Text.moved_lit, nil_append, mem_append,
      mem_moved_compact v x, mem_moved_items rest x]

end

/-! ## Recording -/

def Compactor.recordAll (sum : Bytes → Digest) (c : Compactor) (parts : List Bytes) : Compactor :=
  parts.foldl (record sum) c

theorem Compactor.recordAll_append (c : Compactor) (ps qs : List Bytes) :
    c.recordAll sum (ps ++ qs) = (c.recordAll sum ps).recordAll sum qs :=
  foldl_append

/-- What a compactor holds after recording `parts`: one blob for each hash, the data of which is one
of the parts. -/
structure Compactor.Recorded (sum : Bytes → Digest) (parts : List Bytes) (c : Compactor) : Prop where
  seen : ∀ h, h ∈ c.seen ↔ ∃ b ∈ c.blobs, b.hash = h
  blob : ∀ b ∈ c.blobs, b.data ∈ parts ∧ b.hash = hashOf sum b.data
  part : ∀ d ∈ parts, ∃ b ∈ c.blobs, b.hash = hashOf sum d

theorem Compactor.Recorded.record {c : Compactor} (h : c.Recorded sum parts) (d : Bytes) :
    (c.record sum d).Recorded sum (parts ++ [d]) := by
  unfold Compactor.record
  dsimp only
  split
  · next hs =>
    obtain ⟨b, hb, hbh⟩ := (h.seen _).1 (contains_iff_mem.1 hs)
    refine ⟨h.seen, fun b hb => ⟨mem_append_left _ (h.blob b hb).1, (h.blob b hb).2⟩,
      fun e he => ?_⟩
    rcases mem_snoc.1 he with he | he
    · exact h.part e he
    · rw [he]; exact ⟨b, hb, hbh⟩
  · refine ⟨fun x => ?_, fun b hb => ?_, fun e he => ?_⟩
    · simp only [mem_cons, mem_append, h.seen, not_mem_nil, or_false]
      refine ⟨fun hx => ?_, fun hx => ?_⟩
      · rcases hx with rfl | ⟨b, hb, hbh⟩
        · exact ⟨_, .inr rfl, rfl⟩
        · exact ⟨b, .inl hb, hbh⟩
      · obtain ⟨b, hb | rfl, hbh⟩ := hx
        · exact .inr ⟨b, hb, hbh⟩
        · exact .inl hbh.symm
    · rcases mem_snoc.1 hb with hb | hb
      · exact ⟨mem_append_left _ (h.blob b hb).1, (h.blob b hb).2⟩
      · rw [hb]; exact ⟨mem_append_right _ (by simp), rfl⟩
    · rcases mem_snoc.1 he with he | he
      · obtain ⟨b, hb, hbh⟩ := h.part e he
        exact ⟨b, mem_append_left _ hb, hbh⟩
      · rw [he]
        exact ⟨_, mem_append_right _ (mem_singleton.2 rfl), rfl⟩

theorem Compactor.recorded_recordAll (sum : Bytes → Digest) (parts : List Bytes) :
    (recordAll sum {} parts).Recorded sum parts := by
  have hgen : ∀ (ps qs : List Bytes) (c : Compactor), c.Recorded sum qs →
      (c.recordAll sum ps).Recorded sum (qs ++ ps) := by
    intro ps
    induction ps with
    | nil => intro qs c h; rw [append_nil]; exact h
    | cons d ps ih =>
      intro qs c h
      have := ih (qs ++ [d]) (c.record sum d) (h.record d)
      rw [append_assoc] at this
      exact this
  refine hgen parts [] {} ⟨fun h => ?_, fun b hb => (by cases hb), fun d hd => (by cases hd)⟩
  exact ⟨fun hh => (by cases hh), fun ⟨_, hb, _⟩ => (by cases hb)⟩

/-! ## The walker -/

def Elem.toArray (sum : Bytes → Digest) (e : Elem) : ArrayElement := ⟨e.gap, e.text.render sum⟩

theorem render_joinText (es : List Elem) :
    (joinText es).render sum = (es.map (Elem.toArray sum)).flatMap fun e => e.gap ++ e.compacted := by
  induction es with
  | nil => rfl
  | cons e es ih =>
    simp only [joinText, Text.render_append, Text.render_lit, ih, map_cons, flatMap_cons]
    rfl

theorem runSpan_map (run : List Elem) :
    runSpan (run.map (Elem.toArray sum)) = (spanText run).render sum := by
  cases run with
  | nil => rfl
  | cons e es =>
    rw [spanText, Text.render_append, render_joinText]
    rfl

theorem runGap_map (run : List Elem) : runGap (run.map (Elem.toArray sum)) = frontGap run := by
  cases run <;> rfl

theorem foldClosed_eq (runs : List (List Elem)) (c : Compactor) :
    foldClosed sum (runs.map (map (Elem.toArray sum))) c =
      ((foldClosedText sum runs).1.map (Elem.toArray sum),
        !(foldClosedText sum runs).2.isEmpty,
        c.recordAll sum ((foldClosedText sum runs).2.map (render sum))) := by
  induction runs generalizing c with
  | nil => rfl
  | cons run runs ih =>
    simp only [map_cons, foldClosed, foldClosedText, runSpan_map, runGap_map]
    split
    · simp only [ih, map_append]
    · simp only [ih, reference, map_cons]
      refine Prod.ext ?_ rfl
      simp [Elem.toArray, render]

theorem foldRuns_eq (es : List Elem) (c : Compactor) :
    c.foldRuns sum (es.map (Elem.toArray sum)) =
      ((foldRunsText sum es).1.map (Elem.toArray sum), !(foldRunsText sum es).2.isEmpty,
        c.recordAll sum ((foldRunsText sum es).2.map (render sum))) := by
  have hcut : Runs.cut (fun (e : ArrayElement) n => runBoundary sum e.compacted n) []
      (es.map (Elem.toArray sum)) =
      ((cutElems sum es).1.map (map (Elem.toArray sum)),
        (cutElems sum es).2.map (Elem.toArray sum)) :=
    Runs.cut_map (fun _ _ => rfl) [] es
  simp only [foldRuns, hcut, foldClosed_eq, foldRunsText, map_append]

theorem foldLevels_eq (n : Nat) (es : List Elem) (c : Compactor) :
    foldLevels sum n (es.map (Elem.toArray sum)) c =
      ((foldLevelsText sum n es).1.map (Elem.toArray sum),
        c.recordAll sum ((foldLevelsText sum n es).2.map (render sum))) := by
  induction n generalizing es c with
  | zero => rfl
  | succ n ih =>
    simp only [foldLevels, foldLevelsText, foldRuns_eq]
    cases hem : (foldRunsText sum es).2.isEmpty with
    | true =>
      rw [isEmpty_iff.1 hem]
      rfl
    | false =>
      simp only [Bool.not_false, if_true, ih, Bool.false_eq_true, if_false, map_append,
        recordAll_append]

theorem foldLevelsText_nil : foldLevelsText sum maxRunLevels [] = ([], []) := rfl

/-- **The walker reads the layout and compacts it.** -/
theorem walker_eq : ∀ (fuel : Nat),
    (∀ s c, value sum fuel s c = (parseValue fuel s).map fun (v, rest) =>
      ((v.compact sum).1.render sum, rest,
        c.recordAll sum ((v.compact sum).2.map (render sum)))) ∧
    (∀ gap s c, members sum fuel gap s c = (parseMembers fuel gap s).map fun (ms, closing, rest) =>
      ((joinText (ms.compact sum).1).render sum ++ closing, rest,
        c.recordAll sum ((ms.compact sum).2.map (render sum)))) ∧
    (∀ gap s c, arrayElements sum fuel gap s c =
      (parseElements fuel gap s).map fun (es, closing, rest) =>
        ((es.compact sum).1.map (Elem.toArray sum), closing, rest,
          c.recordAll sum ((es.compact sum).2.map (render sum)))) := by
  intro fuel
  induction fuel with
  | zero => exact ⟨fun _ _ => rfl, fun _ _ _ => rfl, fun _ _ _ => rfl⟩
  | succ fuel ih =>
    obtain ⟨ihv, ihm, ihe⟩ := ih
    refine ⟨fun s c => ?_, fun gap s c => ?_, fun gap s c => ?_⟩
    · cases s with
      | nil => rfl
      | cons b s =>
        rw [value, parseValue]
        split
        · cases stringLiteralEnd s with
          | none => rfl
          | some r =>
            simp only [bind_eq_bind, bind_some, map_some, Layout.compact]
            split
            · simp [reference, render, recordAll]
            · simp [recordAll]
        · split
          · cases hskip : skipSpace s with
            | mk gap s1 =>
              cases s1 with
              | nil => rfl
              | cons b' s1 =>
                dsimp only
                split
                · next hb _ => simp [Layout.compact, Items.compact, joinText, render, recordAll, hb]
                · next hb _ =>
                  rw [ihm]
                  cases parseMembers fuel gap (b' :: s1) with
                  | none => rfl
                  | some r => simp [Layout.compact, render, hb]
          · split
            · cases hskip : skipSpace s with
              | mk gap s1 =>
                cases s1 with
                | nil => rfl
                | cons b' s1 =>
                  dsimp only
                  split
                  · next hb _ => simp [Layout.compact, Items.compact, joinText, render,
                      recordAll, foldLevelsText_nil, hb]
                  · next hb _ =>
                    rw [ihe]
                    cases parseElements fuel gap (b' :: s1) with
                    | none => rfl
                    | some r =>
                      simp [Layout.compact, render, foldLevels_eq, render_joinText,
                        recordAll_append, hb]
            · cases primitiveEnd (b :: s) with
              | mk text rest =>
                cases text with
                | nil => rfl
                | cons => simp [Layout.compact, recordAll]
    · simp only [members, parseMembers, bind_eq_bind]
      cases memberValue s with
      | none => rfl
      | some k =>
        simp only [bind_some, ihv]
        cases parseValue fuel k.2 with
        | none => rfl
        | some v =>
          simp only [bind_some, map_some]
          cases separator closeBrace v.2 with
          | none => rfl
          | some sep =>
            simp only [bind_some]
            split
            · simp [Items.compact, joinText]
            · simp only [ihm]
              cases parseMembers fuel sep.2.1 sep.2.2 with
              | none => rfl
              | some r =>
                simp [Items.compact, joinText, recordAll_append]
    · simp only [arrayElements, parseElements, bind_eq_bind, ihv]
      cases parseValue fuel s with
      | none => rfl
      | some v =>
        simp only [bind_some, map_some]
        cases separator closeBracket v.2 with
        | none => rfl
        | some sep =>
          simp only [bind_some]
          split
          · simp [Items.compact, Elem.toArray]
          · simp only [ihe]
            cases parseElements fuel sep.2.1 sep.2.2 with
            | none => rfl
            | some r =>
              simp [Items.compact, Elem.toArray, recordAll_append]

/-! ## Compact -/

/-- A document as a text, with what is moved out of it; `none` where the walker gives up. -/
def documentText (sum : Bytes → Digest) (raw : Bytes) : Option (Text × List Text) :=
  match parseValue (compactFuel raw) (skipSpace raw).2 with
  | none => none
  | some (v, rest) =>
    if (skipSpace rest).2 ≠ [] then none
    else some (.lit (skipSpace raw).1 ++ (v.compact sum).1 ++ .lit rest, (v.compact sum).2)

theorem documentText_spec (h : documentText sum raw = some (t, moved)) :
    t.plain = raw ∧ ∀ x, x ∈ t.moved ↔ x ∈ moved := by
  unfold documentText at h
  split at h
  · cases h
  · next v rest hp =>
    obtain ⟨_, h⟩ := of_unless h
    cases h
    have htext := (parse_append _).1 _ _ _ hp
    refine ⟨?_, fun x => ?_⟩
    · rw [Text.plain_append, Text.plain_append, Text.plain_lit, Text.plain_lit, plain_compact,
        append_assoc, htext, skipSpace_append]
    · simp only [Text.moved_append, Text.moved_lit, nil_append, append_nil]
      exact mem_moved_compact v x

theorem Compactor.Recorded.isEmpty_iff {c : Compactor} (h : c.Recorded sum parts) :
    c.blobs.isEmpty = parts.isEmpty := by
  cases parts with
  | nil =>
    cases hb : c.blobs with
    | nil => rfl
    | cons b bs =>
      have := (h.blob b (by rw [hb]; exact mem_cons_self)).1
      cases this
  | cons d ps =>
    obtain ⟨b, hb, -⟩ := h.part d mem_cons_self
    cases hbs : c.blobs with
    | nil => rw [hbs] at hb; cases hb
    | cons x xs => rfl

/-- **`Compact`, on the text of the document.** -/
theorem compact_eq (valid : Bytes → Bool) (raw : Bytes) :
    compact sum valid raw =
      if raw.length < minBlobBytes || contains raw markerText || !valid raw then (raw, [])
      else match documentText sum raw with
        | none => (raw, [])
        | some (t, moved) =>
          if moved.isEmpty then (raw, [])
          else (envelopeStart ++ t.render sum ++ envelopeSuffix,
            (recordAll sum {} (moved.map (render sum))).blobs) := by
  unfold compact documentText
  split
  · rfl
  · simp only [(walker_eq (compactFuel raw)).1]
    cases parseValue (compactFuel raw) (skipSpace raw).2 with
    | none => rfl
    | some r =>
      obtain ⟨v, rest⟩ := r
      simp only [map_some]
      split
      · rfl
      · rw [(recorded_recordAll sum _).isEmpty_iff, isEmpty_map]
        dsimp only
        split
        · rfl
        · simp only [Text.render_append, Text.render_lit, append_assoc]

end

end Peen.ContentBlob
