import Peen.Base
import Peen.Tools.EditText

/-!
# Where edits match

`matchEdits` accepts an edit whose old text `bytes.Count` counts once, and `bytes.Count` passes
over the bytes of an occurrence before it looks for the next.
-/

namespace Peen.Tools

open List

/-! ## Occurrences -/

def OccursAt (content old : Bytes) (i : Nat) : Prop := i ≤ content.length ∧ old <+: content.drop i

instance (content old : Bytes) (i : Nat) : Decidable (OccursAt content old i) :=
  inferInstanceAs (Decidable (_ ∧ _))

def Apart (content old : Bytes) : Prop :=
  ∀ i j, OccursAt content old i → OccursAt content old j → i < j → i + old.length ≤ j

section
variable {old : Bytes} {i j k : Nat}

@[simp] theorem occursAt_zero : OccursAt content old 0 ↔ old <+: content := by
  simp [OccursAt]

@[simp] theorem occursAt_succ : OccursAt (b :: content) old (i + 1) ↔ OccursAt content old i := by
  simp [OccursAt]

theorem OccursAt.drop (h : OccursAt content old i) (hk : k ≤ i) :
    OccursAt (content.drop k) old (i - k) := by
  obtain ⟨hle, hp⟩ := h
  refine ⟨?_, ?_⟩
  · rw [length_drop]
    omega
  · rwa [drop_drop, Nat.add_sub_cancel' hk]

theorem OccursAt.stop_le (h : OccursAt content old i) : i + old.length ≤ content.length := by
  have hle := h.2.length_le
  rw [length_drop] at hle
  have := h.1
  omega

theorem isPrefixOf_iff : old.isPrefixOf content = true ↔ old <+: content :=
  isPrefixOf_iff_prefix

theorem countFrom_skip (k : Nat) (s : Bytes) : countFrom old k s = countFrom old 0 (s.drop k) := by
  induction s generalizing k with
  | nil => simp [countFrom]
  | cons b rest ih =>
    cases k with
    | zero => rfl
    | succ k =>
      exact ih k

theorem countFrom_at (hold : old ≠ []) (h : old <+: content) :
    countFrom old 0 content = countFrom old 0 (content.drop old.length) + 1 := by
  cases content with
  | nil => exact absurd (prefix_nil.1 h) hold
  | cons =>
    rw [countFrom, if_pos (isPrefixOf_iff.2 h), countFrom_skip]
    cases old with
    | nil => exact absurd rfl hold
    | cons => rfl

theorem countFrom_before (h : ¬ old <+: b :: content) :
    countFrom old 0 (b :: content) = countFrom old 0 content := by
  rw [countFrom, if_neg (mt isPrefixOf_iff.1 h)]

theorem not_occursAt_of_count (hold : old ≠ []) (h : countFrom old 0 content = 0) (i : Nat) :
    ¬ OccursAt content old i := by
  induction content generalizing i with
  | nil => simp [OccursAt, hold]
  | cons b rest ih =>
    by_cases hp : old <+: b :: rest
    · rw [countFrom_at hold hp] at h
      exact absurd h (Nat.succ_ne_zero _)
    · rw [countFrom_before hp] at h
      cases i with
      | zero => rwa [occursAt_zero]
      | succ i =>
        rw [occursAt_succ]
        exact ih h i

theorem index_of_count (hold : old ≠ []) (h : countFrom old 0 content = 1) :
    ∃ i, bytesIndex old content = some i ∧ OccursAt content old i ∧
      ∀ j, OccursAt content old j → i ≤ j ∧ j < i + old.length := by
  induction content with
  | nil => exact absurd h (Nat.zero_ne_one)
  | cons b rest ih =>
    by_cases hp : old <+: b :: rest
    · refine ⟨0, ?_, occursAt_zero.2 hp, fun j hj => ⟨Nat.zero_le j, ?_⟩⟩
      · rw [bytesIndex, if_pos (isPrefixOf_iff.2 hp)]
      · -- an occurrence behind this one would have been counted
        rw [countFrom_at hold hp] at h
        by_contra hle
        exact not_occursAt_of_count hold (Nat.succ.inj h) _ (hj.drop (by omega))
    · rw [countFrom_before hp] at h
      obtain ⟨i, hindex, hocc, honly⟩ := ih h
      refine ⟨i + 1, ?_, occursAt_succ.2 hocc, ?_⟩
      · rw [bytesIndex, if_neg (mt isPrefixOf_iff.1 hp), hindex]
        rfl
      · rintro (_ | j) hj
        · exact absurd (occursAt_zero.1 hj) hp
        · have := honly j (occursAt_succ.1 hj)
          omega

theorem content_nil_of_count (h : bytesCount content [] = 1) : content = [] := by
  rw [bytesCount, if_pos rfl] at h
  by_contra hne
  have := Utf8.runeCount_pos hne
  omega

/-- What `bytes.Count` says once of: `bytes.Index` finds the first occurrence, and any other one
begins inside it. -/
theorem index_of_bytesCount (h : bytesCount content old = 1) :
    ∃ i, bytesIndex old content = some i ∧ OccursAt content old i ∧
      ∀ j, OccursAt content old j → i ≤ j ∧ (i < j → j < i + old.length) := by
  by_cases hold : old = []
  · subst hold
    obtain rfl := content_nil_of_count h
    exact ⟨0, rfl, by simp, fun j hj => ⟨Nat.zero_le j, fun hlt => absurd hj.1 hlt.not_ge⟩⟩
  · rw [bytesCount, if_neg hold] at h
    obtain ⟨i, hindex, hocc, honly⟩ := index_of_count hold h
    exact ⟨i, hindex, hocc, fun j hj => ⟨(honly j hj).1, fun _ => (honly j hj).2⟩⟩

end

/-! ## What `matchEdits` records -/

/-- A match records the first occurrence of an edit's old text, with its end and the new text, and
every other occurrence begins inside that one. -/
structure Recorded (content : Bytes) (edit : TextEdit) (m : EditMatch) : Prop where
  occurs : OccursAt content edit.old m.start
  stop : m.stop = m.start + edit.old.length
  newText : m.newText = edit.new
  first : ∀ j, OccursAt content edit.old j → m.start ≤ j
  inside : ∀ j, OccursAt content edit.old j → m.start < j → j < m.stop

def matchOf (content : Bytes) (edit : TextEdit) : EditMatch :=
  let start := (bytesIndex edit.old content).getD 0
  ⟨start, start + edit.old.length, edit.new⟩

theorem recorded_of_count {edit : TextEdit} (h : bytesCount content edit.old = 1) :
    Recorded content edit (matchOf content edit) := by
  obtain ⟨i, hindex, hocc, honly⟩ := index_of_bytesCount h
  rw [matchOf, hindex]
  exact ⟨hocc, rfl, rfl, fun j hj => (honly j hj).1, fun j hj => (honly j hj).2⟩

theorem matchEditsFrom_eq_ok {i : Nat} :
    matchEditsFrom content i edits = .ok found ↔
      (∀ edit ∈ edits, bytesCount content edit.old = 1) ∧ found = edits.map (matchOf content) := by
  induction edits generalizing i found with
  | nil => simp [matchEditsFrom, eq_comm]
  | cons edit edits ih =>
    rw [matchEditsFrom, forall_mem_cons]
    split
    · next hzero => exact ⟨nofun, fun h => absurd h.1.1 (by omega)⟩
    · split
      · next hmany => exact ⟨nofun, fun h => absurd h.1.1 (by omega)⟩
      · next hzero hmany =>
        rw [bind_eq_ok]
        refine ⟨?_, ?_⟩
        · rintro ⟨matched, hm, he⟩
          cases he
          obtain ⟨hrest, rfl⟩ := ih.1 hm
          exact ⟨⟨by omega, hrest⟩, rfl⟩
        · rintro ⟨⟨-, hrest⟩, rfl⟩
          exact ⟨_, ih.2 ⟨hrest, rfl⟩, rfl⟩

theorem matchEdits_eq_ok :
    matchEdits content edits = .ok found ↔
      (∀ edit ∈ edits, bytesCount content edit.old = 1) ∧ found = edits.map (matchOf content) :=
  matchEditsFrom_eq_ok

theorem recorded_of_matchEdits (h : matchEdits content edits = .ok found) :
    Forall₂ (Recorded content) edits found := by
  obtain ⟨honce, rfl⟩ := matchEdits_eq_ok.1 h
  rw [forall₂_map_right_iff, forall₂_same]
  exact fun edit hedit => recorded_of_count (honce edit hedit)

theorem Recorded.only_iff (h : Recorded content edit m) :
    (∀ j, OccursAt content edit.old j ↔ j = m.start) ↔ Apart content edit.old := by
  refine ⟨fun honly i j hi hj hlt => ?_, fun hap j => ⟨fun hj => ?_, ?_⟩⟩
  · have hi' := (honly i).1 hi
    have hj' := (honly j).1 hj
    omega
  · by_contra hne
    have hlt : m.start < j := lt_of_le_of_ne (h.first j hj) (Ne.symm hne)
    have hle := hap m.start j h.occurs hj hlt
    have hin := h.inside j hj hlt
    have hstop := h.stop
    omega
  · rintro rfl
    exact h.occurs

/-- **Accepted edits are unambiguous exactly if no old text overlaps itself.** The recorded offset
is always an occurrence; it is the only one, for every edit of the list, exactly if no two
occurrences of an old text in the content share a byte. -/
theorem accepted_edits_unambiguous_iff {content : Bytes} {edits : List TextEdit}
    {found : List EditMatch} (h : matchEdits content edits = .ok found) :
    Forall₂ (fun edit m => OccursAt content edit.old m.start) edits found ∧
    (Forall₂ (fun edit m => ∀ j, OccursAt content edit.old j ↔ j = m.start) edits found ↔
      ∀ edit ∈ edits, Apart content edit.old) := by
  obtain ⟨honce, rfl⟩ := matchEdits_eq_ok.1 h
  simp only [forall₂_map_right_iff, forall₂_same]
  refine ⟨fun edit hedit => (recorded_of_count (honce edit hedit)).occurs, ?_⟩
  exact forall₂_congr fun edit hedit => (recorded_of_count (honce edit hedit)).only_iff

/-- One edit of a text that occurs once. -/
theorem accepted_edits_unambiguous_single :
    matchEdits [97, 98, 98] [⟨[98, 98], [99]⟩] = .ok [⟨1, 3, [99]⟩] ∧
    (Forall₂ (fun (edit : TextEdit) (m : EditMatch) =>
        ∀ j, OccursAt [97, 98, 98] edit.old j ↔ j = m.start) [⟨[98, 98], [99]⟩] [⟨1, 3, [99]⟩] ↔
      ∀ edit ∈ [(⟨[98, 98], [99]⟩ : TextEdit)], Apart [97, 98, 98] edit.old) :=
  ⟨rfl, (accepted_edits_unambiguous_iff rfl).2⟩

/-- "aa" is accepted in "aaa", where it occurs at two offsets. -/
theorem overlapping_old_text_accepted :
    matchEdits [97, 97, 97] [⟨[97, 97], [98]⟩] = .ok [⟨0, 2, [98]⟩] ∧
    OccursAt [97, 97, 97] [97, 97] 0 ∧ OccursAt [97, 97, 97] [97, 97] 1 := by
  refine ⟨rfl, ?_, ?_⟩
  · decide
  · decide

end Peen.Tools
