import Peen.Lib.Keyed
import Peen.Lib.Pointwise
import Peen.Lib.Splice
import Peen.Tools.EditMatches

/-!
# Edits as one simultaneous substitution

The ranges `matchEdits` finds do not depend on the order of the edits, and ranges that do not
overlap can be sorted in one way only.
-/

namespace Peen.Tools

open List Splice

/-- `matchEdits` and then `checkOverlaps`, as `applyEditsLocked` calls them. -/
def acceptEdits (content : Bytes) (edits : List TextEdit) : Except ToolErr (List EditMatch) := do
  let found ← matchEdits content edits
  let _ ← checkOverlaps found
  .ok found

/-- The ranges of `ms`, from the offset `i` of the content and the offset `j` of the rewritten text
on: each is replaced by its new text, everything else is kept, and `rs` records the ranges. -/
inductive Substituted (content rewritten : Bytes) :
    Nat → Nat → List EditMatch → List Replacement → Prop
  | done {i j : Nat} (hi : i ≤ content.length) (hj : j ≤ rewritten.length)
      (kept : content.drop i = rewritten.drop j) : Substituted content rewritten i j [] []
  | edit {i j : Nat} {m : EditMatch} {r : Replacement} {ms : List EditMatch}
      {rs : List Replacement} (start : r.oldStart = m.start) (stop : r.oldEnd = m.stop)
      (oldAfter : i ≤ r.oldStart) (oldRange : r.oldStart ≤ r.oldEnd)
      (newAfter : j ≤ r.newStart) (newRange : r.newStart ≤ r.newEnd)
      (kept : slice content i r.oldStart = slice rewritten j r.newStart)
      (text : slice rewritten r.newStart r.newEnd = m.newText)
      (rest : Substituted content rewritten r.oldEnd r.newEnd ms rs) :
      Substituted content rewritten i j (m :: ms) (r :: rs)

/-! ## The order of the ranges -/

def EditMatch.Holds (m : EditMatch) : Prop := m.start < m.stop

def RangesDisjoint (l : List EditMatch) : Prop := l.Pairwise fun a b => a.stop ≤ b.start

section
variable {l' : List EditMatch}

theorem disjoint_of_not_overlapping (hl : ∀ m ∈ l, m.Holds) (h : overlapping l = false) :
    RangesDisjoint l := by
  induction l with
  | nil => exact .nil
  | cons a rest ih =>
    obtain ⟨-, hrest⟩ := forall_mem_cons.1 hl
    cases rest with
    | nil => exact pairwise_singleton _ _
    | cons b rest =>
      rw [overlapping, Bool.or_eq_false_iff, decide_eq_false_iff_not, not_lt] at h
      have hd : RangesDisjoint (b :: rest) := ih hrest h.2
      refine pairwise_cons.2 ⟨fun c hc => ?_, hd⟩
      rcases mem_cons.1 hc with rfl | hc
      · exact h.1
      · have hbc := (pairwise_cons.1 hd).1 c hc
        have hb : b.start < b.stop := hrest b mem_cons_self
        exact h.1.trans (hb.le.trans hbc)

theorem RangesDisjoint.ascending (h : RangesDisjoint l) (hl : ∀ m ∈ l, m.Holds) :
    Keyed.Ascending EditMatch.start l :=
  h.imp_of_mem fun ha _ hab => (hl _ ha).trans_le hab

/-- Ranges that do not overlap have one order: whatever puts them in the order of their starts, the
same list comes out. -/
theorem order_unique (hp : l'.Perm l) (hl : ∀ m ∈ l, m.Holds) (h : overlapping l = false)
    (hs : l'.Pairwise fun a b => a.start ≤ b.start) : l' = l := by
  have hasc := (disjoint_of_not_overlapping hl h).ascending hl
  have hasc' : Keyed.Ascending EditMatch.start (Keyed.sort EditMatch.start l') :=
    (hasc.distinct.perm hp.symm).ascending
  rw [Keyed.sort, hs.insertionSort_eq] at hasc'
  exact Keyed.ext hasc' hasc fun m => hp.mem_iff

theorem sortedByStart_perm (l : List EditMatch) : (sortedByStart l).Perm l :=
  perm_insertionSort _ _

theorem sortedByStart_ordered (l : List EditMatch) :
    (sortedByStart l).Pairwise fun a b => a.start ≤ b.start := by
  exact pairwise_insertionSort _ l

theorem sortedByStart_congr (hp : l'.Perm l) (hl : ∀ m ∈ l, m.Holds)
    (h : overlapping (sortedByStart l) = false) : sortedByStart l' = sortedByStart l :=
  order_unique ((sortedByStart_perm l').trans (hp.trans (sortedByStart_perm l).symm))
    (fun m hm => hl m ((sortedByStart_perm l).mem_iff.1 hm)) h (sortedByStart_ordered l')

end

/-! ## Acceptance -/

section
variable {edits' : List TextEdit}

theorem acceptEdits_eq_ok : acceptEdits content edits = .ok found ↔
    matchEdits content edits = .ok found ∧ overlapping (sortedByStart found) = false := by
  rw [acceptEdits, bind_eq_ok]
  refine ⟨?_, fun ⟨hm, ho⟩ => ⟨found, hm, ?_⟩⟩
  · rintro ⟨ms, hm, h⟩
    obtain ⟨_, hc, he⟩ := of_bind h
    cases he
    refine ⟨hm, ?_⟩
    obtain ⟨_, hc⟩ := of_check hc
    next ho => exact Bool.eq_false_of_not_eq_true ho
  · rw [checkOverlaps, ho]
    rfl

theorem holds_of_matchEdits (hold : ∀ e ∈ edits, e.old ≠ [])
    (h : matchEdits content edits = .ok found) : ∀ m ∈ found, m.Holds := by
  obtain ⟨honce, rfl⟩ := matchEdits_eq_ok.1 h
  intro m hm
  obtain ⟨e, he, rfl⟩ := mem_map.1 hm
  have hstop := (recorded_of_count (honce e he)).stop
  have hpos := length_pos_iff.2 (hold e he)
  rw [EditMatch.Holds]
  omega

theorem acceptEdits_perm (hperm : edits'.Perm edits) (hold : ∀ e ∈ edits, e.old ≠ [])
    (h : acceptEdits content edits = .ok found) :
    ∃ found', acceptEdits content edits' = .ok found' ∧
      sortedByStart found' = sortedByStart found := by
  obtain ⟨hm, ho⟩ := acceptEdits_eq_ok.1 h
  have hholds := holds_of_matchEdits hold hm
  obtain ⟨honce, rfl⟩ := matchEdits_eq_ok.1 hm
  have heq : sortedByStart (edits'.map (matchOf content)) =
      sortedByStart (edits.map (matchOf content)) :=
    sortedByStart_congr (hperm.map _) hholds ho
  refine ⟨edits'.map (matchOf content), acceptEdits_eq_ok.2 ⟨?_, ?_⟩, heq⟩
  · exact matchEdits_eq_ok.2 ⟨fun e he => honce e (hperm.mem_iff.1 he), rfl⟩
  · rw [heq, ho]

/-! ## The rewritten text -/

theorem Recorded.stop_le (h : Recorded content edit m) :
    m.start ≤ m.stop ∧ m.stop ≤ content.length := by
  have hle := h.occurs.stop_le
  have hstop := h.stop
  omega

end

theorem applyOrdered_extends (content rewritten : Bytes) (cursor : Nat) (ms : List EditMatch) :
    rewritten <+: (applyOrdered content rewritten cursor ms).1 := by
  induction ms generalizing rewritten cursor with
  | nil => exact prefix_append _ _
  | cons m ms ih =>
    refine IsPrefix.trans ?_ (ih _ _)
    rw [append_assoc]
    exact prefix_append _ _

theorem substituted_applyOrdered {content : Bytes} {cursor : Nat}
    (hms : ∀ m ∈ ms, m.start ≤ m.stop ∧ m.stop ≤ content.length) (hd : RangesDisjoint ms)
    (hfst : ∀ m ∈ ms, cursor ≤ m.start) (hcursor : cursor ≤ content.length) :
    Substituted content (applyOrdered content rewritten cursor ms).1 cursor rewritten.length ms
      (applyOrdered content rewritten cursor ms).2 := by
  induction ms generalizing rewritten cursor with
  | nil =>
    refine .done hcursor ?_ ?_
    · simp [applyOrdered]
    · simp [applyOrdered]
  | cons m ms ih =>
    obtain ⟨⟨hle, hstop⟩, hrest⟩ := forall_mem_cons.1 hms
    obtain ⟨hnext, hd'⟩ := pairwise_cons.1 hd
    have hm : cursor ≤ m.start := hfst m mem_cons_self
    rw [applyOrdered]
    generalize hkept : rewritten ++ (content.take m.start).drop cursor = kept
    obtain ⟨more, hmore⟩ := applyOrdered_extends content (kept ++ m.newText) m.stop ms
    refine .edit rfl rfl hm hle ?_ ?_ ?_ ?_ (ih hrest hd' hnext hstop)
    · rw [← hkept, length_append]
      exact Nat.le_add_right _ _
    · rw [length_append]
      exact Nat.le_add_right _ _
    · rw [← hmore, append_assoc, slice_append_left le_rfl, slice, slice,
        take_length, ← hkept, drop_left]
    · rw [← hmore]
      exact slice_middle _ _ _

/-- **Edits are a simultaneous substitution, whatever their order.** Two orders of the same edits
are accepted or refused together. If they are accepted, both give the same bytes and the same
replacements: the ranges found for the edits, in the order of their starts, are replaced by their
new texts, ascending and disjoint in both texts, and the stretches between them are identical. -/
theorem edits_substitute_in_any_order {content : Bytes} {edits edits' : List TextEdit}
    (hperm : edits'.Perm edits) (hold : ∀ e ∈ edits, e.old ≠ []) :
    ((∃ found, acceptEdits content edits = .ok found) ↔
      ∃ found', acceptEdits content edits' = .ok found') ∧
    ∀ found found', acceptEdits content edits = .ok found →
      acceptEdits content edits' = .ok found' →
      applyMatches content found' = applyMatches content found ∧
      Forall₂ (Recorded content) edits found ∧
      ∃ ordered, ordered.Perm found ∧
        Substituted content (applyMatches content found).1 0 0 ordered
          (applyMatches content found).2 := by
  have hold' : ∀ e ∈ edits', e.old ≠ [] := fun e he => hold e (hperm.mem_iff.1 he)
  refine ⟨⟨?_, ?_⟩, ?_⟩
  · rintro ⟨found, h⟩
    obtain ⟨found', h', -⟩ := acceptEdits_perm hperm hold h
    exact ⟨found', h'⟩
  · rintro ⟨found', h'⟩
    obtain ⟨found, h, -⟩ := acceptEdits_perm hperm.symm hold' h'
    exact ⟨found, h⟩
  · intro found found' h h'
    obtain ⟨hm, ho⟩ := acceptEdits_eq_ok.1 h
    have hrecorded := recorded_of_matchEdits hm
    refine ⟨?_, hrecorded, sortedByStart found, sortedByStart_perm found, ?_⟩
    · obtain ⟨found'', h'', heq⟩ := acceptEdits_perm hperm hold h
      rw [h''] at h'
      cases h'
      rw [applyMatches, applyMatches, heq]
    · refine substituted_applyOrdered (fun m hmem => ?_) ?_ (fun _ _ => Nat.zero_le _)
        (Nat.zero_le _)
      · obtain ⟨e, -, hrec⟩ :=
          hrecorded.exists_left ((sortedByStart_perm found).mem_iff.1 hmem)
        exact hrec.stop_le
      · refine disjoint_of_not_overlapping (fun m hmem => ?_) ho
        exact holds_of_matchEdits hold hm m ((sortedByStart_perm found).mem_iff.1 hmem)

/-- Two edits in both orders. -/
theorem edits_substitute_swapped :
    acceptEdits [97, 98, 99] [⟨[97], [100, 100]⟩, ⟨[99], []⟩] =
      .ok [⟨0, 1, [100, 100]⟩, ⟨2, 3, []⟩] ∧
    applyMatches [97, 98, 99] [⟨0, 1, [100, 100]⟩, ⟨2, 3, []⟩] =
      applyMatches [97, 98, 99] [⟨2, 3, []⟩, ⟨0, 1, [100, 100]⟩] ∧
    (applyMatches [97, 98, 99] [⟨2, 3, []⟩, ⟨0, 1, [100, 100]⟩]).1 = [100, 100, 98] := by
  refine ⟨rfl, ?_, rfl⟩
  exact ((edits_substitute_in_any_order (Perm.swap ⟨[99], []⟩ ⟨[97], [100, 100]⟩ [])
    (by decide)).2 _ _ rfl rfl).1

end Peen.Tools
