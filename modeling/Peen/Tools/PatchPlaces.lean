import Peen.Base
import Peen.Lib.Splice
import Peen.Tools.PatchLines

/-!
# Where hunks are applied

The loop of `applyPatchHunks` looks for each hunk in the lines as the hunks before it left them, from
the place the last one ended on.
-/

namespace Peen.Tools

open Splice List Nat

section
variable (texts : List Bytes) (s : Nat) (hunk : PatchHunk) (p : Nat)

def lineTexts (lines : List PatchSourceLine) : List Bytes := lines.map (·.text)

def patchNewLines (lines : List PatchLine) : List Bytes :=
  (lines.filter (·.kind != .delete)).map (·.text)

/-- Where the search for a hunk begins: behind the only line with the text of its anchor, or where
the last hunk ended if it has none. -/
def SearchStart (anchor : Bytes) (start : Nat) : Prop :=
  (anchor = [] ∧ start = s) ∨
  (anchor ≠ [] ∧ ∃ i, start = i + 1 ∧ s ≤ i ∧ texts[i]? = some anchor ∧
    ∀ j, s ≤ j → texts[j]? = some anchor → j = i)

/-- The old lines of a hunk occur at a place, and end the file if the hunk is so marked. -/
def MatchesAt : Prop :=
  let old := patchOldLines hunk.lines
  p + old.length ≤ texts.length ∧ slice texts p (p + old.length) = old ∧
    (hunk.endOfFile = true → p + old.length = texts.length)

/-- The place of a hunk: the only one at or after the search start where its old lines occur. A hunk
without old lines is placed at the end of the file if so marked and at the search start otherwise. -/
def PlacedAt : Prop :=
  ∃ start, SearchStart texts s hunk.anchor start ∧
    if patchOldLines hunk.lines = [] then p = if hunk.endOfFile then texts.length else start
    else start ≤ p ∧ MatchesAt texts hunk p ∧ ∀ q, start ≤ q → MatchesAt texts hunk q → q = p

end

/-- The edits of hunks, from a line of the source on: each replaces the old lines of its hunk, at
the hunk's place, by lines with the texts of its context and added lines, and the next one begins
behind it. -/
inductive HunksPlaced (source : List PatchSourceLine) :
    Nat → List PatchHunk → List (Edit PatchSourceLine) → Prop
  | nil {s : Nat} : HunksPlaced source s [] []
  | cons {s : Nat} {hunk : PatchHunk} {e : Edit PatchSourceLine} {hunks : List PatchHunk}
      {es : List (Edit PatchSourceLine)} (place : PlacedAt (lineTexts source) s hunk e.start)
      (after : s ≤ e.start) (within : e.stop ≤ source.length)
      (count : e.count = (patchOldLines hunk.lines).length)
      (new : lineTexts e.new = patchNewLines hunk.lines)
      (rest : HunksPlaced source e.stop hunks es) : HunksPlaced source s (hunk :: hunks) (e :: es)

/-! ## The search loops -/

section
variable {i found : Nat}

theorem uniqueIndex_some (h : uniqueIndex what test (some found) indices = .ok i) :
    i = found ∧ ∀ j ∈ indices, test j = false := by
  induction indices with
  | nil =>
    cases h
    exact ⟨rfl, nofun⟩
  | cons index indices ih =>
    obtain ⟨_, h⟩ := of_check h
    next hno =>
    obtain ⟨he, hrest⟩ := ih h
    exact ⟨he, forall_mem_cons.2 ⟨eq_false_of_ne_true hno, hrest⟩⟩

theorem uniqueIndex_none (h : uniqueIndex what test none indices = .ok i) :
    i ∈ indices ∧ test i = true ∧ ∀ j ∈ indices, test j = true → j = i := by
  induction indices with
  | nil => cases h
  | cons index indices ih =>
    rw [uniqueIndex] at h
    split at h
    · next hit =>
      obtain ⟨rfl, hrest⟩ := uniqueIndex_some h
      refine ⟨mem_cons_self, hit, fun j hj hjt => ?_⟩
      rcases mem_cons.1 hj with rfl | hj
      · rfl
      · exact absurd hjt (Bool.not_eq_true _ ▸ hrest j hj)
    · next hno =>
      obtain ⟨hmem, hit, honly⟩ := ih h
      refine ⟨mem_cons_of_mem _ hmem, hit, fun j hj hjt => ?_⟩
      rcases mem_cons.1 hj with rfl | hj
      · exact absurd hjt hno
      · exact honly j hj hjt

end

/-! ## Places of the source -/

section
variable {source lines : List PatchSourceLine} {s d : Nat} {hunk : PatchHunk}

theorem drop_rewritten (d : Nat) : (done ++ source.drop s).drop (done.length + d) =
    source.drop (s + d) := by
  rw [drop_append, drop_of_length_le (by omega), nil_append, drop_drop, Nat.add_sub_cancel_left]

theorem text_rewritten (d : Nat) : ((done ++ source.drop s)[done.length + d]?).map (·.text) =
    (lineTexts source)[s + d]? := by
  rw [getElem?_append_right (Nat.le_add_right _ _), Nat.add_sub_cancel_left,
    getElem?_drop, lineTexts, getElem?_map]

theorem length_rewritten : (done ++ source.drop s).length = done.length + (source.length - s) := by
  rw [length_append, length_drop]

theorem searchStart_of_locate (hs : s ≤ source.length) {a : Nat}
    (h : locatePatchAnchor (done ++ source.drop s) done.length anchor = .ok a) :
    ∃ d, a = done.length + d ∧ s + d ≤ source.length ∧
      SearchStart (lineTexts source) s anchor (s + d) := by
  rw [locatePatchAnchor] at h
  split at h
  · next hnil =>
    cases h
    exact ⟨0, rfl, hs, .inl ⟨hnil, rfl⟩⟩
  · next hanchor =>
    obtain ⟨i, hi, rfl⟩ := map_eq_ok.1 h
    obtain ⟨hmem, hit, honly⟩ := uniqueIndex_none hi
    rw [mem_range'_1, length_rewritten] at hmem
    obtain ⟨d, rfl⟩ := Nat.exists_eq_add_of_le hmem.1
    rw [text_rewritten, beq_iff_eq] at hit
    refine ⟨d + 1, rfl, by omega, .inr ⟨hanchor, s + d, rfl, by omega, hit, fun j hj htext => ?_⟩⟩
    obtain ⟨c, rfl⟩ := Nat.exists_eq_add_of_le hj
    have hlt : s + c < source.length := by
      have := (List.getElem?_eq_some_iff.1 htext).1
      rwa [lineTexts, length_map] at this
    have hc := honly (done.length + c) ?_ ?_
    · omega
    · rw [mem_range'_1, length_rewritten]
      omega
    · rw [text_rewritten, htext, beq_self_eq_true]

theorem matchesAt_iff (hold : old = patchOldLines hunk.lines)
    (hd : s + d + old.length ≤ source.length) :
    ((((done ++ source.drop s).drop (done.length + d)).take old.length).map (·.text) == old &&
      (!hunk.endOfFile || done.length + d + old.length == (done ++ source.drop s).length)) = true ↔
    MatchesAt (lineTexts source) hunk (s + d) := by
  have hslice : ((source.drop (s + d)).take old.length).map (·.text) =
      slice (lineTexts source) (s + d) (s + d + old.length) := by
    rw [slice_eq_take_drop, Nat.add_sub_cancel_left, lineTexts, map_take, map_drop]
  have hend : done.length + d + old.length = done.length + (source.length - s) ↔
      s + d + old.length = source.length := by omega
  rw [drop_rewritten, hslice, length_rewritten, Bool.and_eq_true, beq_iff_eq, Bool.or_eq_true,
    Bool.not_eq_true', beq_iff_eq, hend, MatchesAt, ← hold, lineTexts, length_map,
    ← Bool.not_eq_true, ← imp_iff_not_or]
  exact ⟨fun h => ⟨hd, h⟩, fun h => h.2⟩

theorem placed_of_locate (hd : s + d ≤ source.length) {m k : Nat}
    (h : locatePatchHunk (done ++ source.drop s) (done.length + d) hunk = .ok (m, k)) :
    k = (patchOldLines hunk.lines).length ∧ ∃ p, s + d ≤ p ∧ m = done.length + (p - s) ∧
      p + k ≤ source.length ∧
      if patchOldLines hunk.lines = [] then
        p = if hunk.endOfFile then (lineTexts source).length else s + d
      else s + d ≤ p ∧ MatchesAt (lineTexts source) hunk p ∧
        ∀ q, s + d ≤ q → MatchesAt (lineTexts source) hunk q → q = p := by
  have hlen : (lineTexts source).length = source.length := length_map _
  rw [locatePatchHunk] at h
  generalize hold : patchOldLines hunk.lines = old at h ⊢
  split at h
  · next hnil =>
    cases h
    refine ⟨by rw [hnil]; rfl, if hunk.endOfFile then source.length else s + d, ?_⟩
    rw [if_pos hnil, length_rewritten, hlen]
    split
    · exact ⟨hd, by omega, Nat.le_refl _, rfl⟩
    · exact ⟨Nat.le_refl _, by omega, hd, rfl⟩
  · next hne =>
    obtain ⟨i, hi, he⟩ := map_eq_ok.1 h
    obtain ⟨rfl, rfl⟩ := Prod.mk.inj he
    obtain ⟨hmem, hit, honly⟩ := uniqueIndex_none hi
    rw [mem_range'_1, length_rewritten] at hmem
    have hi' : done.length ≤ i := by omega
    obtain ⟨c, rfl⟩ := Nat.exists_eq_add_of_le hi'
    have hc : s + c + old.length ≤ source.length := by omega
    refine ⟨rfl, s + c, by omega, by omega, hc, ?_⟩
    rw [if_neg hne]
    refine ⟨by omega, (matchesAt_iff hold.symm hc).1 hit, fun q hq hmat => ?_⟩
    have hq' : s ≤ q := by omega
    obtain ⟨b, rfl⟩ := Nat.exists_eq_add_of_le hq'
    have hb : s + b + old.length ≤ source.length := by
      have := hmat.1
      rwa [hold, hlen] at this
    have hbi := honly (done.length + b) ?_ ((matchesAt_iff hold.symm hb).2 hmat)
    · omega
    · rw [mem_range'_1, length_rewritten]
      omega

end

/-! ## The replacement -/

def unterminated (lines : List PatchSourceLine) : Bool := lines.getLast?.any (·.ending == [])

def replacementOf (lineEnding : Bytes) (lines matched : List PatchSourceLine) (atEnd : Bool)
    (hunk : PatchHunk) : List PatchSourceLine :=
  let replacement := buildPatchReplacement lineEnding matched hunk.lines
  if atEnd ∧ unterminated lines then unterminateLast lineEnding replacement else replacement

variable {lineEnding : Bytes}

theorem texts_buildPatchReplacement (h : lineTexts matched = patchOldLines lines) :
    lineTexts (buildPatchReplacement lineEnding matched lines) = patchNewLines lines := by
  induction lines generalizing matched with
  | nil => rfl
  | cons line lines ih =>
    obtain ⟨kind, text⟩ := line
    cases kind with
    | add => exact congrArg (text :: ·) (ih h)
    | context | delete =>
      cases matched with
      | nil => cases h
      | cons =>
        obtain ⟨htext, hrest⟩ := cons.inj h
        first
        | exact congrArg₂ _ htext (ih hrest)
        | exact ih hrest

theorem texts_unterminateLast (lineEnding : Bytes) (lines : List PatchSourceLine) :
    lineTexts (unterminateLast lineEnding lines) = lineTexts lines := by
  have hinit : ∀ l : List PatchSourceLine, lineTexts (l.map fun line =>
      if line.ending = [] then { line with ending := lineEnding } else line) = lineTexts l := by
    intro l
    rw [lineTexts, lineTexts, map_map]
    refine map_congr_left fun line _ => ?_
    dsimp only [Function.comp_apply]
    split <;> rfl
  rcases eq_nil_or_concat lines with rfl | ⟨init, last, rfl⟩
  · rfl
  · have := hinit init
    rw [lineTexts, lineTexts] at this
    simp [unterminateLast, lineTexts, this]

theorem texts_replacementOf {hunk : PatchHunk} (h : lineTexts matched = patchOldLines hunk.lines) :
    lineTexts (replacementOf lineEnding lines matched atEnd hunk) = patchNewLines hunk.lines := by
  rw [replacementOf]
  split
  · rw [texts_unterminateLast, texts_buildPatchReplacement h]
  · exact texts_buildPatchReplacement h

/-! ## One hunk and all of them -/

/-- What one hunk does to the lines `done ++ source.drop s` with the cursor behind `done`. -/
structure HunkApplied (lineEnding : Bytes) (source done : List PatchSourceLine) (s : Nat)
    (hunk : PatchHunk) (e : Edit PatchSourceLine) : Prop where
  place : PlacedAt (lineTexts source) s hunk e.start
  after : s ≤ e.start
  within : e.stop ≤ source.length
  count : e.count = (patchOldLines hunk.lines).length
  matched : lineTexts (slice source e.start e.stop) = patchOldLines hunk.lines
  new : e.new = replacementOf lineEnding (done ++ source.drop s) (slice source e.start e.stop)
    (decide (e.stop = source.length)) hunk

theorem texts_of_place {start p : Nat} {hunk : PatchHunk} (h : if patchOldLines hunk.lines = [] then
        p = if hunk.endOfFile then (lineTexts source).length else start
      else start ≤ p ∧ MatchesAt (lineTexts source) hunk p ∧
        ∀ q, start ≤ q → MatchesAt (lineTexts source) hunk q → q = p) :
    lineTexts (slice source p (p + (patchOldLines hunk.lines).length)) =
      patchOldLines hunk.lines := by
  rw [lineTexts, map_slice]
  split at h
  · next hnil =>
    rw [hnil, slice_eq_take_drop]
    simp
  · exact h.2.1.2.1

theorem applied_of_applyPatchHunk {source : List PatchSourceLine} {s cursor : Nat}
    (hs : s ≤ source.length)
    (h : applyPatchHunk lineEnding (done ++ source.drop s) done.length hunk = .ok (lines, cursor)) :
    ∃ e, HunkApplied lineEnding source done s hunk e ∧
      lines = (done ++ slice source s e.start ++ e.new) ++ source.drop e.stop ∧
      cursor = (done ++ slice source s e.start ++ e.new).length := by
  obtain ⟨a, ha, h⟩ := of_bind h
  obtain ⟨d, rfl, hd, hsta⟩ := searchStart_of_locate hs ha
  obtain ⟨⟨m, k⟩, hm, h⟩ := of_bind h
  obtain ⟨rfl, p, hp, rfl, hk, hpc⟩ := placed_of_locate hd hm
  generalize hct : (patchOldLines hunk.lines).length = k at *
  have htake : (done ++ source.drop s).take (done.length + (p - s)) = done ++ slice source s p := by
    rw [take_length_add_append, slice_eq_take_drop]
  have hdrop : ((done ++ source.drop s).drop (done.length + (p - s))).take k =
      slice source p (p + k) := by
    rw [drop_rewritten, slice_eq_take_drop, Nat.add_sub_cancel_left, Nat.add_sub_cancel' (by omega)]
  have hrest : (done ++ source.drop s).drop (done.length + (p - s) + k) = source.drop (p + k) := by
    rw [Nat.add_assoc, drop_rewritten]
    congr 1
    omega
  have hend : (done.length + (p - s) + k = (done ++ source.drop s).length) =
      (decide (p + k = source.length) = true) := by
    rw [length_rewritten, decide_eq_true_iff]
    exact propext ⟨fun h => by omega, fun h => by omega⟩
  refine ⟨⟨p, k, replacementOf lineEnding (done ++ source.drop s) (slice source p (p + k))
    (decide (p + k = source.length)) hunk⟩, ?_, ?_⟩
  · refine ⟨⟨_, hsta, hpc⟩, Nat.le_trans (Nat.le_add_right s d) hp, hk, hct.symm, ?_, rfl⟩
    rw [← hct]
    exact texts_of_place hpc
  · have hpair := Except.ok.inj h
    simp only [hdrop, htake, hrest, hend] at hpair
    obtain ⟨rfl, rfl⟩ := Prod.mk.inj hpair
    refine ⟨rfl, ?_⟩
    rw [length_append, length_append, length_slice (Nat.le_trans (Nat.le_add_right p k) hk)]
    rfl

theorem HunkApplied.texts {s : Nat} (h : HunkApplied lineEnding source done s hunk e) :
    lineTexts e.new = patchNewLines hunk.lines := by
  rw [h.new]
  exact texts_replacementOf h.matched

/-- What the loop does, hunk by hunk, with the lines `done` behind its cursor. -/
inductive HunksApplied (lineEnding : Bytes) (source : List PatchSourceLine) :
    List PatchSourceLine → Nat → List PatchHunk → List (Edit PatchSourceLine) → Prop
  | nil : HunksApplied lineEnding source done s [] []
  | cons (first : HunkApplied lineEnding source done s hunk e)
      (rest : HunksApplied lineEnding source (done ++ slice source s e.start ++ e.new) e.stop
        hunks es) : HunksApplied lineEnding source done s (hunk :: hunks) (e :: es)

theorem apply_cons (done source : List PatchSourceLine) (s : Nat) (e : Edit PatchSourceLine)
    (es : List (Edit PatchSourceLine)) : done ++ apply source s (e :: es) =
      (done ++ slice source s e.start ++ e.new) ++ apply source e.stop es := by
  rw [apply]
  simp only [append_assoc]

theorem applied_of_applyHunks {source : List PatchSourceLine} {s : Nat}
    (done : List PatchSourceLine) (hs : s ≤ source.length)
    (h : applyHunks lineEnding (done ++ source.drop s) done.length hunks = .ok lines) :
    ∃ es, HunksApplied lineEnding source done s hunks es ∧ lines = done ++ apply source s es := by
  induction hunks generalizing done s with
  | nil =>
    cases h
    exact ⟨[], .nil, rfl⟩
  | cons hunk hunks ih =>
    obtain ⟨⟨lines', cursor⟩, hstep, h⟩ := of_bind h
    obtain ⟨e, happ, rfl, rfl⟩ := applied_of_applyPatchHunk hs hstep
    obtain ⟨es, hrest, rfl⟩ := ih _ happ.within h
    exact ⟨e :: es, .cons happ hrest, (apply_cons _ _ _ _ _).symm⟩

theorem HunksApplied.placed {s : Nat} (h : HunksApplied lineEnding source done s hunks es) :
    HunksPlaced source s hunks es := by
  induction h with
  | nil => exact .nil
  | cons happ _ ih => exact .cons happ.place happ.after happ.within happ.count happ.texts ih

/-! ## The ranges -/

theorem HunksPlaced.ranges {s : Nat} (h : HunksPlaced source s hunks es) :
    (∀ e ∈ es, s ≤ e.start ∧ e.stop ≤ source.length) ∧
      es.Pairwise fun a b => a.stop ≤ b.start := by
  induction h with
  | nil => exact ⟨nofun, .nil⟩
  | @cons s _ e _ es _ haft hwithin _ _ _ ih =>
    obtain ⟨hrest, hpair⟩ := ih
    refine ⟨forall_mem_cons.2 ⟨⟨haft, hwithin⟩, fun e' he' => ⟨?_, (hrest e' he').2⟩⟩,
      pairwise_cons.2 ⟨fun e' he' => (hrest e' he').1, hpair⟩⟩
    have hstop : e.start ≤ e.stop := le_add_right _ _
    exact le_trans haft (le_trans hstop (hrest e' he').1)

theorem joined_terminatedLine (line : Bytes) :
    (terminatedLine line).text ++ (terminatedLine line).ending = line ++ [newline] := by
  rw [terminatedLine]
  split
  · next hcr =>
    obtain ⟨init, rfl⟩ := getLast?_eq_some_iff.1 hcr
    simp
  · rfl

theorem join_splitLinesFrom (line content : Bytes) :
    joinPatchSourceLines (splitLinesFrom line content) = line ++ content := by
  induction content generalizing line with
  | nil =>
    rw [splitLinesFrom]
    split
    · next hnil => rw [hnil]; rfl
    · simp [joinPatchSourceLines]
  | cons b rest ih =>
    rw [splitLinesFrom]
    split
    · next hb =>
      rw [joinPatchSourceLines, flatMap_cons, joined_terminatedLine, ← joinPatchSourceLines,
        ih, hb, append_assoc]
      rfl
    · rw [ih, append_assoc]
      rfl

/-- **Hunks change only what they match.** The places of the hunks are ranges of the source,
ascending and disjoint, each the only one where the old lines of its hunk occur; the result is the
source with those ranges replaced, every line outside them kept with its text and terminator. -/
theorem hunks_change_only_matches {content result : Bytes} {hunks : List PatchHunk}
    (h : applyPatchHunks content hunks = .ok result) :
    ∃ es, HunksPlaced (splitPatchSourceLines content) 0 hunks es ∧
      (es.Pairwise fun a b => a.stop ≤ b.start) ∧
      (∀ e ∈ es, e.stop ≤ (splitPatchSourceLines content).length) ∧
      joinPatchSourceLines (splitPatchSourceLines content) = content ∧
      result = joinPatchSourceLines (apply (splitPatchSourceLines content) 0 es) := by
  obtain ⟨lines, hlines, he⟩ := of_bind h
  cases he
  obtain ⟨es, happ, rfl⟩ := applied_of_applyHunks [] (zero_le _) hlines
  obtain ⟨hwithin, hpair⟩ := happ.placed.ranges
  refine ⟨es, happ.placed, hpair, fun e he => (hwithin e he).2, ?_, rfl⟩
  exact join_splitLinesFrom [] content

/-- The second line of two, replaced. -/
theorem hunks_change_only_second_line :
    applyPatchHunks [97, 10, 98, 13, 10] [⟨[], [⟨.delete, [98]⟩, ⟨.add, [99]⟩], false⟩] =
      .ok [97, 10, 99, 10] ∧
    ∃ es, HunksPlaced (splitPatchSourceLines [97, 10, 98, 13, 10]) 0
        [⟨[], [⟨.delete, [98]⟩, ⟨.add, [99]⟩], false⟩] es ∧
      [97, 10, 99, 10] =
        joinPatchSourceLines (apply (splitPatchSourceLines [97, 10, 98, 13, 10]) 0 es) := by
  refine ⟨rfl, ?_⟩
  have h : applyPatchHunks [97, 10, 98, 13, 10]
      [⟨[], [⟨.delete, [98]⟩, ⟨.add, [99]⟩], false⟩] = .ok [97, 10, 99, 10] := rfl
  obtain ⟨es, hplaced, -, -, -, hresult⟩ := hunks_change_only_matches h
  exact ⟨es, hplaced, hresult⟩

end Peen.Tools
