import Peen.Lib.Splice
import Peen.Tools.EditText

/-!
# The diff of an edit

The tools report what they changed as a unified diff rendered from the replaced ranges: a window of
lines around each range in the old and in the new content, windows that touch folded into one hunk.
-/

namespace Peen.Tools

open List

/-! ## Lines -/

/-- `strings.Split` at newlines, with the bytes of the current line. -/
def splitNewlines : Bytes → Bytes → List Bytes
  | line, [] => [line]
  | line, b :: rest =>
    if b = newline then line :: splitNewlines [] rest else splitNewlines (line ++ [b]) rest

/-- `strings.TrimSuffix` of a newline. -/
def trimNewline (content : Bytes) : Bytes :=
  if content.getLast? = some newline then content.dropLast else content

def splitLines (content : Bytes) : List Bytes :=
  if content = [] then [] else splitNewlines [] (trimNewline content)

/-- `strings.Join` with newlines. -/
def joinNewlines (lines : List Bytes) : Bytes := intercalate [newline] lines

theorem joinNewlines_cons (h : lines ≠ []) :
    joinNewlines (line :: lines) = line ++ newline :: joinNewlines lines := by
  obtain ⟨next, rest, rfl⟩ := exists_cons_of_ne_nil h
  simp [joinNewlines, intercalate]

def lineOfOffset (content : Bytes) (offset : Nat) : Nat :=
  if offset ≤ 0 then 1
  else (content.take (if offset > content.length then content.length else offset)).count newline + 1

def endOffset (start stop : Nat) : Nat := if stop ≤ start then start else stop - 1

def clampLine (line total : Nat) : Nat :=
  if line < 1 then 1 else if total > 0 ∧ line > total then total else line

def sliceLines {α : Type} (lines : List α) (first last : Nat) : List α :=
  if lines = [] ∨ first > last then []
  else Splice.slice lines (clampLine first lines.length - 1) (clampLine last lines.length)

/-! ## Hunks -/

def diffContextLines : Nat := 3

/-- The windows of a hunk. Line numbers are natural: the source clamps them to one. -/
structure DiffHunk where
  oldStart : Nat
  oldEnd : Nat
  newStart : Nat
  newEnd : Nat
  deriving DecidableEq

def DiffHunk.oldCount (hunk : DiffHunk) : Nat := hunk.oldEnd - hunk.oldStart + 1

def DiffHunk.newCount (hunk : DiffHunk) : Nat := hunk.newEnd - hunk.newStart + 1

/-- The window of `spansToHunks` around one replacement. -/
def spanToHunk (old new : Bytes) (oldTotal newTotal : Nat) (item : Replacement) : DiffHunk :=
  let oldTail := endOffset item.oldStart item.oldEnd
  let newTail := endOffset item.newStart item.newEnd
  { oldStart := clampLine (lineOfOffset old item.oldStart - diffContextLines) oldTotal
    oldEnd := clampLine (lineOfOffset old oldTail + diffContextLines) oldTotal
    newStart := clampLine (lineOfOffset new item.newStart - diffContextLines) newTotal
    newEnd := clampLine (lineOfOffset new newTail + diffContextLines) newTotal }

def spansToHunks (replacements : List Replacement) (old new : Bytes) (oldLines newLines : List Bytes) :
    List DiffHunk :=
  replacements.map (spanToHunk old new oldLines.length newLines.length)

/-- The loop of `mergeHunks`, with the last hunk it has kept. -/
def mergeInto (last : DiffHunk) : List DiffHunk → List DiffHunk
  | [] => [last]
  | hunk :: hunks =>
    if hunk.oldStart > last.oldEnd + 1 ∧ hunk.newStart > last.newEnd + 1 then
      last :: mergeInto hunk hunks
    else
      mergeInto { last with
        oldEnd := max last.oldEnd hunk.oldEnd
        newEnd := max last.newEnd hunk.newEnd } hunks

/-- Windows that touch become one hunk. -/
def mergeHunks (hunks : List DiffHunk) (oldTotal newTotal : Nat) : List DiffHunk :=
  match hunks with
  | [] => []
  | hunk :: hunks => (mergeInto hunk hunks).map fun hunk =>
    { hunk with
      oldEnd := clampLine hunk.oldEnd oldTotal
      newEnd := clampLine hunk.newEnd newTotal }

/-! ## The text -/

def itoa (n : Nat) : Bytes := (Nat.toDigits 10 n).map fun c => UInt8.ofNat c.toNat

/-- The header `writeHunk` writes. -/
def hunkHeader (hunk : DiffHunk) : Bytes :=
  ascii "@@ -" ++ itoa hunk.oldStart ++ ascii "," ++ itoa hunk.oldCount ++ ascii " +" ++
    itoa hunk.newStart ++ ascii "," ++ itoa hunk.newCount ++ ascii " @@\n"

/-- The lines `writeHunk` writes with a mark in front. -/
def markedLines (mark : String) (lines : List Bytes) : Bytes :=
  lines.flatMap fun line => ascii mark ++ line ++ ascii "\n"

def writeHunk (hunk : DiffHunk) (oldLines newLines : List Bytes) : Bytes :=
  hunkHeader hunk ++ markedLines "-" (sliceLines oldLines hunk.oldStart hunk.oldEnd) ++
    markedLines "+" (sliceLines newLines hunk.newStart hunk.newEnd)

def lastIndexByte (b : UInt8) (s : Bytes) : Option Nat :=
  (s.reverse.findIdx? (· == b)).map fun i => s.length - 1 - i

def boundDiff (diff : Bytes) (maxBytes : Int) : Bytes × Bool :=
  if maxBytes ≤ 0 ∨ diff.length ≤ maxBytes then (diff, false)
  else
    let cut := maxBytes.toNat
    let cut :=
      match lastIndexByte newline (diff.take cut) with
      | some i => if i > 0 then i + 1 else cut
      | none => cut
    (diff.take cut ++ ascii "... diff truncated ...\n", true)

def diffHunks (old new : Bytes) (replacements : List Replacement) : List DiffHunk :=
  let oldLines := splitLines old
  let newLines := splitLines new
  mergeHunks (spansToHunks replacements old new oldLines newLines) oldLines.length newLines.length

/-- The diff before `unifiedDiff` bounds it. -/
def fullDiff (path old new : Bytes) (replacements : List Replacement) : Bytes :=
  ascii "--- " ++ path ++ ascii "\n" ++ ascii "+++ " ++ path ++ ascii "\n" ++
    (diffHunks old new replacements).flatMap fun hunk =>
      writeHunk hunk (splitLines old) (splitLines new)

def unifiedDiff (path old new : Bytes) (replacements : List Replacement) (maxBytes : Int) :
    Bytes × Bool :=
  if replacements = [] then ([], false) else boundDiff (fullDiff path old new replacements) maxBytes

/-- `strings.Replace` of the first occurrence of a text that is not empty. -/
def replaceFirst (s old new : Bytes) : Bytes :=
  match bytesIndex old s with
  | none => s
  | some i => s.take i ++ new ++ s.drop (i + old.length)

def completeFileDiff (oldPath newPath old new : Bytes) : Bytes :=
  let diff := (unifiedDiff oldPath old new [⟨0, old.length, 0, new.length⟩] 0).1
  if newPath = oldPath then diff
  else replaceFirst diff (ascii "+++ " ++ oldPath ++ ascii "\n")
    (ascii "+++ " ++ newPath ++ ascii "\n")

/-! ## Windows -/

/-- A window of lines: not empty, and inside the content if that has a line. -/
structure Window (total first last : Nat) : Prop where
  pos : 1 ≤ first
  le : first ≤ last
  within : 0 < total → last ≤ total

/-- Both windows lie in their contents. -/
structure DiffHunk.Windows (oldTotal newTotal : Nat) (hunk : DiffHunk) : Prop where
  old : Window oldTotal hunk.oldStart hunk.oldEnd
  new : Window newTotal hunk.newStart hunk.newEnd

section
variable {total first last line line' : Nat}

theorem clampLine_spec (line total : Nat) :
    1 ≤ clampLine line total ∧ (0 < total → clampLine line total ≤ total) := by
  rw [clampLine]
  split
  · omega
  · split <;> omega

theorem clampLine_mono (h : line ≤ line') : clampLine line total ≤ clampLine line' total := by
  rw [clampLine, clampLine]
  split
  · split
    · omega
    · split <;> omega
  · split
    · split
      · omega
      · split <;> omega
    · split
      · omega
      · split <;> omega

theorem clampLine_of_le (h : 1 ≤ line) (h' : 0 < total → line ≤ total) :
    clampLine line total = line := by
  rw [clampLine, if_neg (by omega), if_neg (by omega)]

theorem Window.clamp (h : Window total first last) : clampLine last total = last :=
  clampLine_of_le (h.pos.trans h.le) h.within

theorem lineOfOffset_eq (content : Bytes) (offset : Nat) :
    lineOfOffset content offset = (content.take offset).count newline + 1 := by
  rw [lineOfOffset]
  split
  · next h =>
    rw [Nat.le_zero.1 h]
    rfl
  · split
    · next h => rw [take_length, take_of_length_le h.le]
    · rfl

theorem lineOfOffset_mono (content : Bytes) {i j : Nat} (h : i ≤ j) :
    lineOfOffset content i ≤ lineOfOffset content j := by
  rw [lineOfOffset_eq, lineOfOffset_eq]
  exact Nat.succ_le_succ ((take_sublist_take_left h).count_le newline)

theorem le_endOffset (start stop : Nat) : start ≤ endOffset start stop := by
  rw [endOffset]
  split
  · exact le_rfl
  · omega

theorem window_span (content : Bytes) (total start stop : Nat) :
    Window total (clampLine (lineOfOffset content start - diffContextLines) total)
      (clampLine (lineOfOffset content (endOffset start stop) + diffContextLines) total) := by
  refine ⟨(clampLine_spec _ _).1, clampLine_mono ?_, (clampLine_spec _ _).2⟩
  have := lineOfOffset_mono content (le_endOffset start stop)
  omega

theorem sliceLines_eq {α : Type} {lines : List α} (h : Window lines.length first last)
    (hne : lines ≠ []) : sliceLines lines first last = Splice.slice lines (first - 1) last := by
  have hpos := length_pos_iff.2 hne
  have hle := h.le
  have hwithin := h.within hpos
  rw [sliceLines, if_neg (by simp [hne, hle]), h.clamp,
    clampLine_of_le h.pos fun _ => hle.trans hwithin]

theorem length_sliceLines_iff {α : Type} {lines : List α} (h : Window lines.length first last) :
    (sliceLines lines first last).length = last - first + 1 ↔ lines ≠ [] := by
  by_cases hne : lines = []
  · rw [sliceLines, if_pos (.inl hne)]
    exact iff_of_false (Nat.succ_ne_zero _).symm (not_not.2 hne)
  · have hwithin := h.within (length_pos_iff.2 hne)
    rw [sliceLines_eq h hne, Splice.length_slice hwithin]
    have hpos := h.pos
    have hle := h.le
    exact iff_of_true (by omega) hne

theorem mem_sliceLines_range {i : Nat} (h : Window total first last)
    (hi : i ∈ sliceLines (range' 1 total) first last) : first ≤ i ∧ i ≤ last := by
  by_cases hne : range' 1 total = []
  · rw [sliceLines, if_pos (.inl hne)] at hi
    cases hi
  · have hlen : (range' 1 total).length = total := length_range'
    rw [sliceLines_eq (hlen.symm ▸ h) hne, Splice.slice, mem_drop_iff_getElem] at hi
    obtain ⟨k, hk, rfl⟩ := hi
    rw [length_take] at hk
    simp only [getElem_take, getElem_range']
    omega

end

/-! ## Merging -/

section
variable {oldTotal newTotal : Nat} {last : DiffHunk}

theorem Window.max {total first first' last last' : Nat} (h : Window total first last)
    (h' : Window total first' last') : Window total first (max last last') := by
  refine ⟨h.pos, h.le.trans (le_max_left _ _), fun htot => ?_⟩
  exact max_le (h.within htot) (h'.within htot)

section
variable (hlast : last.Windows oldTotal newTotal)
include hlast

/-- Merging keeps windows: no hunk starts before the one it started from, and every hunk ends before
the next one starts, on both sides. -/
theorem windows_mergeInto (h : ∀ hunk ∈ hunks, hunk.Windows oldTotal newTotal) :
    (∀ hunk ∈ mergeInto last hunks, hunk.Windows oldTotal newTotal ∧
      last.oldStart ≤ hunk.oldStart ∧ last.newStart ≤ hunk.newStart) ∧
    (mergeInto last hunks).Pairwise fun a b =>
      a.oldEnd < b.oldStart ∧ a.newEnd < b.newStart := by
  induction hunks generalizing last with
  | nil =>
    refine ⟨fun hunk hmem => ?_, pairwise_singleton _ _⟩
    rw [mem_singleton.1 hmem]
    exact ⟨hlast, le_rfl, le_rfl⟩
  | cons hunk hunks ih =>
    obtain ⟨hhunk, hrest⟩ := forall_mem_cons.1 h
    rw [mergeInto]
    split
    next hgap =>
      obtain ⟨hsta, hapart⟩ := ih hhunk hrest
      have hold := hlast.old.le
      have hnew := hlast.new.le
      refine ⟨forall_mem_cons.2 ⟨⟨hlast, le_rfl, le_rfl⟩, fun hunk' hmem => ?_⟩,
        pairwise_cons.2 ⟨fun hunk' hmem => ?_, hapart⟩⟩
      · obtain ⟨hw, hle⟩ := hsta hunk' hmem
        exact ⟨hw, by omega⟩
      · have hle := (hsta hunk' hmem).2
        omega
    · exact ih ⟨hlast.old.max hhunk.old, hlast.new.max hhunk.new⟩ hrest

end

theorem mergeInto_ne_nil (last : DiffHunk) (hunks : List DiffHunk) : mergeInto last hunks ≠ [] := by
  induction hunks generalizing last with
  | nil => exact cons_ne_nil _ _
  | cons hunk hunks ih =>
    rw [mergeInto]
    split
    · exact cons_ne_nil _ _
    · exact ih _

theorem mergeHunks_cons (hlast : last.Windows oldTotal newTotal)
    (h : ∀ hunk ∈ hunks, hunk.Windows oldTotal newTotal) :
    mergeHunks (last :: hunks) oldTotal newTotal = mergeInto last hunks := by
  refine (map_congr_left fun hunk hmem => ?_).trans (map_id _)
  have hw := ((windows_mergeInto hlast h).1 hunk hmem).1
  rw [hw.old.clamp, hw.new.clamp]
  rfl

end

/-! ## The headers -/

section
theorem windows_span (old new : Bytes) (oldTotal newTotal : Nat) (item : Replacement) :
    (spanToHunk old new oldTotal newTotal item).Windows oldTotal newTotal :=
  ⟨window_span old _ _ _, window_span new _ _ _⟩

theorem diffHunks_cons (old new : Bytes) (item : Replacement) (replacements : List Replacement) :
    diffHunks old new (item :: replacements) =
      mergeInto (spanToHunk old new (splitLines old).length (splitLines new).length item)
        (spansToHunks replacements old new (splitLines old) (splitLines new)) := by
  refine mergeHunks_cons (windows_span _ _ _ _ _) fun hunk hmem => ?_
  obtain ⟨item', -, rfl⟩ := mem_map.1 hmem
  exact windows_span _ _ _ _ _

theorem windows_diffHunks (old new : Bytes) (replacements : List Replacement) :
    (∀ hunk ∈ diffHunks old new replacements,
      hunk.Windows (splitLines old).length (splitLines new).length) ∧
    (diffHunks old new replacements).Pairwise fun a b =>
      a.oldEnd < b.oldStart ∧ a.newEnd < b.newStart := by
  cases replacements with
  | nil => exact ⟨nofun, .nil⟩
  | cons item replacements =>
    have hrest : ∀ hunk ∈ spansToHunks replacements old new (splitLines old) (splitLines new),
        hunk.Windows (splitLines old).length (splitLines new).length := by
      intro hunk hmem
      obtain ⟨item', -, rfl⟩ := mem_map.1 hmem
      exact windows_span _ _ _ _ _
    rw [diffHunks_cons]
    obtain ⟨hw, hapart⟩ := windows_mergeInto (windows_span _ _ _ _ _) hrest
    exact ⟨fun hunk hmem => (hw hunk hmem).1, hapart⟩

theorem splitLines_ne_nil : splitLines content ≠ [] ↔ content ≠ [] := by
  rw [splitLines]
  split
  · next h => exact iff_of_false (fun hne => hne rfl) (not_not.2 h)
  · next h =>
    refine iff_of_true ?_ h
    generalize trimNewline content = s
    generalize ([] : Bytes) = line
    induction s generalizing line with
    | nil => exact cons_ne_nil _ _
    | cons b rest ih =>
      rw [splitNewlines]
      split
      · exact cons_ne_nil _ _
      · exact ih _

theorem newline_not_mem_splitNewlines (h : newline ∉ line) (hl : l ∈ splitNewlines line s) :
    newline ∉ l := by
  induction s generalizing line with
  | nil =>
    rw [mem_singleton.1 hl]
    exact h
  | cons b rest ih =>
    rw [splitNewlines] at hl
    split at hl
    · rcases mem_cons.1 hl with rfl | hl
      · exact h
      · exact ih not_mem_nil hl
    · next hb =>
      refine ih (fun hmem => ?_) hl
      rcases mem_append.1 hmem with hmem | hmem
      · exact h hmem
      · exact hb (mem_singleton.1 hmem).symm

theorem unifiedDiff_untruncated {maxBytes : Int}
    (h : (unifiedDiff path old new replacements maxBytes).2 = false) :
    (unifiedDiff path old new replacements maxBytes).1 =
      if replacements = [] then [] else fullDiff path old new replacements := by
  rw [unifiedDiff] at h ⊢
  split
  · rfl
  · next hne =>
    rw [if_neg hne, boundDiff] at h
    rw [boundDiff]
    split at h
    · next hfits => rw [if_pos hfits]
    · cases h

theorem disjoint_sliceLines {total first last first' last' : Nat} (h : Window total first last)
    (h' : Window total first' last') (hlt : last < first') :
    Disjoint (sliceLines (range' 1 total) first last)
      (sliceLines (range' 1 total) first' last') := by
  intro i hi hi'
  have hle := (mem_sliceLines_range h hi).2
  have hge := (mem_sliceLines_range h' hi').1
  omega

theorem counts_iff (old new : Bytes) (replacements : List Replacement) :
    (∀ hunk ∈ diffHunks old new replacements,
      (sliceLines (splitLines old) hunk.oldStart hunk.oldEnd).length = hunk.oldCount ∧
      (sliceLines (splitLines new) hunk.newStart hunk.newEnd).length = hunk.newCount) ↔
    replacements = [] ∨ old ≠ [] ∧ new ≠ [] := by
  have hwin := (windows_diffHunks old new replacements).1
  have hct : ∀ hunk ∈ diffHunks old new replacements,
      ((sliceLines (splitLines old) hunk.oldStart hunk.oldEnd).length = hunk.oldCount ∧
      (sliceLines (splitLines new) hunk.newStart hunk.newEnd).length = hunk.newCount ↔
      old ≠ [] ∧ new ≠ []) := by
    intro hunk hmem
    have hw := hwin hunk hmem
    rw [DiffHunk.oldCount, DiffHunk.newCount, length_sliceLines_iff hw.old,
      length_sliceLines_iff hw.new, splitLines_ne_nil, splitLines_ne_nil]
  rw [forall₂_congr hct]
  cases replacements with
  | nil => exact iff_of_true nofun (.inl rfl)
  | cons item replacements =>
    rw [diffHunks_cons] at *
    obtain ⟨hunk, hmem⟩ := exists_mem_of_ne_nil _ (mergeInto_ne_nil
      (spanToHunk old new (splitLines old).length (splitLines new).length item)
      (spansToHunks replacements old new (splitLines old) (splitLines new)))
    refine ⟨fun h => .inr (h hunk hmem), fun h _ _ => ?_⟩
    exact h.resolve_left (cons_ne_nil _ _)

end

/-- **Diff headers count their lines exactly if no content is empty.** A diff that was not cut off is
its hunks, each a header and the lines of its two windows. The counts of the headers are those of
the lines exactly if there is no replacement or both contents are not empty; no line of either
content is printed in two hunks. -/
theorem diff_headers_count_iff {path old new : Bytes} {replacements : List Replacement}
    {maxBytes : Int} (h : (unifiedDiff path old new replacements maxBytes).2 = false) :
    (unifiedDiff path old new replacements maxBytes).1 =
      (if replacements = [] then [] else fullDiff path old new replacements) ∧
    (∀ line ∈ splitLines old ++ splitLines new, newline ∉ line) ∧
    ((∀ hunk ∈ diffHunks old new replacements,
        (sliceLines (splitLines old) hunk.oldStart hunk.oldEnd).length = hunk.oldCount ∧
        (sliceLines (splitLines new) hunk.newStart hunk.newEnd).length = hunk.newCount) ↔
      replacements = [] ∨ old ≠ [] ∧ new ≠ []) ∧
    (diffHunks old new replacements).Pairwise fun a b =>
      Disjoint (sliceLines (range' 1 (splitLines old).length) a.oldStart a.oldEnd)
        (sliceLines (range' 1 (splitLines old).length) b.oldStart b.oldEnd) ∧
      Disjoint (sliceLines (range' 1 (splitLines new).length) a.newStart a.newEnd)
        (sliceLines (range' 1 (splitLines new).length) b.newStart b.newEnd) := by
  obtain ⟨hwindows, hapart⟩ := windows_diffHunks old new replacements
  have hlines : ∀ content : Bytes, ∀ line ∈ splitLines content, newline ∉ line := by
    intro content line hmem
    rw [splitLines] at hmem
    split at hmem
    · cases hmem
    · exact newline_not_mem_splitNewlines not_mem_nil hmem
  refine ⟨unifiedDiff_untruncated h, ?_, counts_iff old new replacements, ?_⟩
  · exact forall_mem_append.2 ⟨hlines old, hlines new⟩
  · refine hapart.imp_of_mem fun ha hb hab => ⟨?_, ?_⟩
    · exact disjoint_sliceLines (hwindows _ ha).old (hwindows _ hb).old hab.1
    · exact disjoint_sliceLines (hwindows _ ha).new (hwindows _ hb).new hab.2

/-- One line replaced by another. -/
theorem diff_headers_count_line :
    (unifiedDiff [102] [97, 10] [98, 10] [⟨0, 1, 0, 1⟩] 0).2 = false ∧
    (unifiedDiff [102] [97, 10] [98, 10] [⟨0, 1, 0, 1⟩] 0).1 =
      fullDiff [102] [97, 10] [98, 10] [⟨0, 1, 0, 1⟩] := by
  have h : (unifiedDiff [102] [97, 10] [98, 10] [⟨0, 1, 0, 1⟩] 0).2 = false := rfl
  exact ⟨h, (diff_headers_count_iff h).1⟩

/-- The diff of an added file says that four lines were removed, and shows none. -/
theorem added_file_header_wrong :
    completeFileDiff [102] [102] [] [97, 10] =
      ascii "--- f\n+++ f\n@@ -1,4 +1,1 @@\n+a\n" ∧
    diffHunks [] [97, 10] [⟨0, 0, 0, 2⟩] = [⟨1, 4, 1, 1⟩] ∧
    sliceLines (splitLines []) 1 4 = [] := by
  refine ⟨by decide +kernel, by decide, rfl⟩

end Peen.Tools
