import Peen.Tools.Diff
import Peen.Tools.EditOrder

/-!
# What the diff of an edit says

A reader of a diff takes the old lines and puts, for every hunk, its added lines in the place of the
range its header names.
-/

namespace Peen.Tools

open Splice List Nat

/-! ## Reading with jumps -/

section
variable {α : Type} {xs : List α} {s m d d' : Nat} {js : List (Nat × Nat)}

/-- A list read from a position on, where reading jumps from one position to another. -/
def readWithJumps (xs : List α) : Nat → List (Nat × Nat) → List α
  | s, [] => xs.drop s
  | s, (d, d') :: js => slice xs s d ++ readWithJumps xs d' js

/-- Every jump is taken behind the position reading goes on from. -/
def JumpsOk (total : Nat) : Nat → List (Nat × Nat) → Prop
  | _, [] => True
  | s, (d, d') :: js => s < d ∧ d ≤ total ∧ d' ≤ total ∧ JumpsOk total d' js

theorem slice_append_readWithJumps (hs : s ≤ m) (hm : m ≤ d) :
    slice xs s m ++ readWithJumps xs m ((d, d') :: js) = readWithJumps xs s ((d, d') :: js) := by
  rw [readWithJumps, readWithJumps, ← append_assoc, slice_append_slice hs hm]

theorem readWithJumps_trivial (hok : JumpsOk xs.length s js) (h : ∀ j ∈ js, j.1 = j.2) :
    readWithJumps xs s js = xs.drop s := by
  induction js generalizing s with
  | nil => rfl
  | cons j js ih =>
    obtain ⟨d, d'⟩ := j
    obtain ⟨heq, hrest⟩ := forall_mem_cons.1 h
    obtain rfl : d = d' := heq
    rw [readWithJumps, ih hok.2.2.2 hrest, slice_append_drop hok.1.le]

theorem trivial_of_readWithJumps (hn : xs.Nodup) (hok : JumpsOk xs.length s js)
    (h : readWithJumps xs s js = xs.drop s) : ∀ j ∈ js, j.1 = j.2 := by
  induction js generalizing s with
  | nil => exact nofun
  | cons j js ih =>
    obtain ⟨d, d'⟩ := j
    obtain ⟨hlt, hd, hd', hrest⟩ := hok
    rw [readWithJumps, ← slice_append_drop hlt.le] at h
    have hnext : readWithJumps xs d' js = xs.drop d := append_cancel_left h
    -- what is read after the jump begins with the element it leads to
    have hhead : (readWithJumps xs d' js).head? = xs[d']? := by
      cases js with
      | nil => exact head?_drop
      | cons j js =>
        obtain ⟨e, e'⟩ := j
        have hlen : 0 < (slice xs d' e).length := by
          rw [length_slice hrest.2.1]
          have := hrest.1
          omega
        rw [readWithJumps, head?_append_of_ne_nil _ (length_pos_iff.1 hlen),
          slice_eq_take_drop, head?_take, if_neg (by have := hrest.1; omega), head?_drop]
    have heq : d = d' := by
      rw [hnext, head?_drop] at hhead
      by_cases hdl : d < xs.length
      · exact (getElem?_inj hdl hn).1 hhead
      · rw [getElem?_eq_none (not_lt.1 hdl)] at hhead
        have := getElem?_eq_none_iff.1 hhead.symm
        omega
    subst heq
    exact forall_mem_cons.2 ⟨rfl, ih hrest hnext⟩

end

/-! ## Lines and offsets -/

section
variable {s k : Bytes} {i j : Nat}

theorem splitNewlines_cut (line p : Bytes) : ∃ init last, init.length = p.count newline ∧
    ∀ x, splitNewlines line (p ++ x) = init ++ splitNewlines last x := by
  induction p generalizing line with
  | nil => exact ⟨[], line, rfl, fun x => rfl⟩
  | cons b p ih =>
    by_cases hb : b = newline
    · obtain ⟨init, last, hlen, hcut⟩ := ih []
      refine ⟨line :: init, last, ?_, fun x => ?_⟩
      · rw [hb, count_cons_self, length_cons, hlen]
      · rw [cons_append, splitNewlines, if_pos hb, hcut]
        rfl
    · obtain ⟨init, last, hlen, hcut⟩ := ih (line ++ [b])
      refine ⟨init, last, ?_, fun x => ?_⟩
      · rw [hlen, count_cons_of_ne hb]
      · rw [cons_append, splitNewlines, if_neg hb, hcut]

theorem tail_splitNewlines (line line' x : Bytes) :
    (splitNewlines line x).tail = (splitNewlines line' x).tail := by
  induction x generalizing line line' with
  | nil => rfl
  | cons b x ih =>
    rw [splitNewlines, splitNewlines]
    split
    · rfl
    · exact ih _ _

theorem drop_splitNewlines (p x : Bytes) (a : Nat) :
    (splitNewlines [] (p ++ x)).drop (p.count newline + 1 + a) =
      (splitNewlines [] x).tail.drop a := by
  obtain ⟨init, last, hlen, hcut⟩ := splitNewlines_cut [] p
  rw [hcut, add_assoc, ← hlen, drop_length_add_append, ← drop_drop, drop_one,
    tail_splitNewlines last []]

theorem take_splitNewlines (p x y : Bytes) {m : Nat} (hm : m ≤ p.count newline) :
    (splitNewlines [] (p ++ x)).take m = (splitNewlines [] (p ++ y)).take m := by
  obtain ⟨init, last, hlen, hcut⟩ := splitNewlines_cut [] p
  rw [hcut, hcut, take_append_of_le_length (hlen ▸ hm), take_append_of_le_length (hlen ▸ hm)]

theorem length_splitNewlines (line s : Bytes) :
    (splitNewlines line s).length = s.count newline + 1 := by
  obtain ⟨init, last, hlen, hcut⟩ := splitNewlines_cut line s
  have := hcut []
  rw [append_nil] at this
  rw [this, length_append, hlen]
  rfl

/-- One if the stretch ends with a newline, and zero otherwise. -/
def endsLine (s : Bytes) (start stop : Nat) : Nat :=
  if (slice s start stop).getLast? = some newline then 1 else 0

theorem splitLines_eq_take (hs : s ≠ []) :
    splitLines s = (splitNewlines [] s).take (splitLines s).length ∧
      (splitLines s).length + endsLine s 0 s.length = s.count newline + 1 := by
  rw [splitLines, if_neg hs, endsLine, slice_all, trimNewline]
  by_cases hlast : s.getLast? = some newline
  · rw [if_pos hlast, if_pos hlast]
    obtain ⟨init, rfl⟩ := getLast?_eq_some_iff.1 hlast
    obtain ⟨lines, last, hlen, hcut⟩ := splitNewlines_cut [] init
    have hinit := hcut []
    rw [append_nil] at hinit
    rw [dropLast_concat, hcut, hinit]
    refine ⟨?_, ?_⟩
    · have htwo : splitNewlines last [newline] = [last] ++ [[]] := rfl
      rw [htwo, ← append_assoc]
      exact take_left.symm
    · simp [splitNewlines, hlen]
  · rw [if_neg hlast, if_neg hlast, length_splitNewlines]
    exact ⟨by rw [← length_splitNewlines [] s, take_length], rfl⟩

theorem slice_splitLines (hs : s ≠ []) (hj : j ≤ (splitLines s).length) :
    slice (splitLines s) i j = slice (splitNewlines [] s) i j := by
  rw [(splitLines_eq_take hs).1, slice, take_take, min_eq_left hj, slice]

theorem lineOfOffset_slice (hij : i ≤ j) :
    lineOfOffset s j = lineOfOffset s i + (slice s i j).count newline := by
  have hcut : s.take i ++ slice s i j = s.take j := slice_append_slice (zero_le i) hij
  rw [lineOfOffset_eq, lineOfOffset_eq, ← hcut, count_append]
  omega

theorem lineOfOffset_endOffset (hij : i ≤ j) (hj : j ≤ s.length) :
    lineOfOffset s (endOffset i j) + endsLine s i j = lineOfOffset s j := by
  rw [endOffset]
  split
  · next hle =>
    obtain rfl : i = j := le_antisymm hij hle
    rw [endsLine, slice_eq_take_drop, Nat.sub_self]
    rfl
  · next hlt =>
    obtain ⟨m, rfl⟩ : ∃ m, j = m + 1 := ⟨j - 1, by omega⟩
    have hone : slice s m (m + 1) = [s.get ⟨m, hj⟩] := by
      rw [slice_eq_take_drop, Nat.add_sub_cancel_left, drop_eq_getElem_cons hj]
      rfl
    have hspl : slice s i (m + 1) = slice s i m ++ [s.get ⟨m, hj⟩] := by
      have him : i ≤ m := by omega
      rw [← hone, slice_append_slice him (Nat.le_succ m)]
    rw [Nat.add_sub_cancel, lineOfOffset_slice (Nat.le_succ m), hone, endsLine, hspl,
      getLast?_concat]
    by_cases hb : s.get ⟨m, hj⟩ = newline
    · rw [hb, if_pos rfl, count_singleton_self]
    · rw [if_neg (fun he => hb (Option.some.inj he)), count_eq_zero_of_not_mem]
      exact fun hmem => hb (mem_singleton.1 hmem).symm

theorem endsLine_le (s : Bytes) (i j : Nat) : endsLine s i j ≤ 1 := by
  rw [endsLine]
  split
  · exact le_rfl
  · exact zero_le 1

theorem lineOfOffset_le (hs : s ≠ []) (i : Nat) : lineOfOffset s i ≤ (splitLines s).length + 1 := by
  have hends := endsLine_le s 0 s.length
  have htot := (splitLines_eq_take hs).2
  have hct := (take_sublist i s).count_le newline
  rw [lineOfOffset_eq]
  omega

end

/-! ## Lines two texts share -/

section
variable {i i' j j' : Nat}

theorem slice_kept (hold : old ≠ []) (hnew : new ≠ []) (hi : i ≤ i') (hj : j ≤ j')
    (hkept : slice old i i' = slice new j j') (a : Nat) {b : Nat}
    (hb : b + 1 ≤ (slice old i i').count newline) :
    slice (splitLines old) (lineOfOffset old i + a) (lineOfOffset old i + b) =
      slice (splitLines new) (lineOfOffset new j + a) (lineOfOffset new j + b) := by
  -- both sides are the same lines of the stretch
  have hln : ∀ {s : Bytes} {m m' : Nat}, s ≠ [] → m ≤ m' → slice s m m' = slice old i i' →
      slice (splitLines s) (lineOfOffset s m + a) (lineOfOffset s m + b) =
        ((splitNewlines [] (slice old i i')).take (b + 1)).drop (1 + a) := by
    intro s m m' hs hm hslice
    have hbd := lineOfOffset_le hs m'
    rw [lineOfOffset_slice hm, hslice] at hbd
    rw [slice_splitLines hs (by omega), slice_eq_take_drop, Nat.add_sub_add_left]
    have hcut : s = s.take m ++ (slice old i i' ++ s.drop m') := by
      rw [← hslice, slice_append_drop hm, take_append_drop]
    have hdrop := drop_splitNewlines (s.take m) (slice old i i' ++ s.drop m') a
    rw [← hcut, ← lineOfOffset_eq] at hdrop
    have htake := take_splitNewlines (slice old i i') (s.drop m') [] hb
    rw [append_nil] at htake
    rw [hdrop, ← htake, drop_take, ← drop_one, drop_drop]
    congr 1
    omega
  rw [hln hold hi rfl, hln hnew hj hkept.symm]

theorem slice_front (hold : old ≠ []) (hnew : new ≠ []) (hfst : old.take i = new.take j)
    {m : Nat} (hm : m < lineOfOffset old i) :
    slice (splitLines old) 0 m = slice (splitLines new) 0 m := by
  have hm' : m < lineOfOffset new j := by rwa [lineOfOffset_eq, ← hfst, ← lineOfOffset_eq]
  have hle := lineOfOffset_le hold i
  have hle' := lineOfOffset_le hnew j
  rw [slice_splitLines hold (by omega), slice_splitLines hnew (by omega)]
  rw [lineOfOffset_eq] at hm
  have htake := take_splitNewlines (old.take i) (old.drop i) (new.drop j) (Nat.lt_succ_iff.1 hm)
  rw [take_append_drop, hfst, take_append_drop] at htake
  exact htake

theorem drop_back (hold : old ≠ []) (hnew : new ≠ []) (hi : i ≤ old.length) (hj : j ≤ new.length)
    (hkept : old.drop i = new.drop j) (a : Nat) :
    (splitLines old).drop (lineOfOffset old i + a) =
      (splitLines new).drop (lineOfOffset new j + a) := by
  by_cases hnil : old.drop i = []
  · have hend : ∀ {s : Bytes} {m : Nat}, s ≠ [] → m ≤ s.length → s.drop m = [] →
        (splitLines s).drop (lineOfOffset s m + a) = [] := by
      intro s m hs hm hdrop
      obtain rfl : m = s.length := le_antisymm hm (drop_eq_nil_iff.1 hdrop)
      have htot := (splitLines_eq_take hs).2
      refine drop_of_length_le ?_
      rw [lineOfOffset_eq, take_length]
      omega
    rw [hend hold hi hnil, hend hnew hj (hkept ▸ hnil)]
  · -- as many lines follow on both sides, and they are those of the rest
    have hrest : ∀ {s : Bytes} {m : Nat}, s ≠ [] → s.drop m = old.drop i →
        (splitLines s).drop (lineOfOffset s m + a) =
          ((splitNewlines [] (old.drop i)).tail.drop a).take ((old.drop i).count newline -
            (endsLine (old.drop i) 0 (old.drop i).length + a)) := by
      intro s m hs hdrop
      obtain ⟨hln, htot⟩ := splitLines_eq_take hs
      have hcut : s.take m ++ old.drop i = s := by rw [← hdrop, take_append_drop]
      have hends : endsLine s 0 s.length = endsLine (old.drop i) 0 (old.drop i).length := by
        have hlast : s.getLast? = (old.drop i).getLast? := by
          conv_lhs => rw [← hcut]
          exact getLast?_append_of_ne_nil _ hnil
        rw [endsLine, endsLine, slice_all, slice_all, hlast]
      have hct : s.count newline = (s.take m).count newline + (old.drop i).count newline := by
        rw [← count_append, hcut]
      have hdropped := drop_splitNewlines (s.take m) (old.drop i) a
      rw [hcut, ← lineOfOffset_eq] at hdropped
      rw [hln, drop_take, hdropped]
      congr 1
      rw [lineOfOffset_eq]
      omega
    rw [hrest hold rfl, hrest hnew hkept.symm]

end

/-! ## Where windows end -/

section
variable {i j : Nat}

theorem splitLines_pos (hs : s ≠ []) : 0 < (splitLines s).length :=
  length_pos_iff.2 (splitLines_ne_nil.2 hs)

theorem clampLine_eq {line total : Nat} (h : 0 < total) :
    clampLine line total = max 1 (min line total) := by
  rw [clampLine]
  split
  · omega
  · split <;> omega

theorem windowStart_eq (hs : s ≠ []) (i : Nat) :
    clampLine (lineOfOffset s i - diffContextLines) (splitLines s).length =
      max 1 (lineOfOffset s i - 3) := by
  have hle := lineOfOffset_le hs i
  rw [clampLine_eq (splitLines_pos hs), diffContextLines]
  omega

theorem windowEnd_eq (hs : s ≠ []) (hij : i ≤ j) (hj : j ≤ s.length) :
    clampLine (lineOfOffset s (endOffset i j) + diffContextLines) (splitLines s).length =
      min (lineOfOffset s j + 3 - endsLine s i j) (splitLines s).length := by
  have hline := lineOfOffset_endOffset hij hj
  have hpos := splitLines_pos hs
  rw [clampLine_eq hpos, diffContextLines]
  omega

end

/-- The ranges lie in their contents. -/
structure Replacement.Within (old new : Bytes) (r : Replacement) : Prop where
  oldRange : r.oldStart ≤ r.oldEnd
  oldEnd : r.oldEnd ≤ old.length
  newRange : r.newStart ≤ r.newEnd
  newEnd : r.newEnd ≤ new.length

/-- A replacement and the next one, with the same text between them in both contents. -/
structure Replacement.Next (r : Replacement) (old new : Bytes) (r' : Replacement) : Prop where
  within : r.Within old new
  oldLe : r.oldEnd ≤ r'.oldStart
  newLe : r.newEnd ≤ r'.newStart
  kept : slice old r.oldEnd r'.oldStart = slice new r.newEnd r'.newStart

/-- The windows of two replacements with that text between them touch. -/
def touches (old new : Bytes) (r r' : Replacement) : Bool :=
  decide ((slice old r.oldEnd r'.oldStart).count newline +
    min (endsLine old r.oldStart r.oldEnd) (endsLine new r.newStart r.newEnd) ≤
      2 * diffContextLines + 1)

/-- Where a reader of the diff goes on after a replacement whose window is the last of its hunk: the
line the hunk's window of the new content ends with, and the line its window of the old content
ends with, as a line of the new content. -/
def jumpAfter (old new : Bytes) (r : Replacement) : Nat × Nat :=
  let total := (splitLines new).length
  let line := lineOfOffset new r.newEnd + diffContextLines
  (min (line - endsLine new r.newStart r.newEnd) total,
    min (line - endsLine old r.oldStart r.oldEnd) total)

/-- The jumps of a reader, one for every replacement that does not touch the next. -/
def diffJumps (old new : Bytes) : List Replacement → List (Nat × Nat)
  | [] => []
  | [r] => [jumpAfter old new r]
  | r :: r' :: rs =>
    if touches old new r r' then diffJumps old new (r' :: rs)
    else jumpAfter old new r :: diffJumps old new (r' :: rs)

/-- What a hunk says: the range of its header, and its added lines. -/
def hunkEdit (newLines : List Bytes) (hunk : DiffHunk) : Edit Bytes :=
  ⟨hunk.oldStart - 1, hunk.oldCount, sliceLines newLines hunk.newStart hunk.newEnd⟩

/-- The old lines with the range of every hunk replaced by the hunk's added lines. -/
def patchedLines (old new : Bytes) (replacements : List Replacement) : List Bytes :=
  apply (splitLines old) 0 ((diffHunks old new replacements).map (hunkEdit (splitLines new)))

/-! ## Reading the hunks -/

theorem Substituted.le {i j : Nat} (h : Substituted content rewritten i j ms rs) :
    i ≤ content.length ∧ j ≤ rewritten.length := by
  induction h with
  | done hi hj _ => exact ⟨hi, hj⟩
  | edit _ _ hoa hor hna hnr _ _ _ ih => exact ⟨by omega, by omega⟩

section
variable {old new : Bytes} {r r' : Replacement}

/-- The window of a replacement in contents that are not empty. -/
abbrev windowOf (old new : Bytes) (r : Replacement) : DiffHunk :=
  spanToHunk old new (splitLines old).length (splitLines new).length r

theorem Replacement.Next.lines (h : r.Next old new r') (hold : old ≠ []) (hnew : new ≠ []) :
    let k := (slice old r.oldEnd r'.oldStart).count newline
    (windowOf old new r').oldStart = max 1 (lineOfOffset old r.oldEnd + k - 3) ∧
    (windowOf old new r').newStart = max 1 (lineOfOffset new r.newEnd + k - 3) ∧
    lineOfOffset old r.oldEnd + k ≤ (splitLines old).length + 1 ∧
    lineOfOffset new r.newEnd + k ≤ (splitLines new).length + 1 := by
  have hline : lineOfOffset old r'.oldStart = _ := lineOfOffset_slice h.oldLe
  have hline' : lineOfOffset new r'.newStart = _ := lineOfOffset_slice h.newLe
  rw [← h.kept] at hline'
  have hle := lineOfOffset_le hold r'.oldStart
  have hle' := lineOfOffset_le hnew r'.newStart
  refine ⟨?_, ?_, by omega, by omega⟩
  · rw [← hline]
    exact windowStart_eq hold _
  · rw [← hline']
    exact windowStart_eq hnew _

theorem ends_of_within (hold : old ≠ []) (hnew : new ≠ []) (hr : r.Within old new) :
    (windowOf old new r).oldEnd = min (lineOfOffset old r.oldEnd + 3 -
      endsLine old r.oldStart r.oldEnd) (splitLines old).length ∧
    (windowOf old new r).newEnd = (jumpAfter old new r).1 :=
  ⟨windowEnd_eq hold hr.oldRange hr.oldEnd, windowEnd_eq hnew hr.newRange hr.newEnd⟩

theorem apart_iff (h : r.Next old new r') (hold : old ≠ []) (hnew : new ≠ []) :
    ((windowOf old new r').oldStart > (windowOf old new r).oldEnd + 1 ∧
      (windowOf old new r').newStart > (windowOf old new r).newEnd + 1) ↔
    touches old new r r' = false := by
  obtain ⟨hsta, hsta', hbd, hbd'⟩ := h.lines hold hnew
  obtain ⟨hend, hend'⟩ := ends_of_within hold hnew h.within
  have he := endsLine_le old r.oldStart r.oldEnd
  rw [hsta, hsta', hend, hend', jumpAfter, touches, decide_eq_false_iff_not, diffContextLines]
  omega

theorem ends_mono (h : r.Next old new r') :
    (windowOf old new r).oldEnd ≤ (windowOf old new r').oldEnd ∧
      (windowOf old new r).newEnd ≤ (windowOf old new r').newEnd := by
  have htail : ∀ {i j i' j' : Nat}, i ≤ j → j ≤ i' → endOffset i j ≤ endOffset i' j' := by
    intro i j i' j' hij hji
    have hle := le_endOffset i' j'
    have hle' : endOffset i j ≤ j := by
      rw [endOffset]
      split
      · exact hij
      · exact Nat.sub_le j 1
    omega
  unfold windowOf spanToHunk
  dsimp only
  refine ⟨clampLine_mono ?_, clampLine_mono ?_⟩
  · exact Nat.add_le_add_right (lineOfOffset_mono _ (htail h.within.oldRange h.oldLe)) _
  · exact Nat.add_le_add_right (lineOfOffset_mono _ (htail h.within.newRange h.newLe)) _

theorem drop_min_length {α : Type} (xs : List α) (n : Nat) :
    xs.drop (min n xs.length) = xs.drop n := by
  rcases le_total n xs.length with h | h
  · rw [min_eq_left h]
  · rw [min_eq_right h, drop_length, drop_of_length_le h]

theorem hunkEdit_eq {hunk : DiffHunk} (hnew : new ≠ [])
    (h : hunk.Windows (splitLines old).length (splitLines new).length) :
    (hunkEdit (splitLines new) hunk).stop = hunk.oldEnd ∧
      (hunkEdit (splitLines new) hunk).new =
        slice (splitLines new) (hunk.newStart - 1) hunk.newEnd := by
  refine ⟨?_, sliceLines_eq h.new (splitLines_ne_nil.2 hnew)⟩
  have hpos := h.old.pos
  have hle := h.old.le
  show hunk.oldStart - 1 + (hunk.oldEnd - hunk.oldStart + 1) = hunk.oldEnd
  omega

/-- A hunk ends where its last replacement's window does. -/
structure EndsWith (old new : Bytes) (r : Replacement) (hunk : DiffHunk) : Prop where
  windows : hunk.Windows (splitLines old).length (splitLines new).length
  oldEnd : hunk.oldEnd = (windowOf old new r).oldEnd
  newEnd : hunk.newEnd = (windowOf old new r).newEnd

theorem endsWith_windowOf (old new : Bytes) (r : Replacement) :
    EndsWith old new r (windowOf old new r) :=
  ⟨windows_span _ _ _ _ _, rfl, rfl⟩

theorem EndsWith.merge (h : EndsWith old new r last) (hnext : r.Next old new r') :
    EndsWith old new r' { last with
      oldEnd := max last.oldEnd (windowOf old new r').oldEnd
      newEnd := max last.newEnd (windowOf old new r').newEnd } := by
  have hw := windows_span old new (splitLines old).length (splitLines new).length r'
  obtain ⟨hle, hle'⟩ := ends_mono hnext
  refine ⟨⟨h.windows.old.max hw.old, h.windows.new.max hw.new⟩, ?_, ?_⟩
  · rw [h.oldEnd, max_eq_right hle]
  · rw [h.newEnd, max_eq_right hle']

theorem EndsWith.start_lt (h : EndsWith old new r last) (hold : old ≠ []) (hnew : new ≠ [])
    (hr : r.Within old new) : last.newStart - 1 < (jumpAfter old new r).1 := by
  rw [← (ends_of_within hold hnew hr).2, ← h.newEnd]
  have hpos := h.windows.new.pos
  have hle := h.windows.new.le
  omega

/-- The lines between two hunks, as the reader takes them from the old content, are those from the
target of the jump on in the new one. -/
theorem slice_between (h : r.Next old new r') (hold : old ≠ []) (hnew : new ≠ [])
    (htouch : touches old new r r' = false) :
    (jumpAfter old new r).2 < (windowOf old new r').newStart - 1 ∧
    slice (splitLines old) (windowOf old new r).oldEnd ((windowOf old new r').oldStart - 1) =
      slice (splitLines new) (jumpAfter old new r).2 ((windowOf old new r').newStart - 1) := by
  obtain ⟨hsta, hsta', hbd, hbd'⟩ := h.lines hold hnew
  have he := endsLine_le old r.oldStart r.oldEnd
  rw [touches, decide_eq_false_iff_not, diffContextLines] at htouch
  generalize hct : (slice old r.oldEnd r'.oldStart).count newline = k at *
  have hln := slice_kept hold hnew h.oldLe h.newLe h.kept (3 - endsLine old r.oldStart r.oldEnd)
    (show k - 4 + 1 ≤ _ by omega)
  have hfrom : min (lineOfOffset old r.oldEnd + 3 - endsLine old r.oldStart r.oldEnd)
      (splitLines old).length = lineOfOffset old r.oldEnd +
        (3 - endsLine old r.oldStart r.oldEnd) := by omega
  have hfrom' : min (lineOfOffset new r.newEnd + 3 - endsLine old r.oldStart r.oldEnd)
      (splitLines new).length = lineOfOffset new r.newEnd +
        (3 - endsLine old r.oldStart r.oldEnd) := by omega
  have hto : ∀ line : Nat, max 1 (line + k - 3) - 1 = line + (k - 4) := fun line => by omega
  rw [(ends_of_within hold hnew h.within).1, hsta, hsta', jumpAfter, diffContextLines]
  rw [hfrom, hfrom', hto, hto]
  exact ⟨by omega, hln⟩

/-- The hunks from one on that ends with the window of `r`: what a reader gets, from that hunk's
start on, is the new content read with jumps. -/
theorem read_mergeInto (hold : old ≠ []) (hnew : new ≠ []) {s : Nat} (hr : r.Within old new)
    (hlast : EndsWith old new r last) (hrest : Substituted old new r.oldEnd r.newEnd ms rs) :
    apply (splitLines old) s ((mergeInto last (rs.map (windowOf old new))).map
        (hunkEdit (splitLines new))) =
      slice (splitLines old) s (last.oldStart - 1) ++
        readWithJumps (splitLines new) (last.newStart - 1) (diffJumps old new (r :: rs)) ∧
    JumpsOk (splitLines new).length (last.newStart - 1) (diffJumps old new (r :: rs)) ∧
    diffJumps old new (r :: rs) ≠ [] := by
  induction rs generalizing r ms last s with
  | nil =>
    cases hrest with
    | done hi hj hkept =>
      obtain ⟨hoe, hne⟩ := ends_of_within hold hnew hr
      obtain ⟨hstop, hln⟩ := hunkEdit_eq hnew hlast.windows
      refine ⟨?_, ⟨hlast.start_lt hold hnew hr, Nat.min_le_right _ _, Nat.min_le_right _ _,
        trivial⟩, cons_ne_nil _ _⟩
      have he := endsLine_le old r.oldStart r.oldEnd
      have hback := drop_back hold hnew hi hj hkept (3 - endsLine old r.oldStart r.oldEnd)
      rw [← Nat.add_sub_assoc (by omega), ← Nat.add_sub_assoc (by omega)] at hback
      rw [map_nil, mergeInto, map_singleton, apply, apply, hstop, hln, hlast.oldEnd,
        hlast.newEnd, hoe, hne, drop_min_length, append_assoc, hback,
        ← drop_min_length (splitLines new)]
      rfl
  | cons r' rs ih =>
    cases hrest with
    | edit hsta hstopm hoa hor hna hnr hkept htext hrest =>
      obtain ⟨hle, hle'⟩ := hrest.le
      have hr' : r'.Within old new := ⟨hor, hle, hnr, hle'⟩
      have hnext : r.Next old new r' := ⟨hr, hoa, hna, hkept⟩
      have hiff := apart_iff hnext hold hnew
      rw [← hlast.oldEnd, ← hlast.newEnd] at hiff
      rw [map_cons, mergeInto, diffJumps]
      by_cases htouch : touches old new r r' = true
      · -- one hunk goes on
        rw [if_neg (fun h => by rw [hiff.1 h] at htouch; cases htouch), if_pos htouch]
        exact ih hr' (hlast.merge hnext) hrest
      · -- the reader takes the lines up to the next hunk from the old content
        rw [Bool.not_eq_true] at htouch
        rw [if_pos (hiff.2 htouch), htouch, if_neg (by decide)]
        obtain ⟨hread, hok, hne⟩ := ih (s := last.oldEnd) hr' (endsWith_windowOf old new r') hrest
        obtain ⟨hlt, hbetween⟩ := slice_between hnext hold hnew htouch
        obtain ⟨⟨d, d'⟩, js, hjs⟩ := exists_cons_of_ne_nil hne
        rw [hjs] at hread hok ⊢
        obtain ⟨hstop, hln⟩ := hunkEdit_eq hnew hlast.windows
        refine ⟨?_, ⟨hlast.start_lt hold hnew hr, Nat.min_le_right _ _, Nat.min_le_right _ _,
          hlt.trans hok.1, hok.2⟩, cons_ne_nil _ _⟩
        rw [map_cons, apply, hstop, hln, hread, hlast.oldEnd, hbetween,
          slice_append_readWithJumps hlt.le hok.1.le, hlast.newEnd,
          (ends_of_within hold hnew hr).2, append_assoc]
        rfl

theorem patched_eq (hold : old ≠ []) (hnew : new ≠ []) (h : Substituted old new 0 0 ms rs) :
    patchedLines old new rs = readWithJumps (splitLines new) 0 (diffJumps old new rs) ∧
      JumpsOk (splitLines new).length 0 (diffJumps old new rs) := by
  cases h with
  | done _ _ hkept =>
    rw [drop_zero, drop_zero] at hkept
    rw [hkept]
    exact ⟨rfl, trivial⟩
  | @edit _ _ m r ms rs _ _ _ hor _ hnr hkept _ hrest =>
    obtain ⟨hle, hle'⟩ := hrest.le
    obtain ⟨hread, hok, hne⟩ := read_mergeInto (s := 0) hold hnew ⟨hor, hle, hnr, hle'⟩
      (endsWith_windowOf old new r) hrest
    obtain ⟨⟨d, d'⟩, js, hjs⟩ := exists_cons_of_ne_nil hne
    have hsta : (windowOf old new r).oldStart = max 1 (lineOfOffset old r.oldStart - 3) :=
      windowStart_eq hold _
    have hsta' : (windowOf old new r).newStart = max 1 (lineOfOffset new r.newStart - 3) :=
      windowStart_eq hnew _
    -- in front of the first replacement both contents have the same lines
    have hline : lineOfOffset new r.newStart = lineOfOffset old r.oldStart := by
      rw [lineOfOffset_eq, lineOfOffset_eq]
      exact congrArg (count newline · + 1) hkept.symm
    have hpos : 0 < lineOfOffset old r.oldStart := by
      rw [lineOfOffset_eq]
      exact succ_pos _
    have hfront := slice_front (m := (windowOf old new r).oldStart - 1) hold hnew hkept
      (by omega)
    rw [patchedLines, diffHunks_cons]
    rw [hjs] at hread hok ⊢
    have hsame : (windowOf old new r).oldStart = (windowOf old new r).newStart := by
      rw [hsta, hsta', hline]
    refine ⟨hread.trans ?_, zero_lt_of_lt hok.1, hok.2⟩
    rw [hfront, hsame]
    exact slice_append_readWithJumps (zero_le _) hok.1.le

end

/-- **The diff describes the edit exactly if reading the new lines with its jumps changes nothing.**
For ranges as `matchEdits` and `checkOverlaps` leave them: replacing the range of every header by the
hunk's added lines gives the new lines exactly if they are what is read of them with a jump after
every replacement far from the next one. A jump goes one line back if only the old text ends with a
newline and one line ahead if only the new text does, so there is none to be seen if the texts end
alike; among lines without repetitions every other jump is seen. -/
theorem diff_describes_edit_iff {old new : Bytes} {found : List EditMatch}
    {replacements : List Replacement} (hold : old ≠ []) (hnew : new ≠ [])
    (hin : ∀ m ∈ found, m.start ≤ m.stop ∧ m.stop ≤ old.length)
    (hapart : RangesDisjoint (sortedByStart found))
    (happ : applyMatches old found = (new, replacements)) :
    (patchedLines old new replacements = splitLines new ↔
      readWithJumps (splitLines new) 0 (diffJumps old new replacements) = splitLines new) ∧
    ((∀ j ∈ diffJumps old new replacements, j.1 = j.2) →
      patchedLines old new replacements = splitLines new) ∧
    ((splitLines new).Nodup → patchedLines old new replacements = splitLines new →
      ∀ j ∈ diffJumps old new replacements, j.1 = j.2) := by
  have hsub : Substituted old new 0 0 (sortedByStart found) replacements := by
    have h : Substituted old (applyMatches old found).1 0 0 (sortedByStart found)
        (applyMatches old found).2 :=
      substituted_applyOrdered (fun m hm => hin m ((sortedByStart_perm found).mem_iff.1 hm))
        hapart (fun _ _ => zero_le _) (zero_le _)
    rwa [happ] at h
  obtain ⟨heq, hok⟩ := patched_eq hold hnew hsub
  rw [heq]
  refine ⟨Iff.rfl, fun htriv => ?_, fun hn h => ?_⟩
  · exact readWithJumps_trivial hok htriv
  · exact trivial_of_readWithJumps hn hok h

/-- One letter replaced by another. -/
theorem diff_describes_edit_letter :
    applyMatches [97, 10] [⟨0, 1, [98]⟩] = ([98, 10], [⟨0, 1, 0, 1⟩]) ∧
    patchedLines [97, 10] [98, 10] [⟨0, 1, 0, 1⟩] = splitLines [98, 10] := by
  have h : applyMatches [97, 10] [⟨0, 1, [98]⟩] = ([98, 10], [⟨0, 1, 0, 1⟩]) := rfl
  have hapart : RangesDisjoint (sortedByStart [⟨0, 1, [98]⟩]) := pairwise_singleton _ _
  refine ⟨h, ?_⟩
  exact (diff_describes_edit_iff (by decide) (by decide) (by decide) hapart h).2.1 (by decide)

/-- The diff of deleting the first of five lines: a reader gets the last line twice. -/
theorem deleted_line_repeats_another :
    applyMatches [97, 10, 98, 10, 99, 10, 100, 10, 101, 10] [⟨0, 2, []⟩] =
      ([98, 10, 99, 10, 100, 10, 101, 10], [⟨0, 2, 0, 0⟩]) ∧
    diffHunks [97, 10, 98, 10, 99, 10, 100, 10, 101, 10] [98, 10, 99, 10, 100, 10, 101, 10]
      [⟨0, 2, 0, 0⟩] = [⟨1, 4, 1, 4⟩] ∧
    patchedLines [97, 10, 98, 10, 99, 10, 100, 10, 101, 10] [98, 10, 99, 10, 100, 10, 101, 10]
      [⟨0, 2, 0, 0⟩] = [[98], [99], [100], [101], [101]] ∧
    splitLines [98, 10, 99, 10, 100, 10, 101, 10] = [[98], [99], [100], [101]] :=
  ⟨rfl, rfl, rfl, rfl⟩

end Peen.Tools
