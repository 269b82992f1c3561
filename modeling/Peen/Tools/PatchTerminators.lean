import Peen.Tools.PatchPlaces

/-!
# Whether the result of a patch splits into its lines

The lines `applyPatchHunks` joins split again into themselves exactly if every line but the last has
a terminator and the last one, if it has none, is not empty (`Separated`).
-/

namespace Peen.Tools

open Splice List Nat

/-! ## Lines that split into themselves -/

/-- A line that could have been split off: no newline in its text, and a carriage return before a
newline belongs to the terminator. -/
structure LineSound (line : PatchSourceLine) : Prop where
  text : newline ∉ line.text
  ending : line.ending = [] ∨ line.ending = [newline] ∨ line.ending = [carriageReturn, newline]
  bare : line.ending = [newline] → line.text.getLast? ≠ some carriageReturn

def Terminated (lines : List PatchSourceLine) : Prop := ∀ line ∈ lines, line.ending ≠ []

/-- Every line but the last has a terminator, and a last line without one is not empty. -/
def Separated : List PatchSourceLine → Prop
  | [] => True
  | [line] => line.ending = [] → line.text ≠ []
  | line :: next :: rest => line.ending ≠ [] ∧ Separated (next :: rest)

section
variable {line : PatchSourceLine}

theorem separated_cons (h : line.ending ≠ []) : Separated (line :: lines) ↔ Separated lines := by
  cases lines with
  | nil => exact ⟨fun _ => trivial, fun _ he => absurd he h⟩
  | cons => exact ⟨fun hs => hs.2, fun hs => ⟨h, hs⟩⟩

theorem separated_append (h : Terminated lines) : Separated (lines ++ more) ↔ Separated more := by
  induction lines with
  | nil => rfl
  | cons line lines ih =>
    obtain ⟨hline, hln⟩ := forall_mem_cons.1 h
    exact (separated_cons hline).trans (ih hln)

theorem Separated.terminated (h : Separated (lines ++ more)) (hmore : more ≠ []) :
    Terminated lines := by
  induction lines with
  | nil => exact nofun
  | cons line lines ih =>
    obtain ⟨next, rest, he⟩ : ∃ next rest, lines ++ more = next :: rest :=
      exists_cons_of_ne_nil (by simp [hmore])
    rw [cons_append, he] at h
    exact forall_mem_cons.2 ⟨h.1, ih (he ▸ h.2)⟩

theorem Terminated.separated (h : Terminated lines) : Separated lines := by
  have hnil : Separated [] := trivial
  have := (separated_append h).2 hnil
  rwa [append_nil] at this

theorem Separated.left (h : Separated (lines ++ more)) : Separated lines := by
  by_cases hmore : more = []
  · rwa [hmore, append_nil] at h
  · exact (h.terminated hmore).separated

theorem Separated.terminated_of (h : Separated lines) (hu : unterminated lines = false) :
    Terminated lines := by
  rcases eq_nil_or_concat' lines with rfl | ⟨init, last, rfl⟩
  · exact nofun
  · have hinit := h.terminated (cons_ne_nil _ _)
    have hlast : last.ending ≠ [] := by
      simpa [unterminated] using hu
    intro line hline
    rcases mem_snoc.1 hline with hline | hline
    · exact hinit line hline
    · rw [hline]
      exact hlast

theorem Terminated.not_unterminated (h : Terminated lines) : unterminated lines = false := by
  rcases eq_nil_or_concat' lines with rfl | ⟨init, last, rfl⟩
  · rfl
  · have := h last (by simp)
    simpa [unterminated] using this

theorem unterminated_append (hmore : more ≠ []) :
    unterminated (lines ++ more) = unterminated more := by
  rw [unterminated, getLast?_append_of_ne_nil _ hmore, unterminated]

end

/-! ## Splitting what was joined -/

section
theorem splitLinesFrom_append (h : newline ∉ text) (acc rest : Bytes) :
    splitLinesFrom acc (text ++ rest) = splitLinesFrom (acc ++ text) rest := by
  induction text generalizing acc with
  | nil => rw [append_nil, nil_append]
  | cons b text ih =>
    have hb : b ≠ newline := Ne.symm (ne_of_not_mem_cons h)
    rw [cons_append, splitLinesFrom, if_neg hb, ih (not_mem_of_not_mem_cons h),
      append_assoc, singleton_append]

theorem split_terminated (hline : LineSound line) (h : line.ending ≠ []) (acc rest : Bytes) :
    ∃ first, splitLinesFrom acc (line.text ++ line.ending ++ rest) =
      first :: splitLinesFrom [] rest ∧ (acc = [] → first = line) := by
  rw [append_assoc, splitLinesFrom_append hline.text]
  obtain ⟨text, ending⟩ := line
  rcases hline.ending with he | he | he
  · exact absurd he h
  · obtain rfl : ending = [newline] := he
    refine ⟨terminatedLine (acc ++ text), ?_, ?_⟩
    · rw [singleton_append, splitLinesFrom, if_pos rfl]
    · rintro rfl
      exact if_neg (hline.bare rfl)
  · obtain rfl : ending = [carriageReturn, newline] := he
    refine ⟨terminatedLine (acc ++ text ++ [carriageReturn]), ?_, ?_⟩
    · rw [cons_append, singleton_append, splitLinesFrom, if_neg (by decide),
        splitLinesFrom, if_pos rfl]
    · simp [terminatedLine]

theorem join_cons (line : PatchSourceLine) (lines : List PatchSourceLine) :
    joinPatchSourceLines (line :: lines) =
      line.text ++ line.ending ++ joinPatchSourceLines lines :=
  flatMap_cons

theorem split_join (hsd : ∀ line ∈ lines, LineSound line) (h : Separated lines) :
    splitPatchSourceLines (joinPatchSourceLines lines) = lines := by
  rw [splitPatchSourceLines]
  induction lines with
  | nil => rfl
  | cons line lines ih =>
    obtain ⟨hline, hln⟩ := forall_mem_cons.1 hsd
    rw [join_cons]
    by_cases he : line.ending = []
    · cases lines with
      | nil =>
        have htext : line.text ≠ [] := h he
        obtain ⟨text, ending⟩ := line
        obtain rfl : ending = [] := he
        rw [append_assoc, splitLinesFrom_append hline.text]
        exact if_neg htext
      | cons => exact absurd he h.1
    · obtain ⟨first, hspl, hfst⟩ := split_terminated hline he [] (joinPatchSourceLines lines)
      rw [hspl, hfst rfl, ih hln ((separated_cons he).1 h)]

theorem length_split (hsd : ∀ line ∈ lines, LineSound line) (hne : lines ≠ []) (acc : Bytes) :
    (splitLinesFrom acc (joinPatchSourceLines lines)).length ≤ lines.length ∧
      (acc = [] → ¬ Separated lines →
        (splitLinesFrom acc (joinPatchSourceLines lines)).length < lines.length) := by
  induction lines generalizing acc with
  | nil => exact absurd rfl hne
  | cons line lines ih =>
    obtain ⟨hline, hln⟩ := forall_mem_cons.1 hsd
    rw [join_cons]
    by_cases he : line.ending = []
    · rw [he, append_nil, splitLinesFrom_append hline.text]
      by_cases hnil : lines = []
      · subst hnil
        rw [joinPatchSourceLines, flatMap_nil, splitLinesFrom]
        split
        · exact ⟨Nat.zero_le _, fun _ _ => Nat.zero_lt_one⟩
        next htext =>
          refine ⟨Nat.le_refl _, fun hacc h => absurd (fun _ => ?_) h⟩
          rwa [hacc, nil_append] at htext
      · have hlt := Nat.lt_succ_of_le (ih hln hnil (acc ++ line.text)).1
        exact ⟨Nat.le_of_lt hlt, fun _ _ => hlt⟩
    · obtain ⟨first, hspl, -⟩ := split_terminated hline he acc (joinPatchSourceLines lines)
      rw [hspl, length_cons, length_cons]
      by_cases hnil : lines = []
      · subst hnil
        exact ⟨Nat.le_refl _, fun _ h => absurd (fun hnil => absurd hnil he) h⟩
      · obtain ⟨hle, hlt⟩ := ih hln hnil []
        exact ⟨Nat.succ_le_succ hle,
          fun _ h => Nat.succ_lt_succ (hlt rfl (mt (separated_cons he).2 h))⟩

theorem texts_split_join_iff (hsd : ∀ line ∈ lines, LineSound line) :
    lineTexts (splitPatchSourceLines (joinPatchSourceLines lines)) = lineTexts lines ↔
      Separated lines := by
  refine ⟨fun heq => ?_, fun h => by rw [split_join hsd h]⟩
  by_contra h
  have hlt := (length_split hsd (fun hnil => h (hnil ▸ trivial)) []).2 rfl h
  have hlen := congrArg length heq
  rw [lineTexts, lineTexts, length_map, length_map, splitPatchSourceLines] at hlen
  omega

end

/-! ## The lines of the source -/

theorem sound_terminatedLine (h : newline ∉ line) :
    LineSound (terminatedLine line) ∧ (terminatedLine line).ending ≠ [] := by
  rw [terminatedLine]
  split
  · refine ⟨⟨fun hmem => h (dropLast_subset _ hmem), .inr (.inr rfl), fun he => ?_⟩, ?_⟩
    · cases he
    · exact cons_ne_nil _ _
  · next hcr => exact ⟨⟨h, .inr (.inl rfl), fun _ => hcr⟩, cons_ne_nil _ _⟩

theorem sound_splitLinesFrom (h : newline ∉ line) (content : Bytes) :
    (∀ l ∈ splitLinesFrom line content, LineSound l) ∧
      Separated (splitLinesFrom line content) := by
  induction content generalizing line with
  | nil =>
    rw [splitLinesFrom]
    split
    · exact ⟨by simp, trivial⟩
    · next hne =>
      refine ⟨fun l hl => ?_, fun _ => hne⟩
      rw [mem_singleton.1 hl]
      exact ⟨h, .inl rfl, by simp⟩
  | cons b rest ih =>
    rw [splitLinesFrom]
    split
    · obtain ⟨hsd, hsep⟩ := ih not_mem_nil
      obtain ⟨hline, hend⟩ := sound_terminatedLine h
      exact ⟨forall_mem_cons.2 ⟨hline, hsd⟩, (separated_cons hend).2 hsep⟩
    · next hb =>
      refine ih fun hmem => ?_
      rcases mem_snoc.1 hmem with hmem | hmem
      · exact h hmem
      · exact hb hmem.symm

def IsTerminator (ending : Bytes) : Prop := ending = [newline] ∨ ending = [carriageReturn, newline]

theorem IsTerminator.ne_nil (h : IsTerminator ending) : ending ≠ [] := by
  rcases h with rfl | rfl
  · exact cons_ne_nil _ _
  · exact cons_ne_nil _ _

theorem preferLineEnding_terminator {count : Nat} (hsd : ∀ l ∈ lines, LineSound l)
    (h : IsTerminator preferred) :
    IsTerminator (preferLineEnding counted preferred count lines) := by
  induction lines generalizing counted preferred count with
  | nil => exact h
  | cons line lines ih =>
    obtain ⟨hline, hln⟩ := forall_mem_cons.1 hsd
    rw [preferLineEnding]
    split
    · exact ih hln h
    · next hend =>
      dsimp only
      split
      · exact ih hln (hline.ending.resolve_left hend)
      · exact ih hln h

/-! ## One hunk -/

/-- The texts of a hunk hold no carriage return, and no newline since a patch is split at them. -/
def PlainTexts (hunk : PatchHunk) : Prop :=
  ∀ line ∈ hunk.lines, carriageReturn ∉ line.text ∧ newline ∉ line.text

instance (hunk : PatchHunk) : Decidable (PlainTexts hunk) :=
  inferInstanceAs (Decidable (∀ line ∈ hunk.lines, _))

section
theorem endings_buildPatchReplacement (P : Bytes → Prop) (hln : List PatchLine)
    (hm : ∀ l ∈ matched, P l.ending) (he : P lineEnding) :
    ∀ l ∈ buildPatchReplacement lineEnding matched hln, P l.ending := by
  induction hln generalizing matched with
  | nil => exact nofun
  | cons line rest ih =>
    have htail : ∀ l ∈ matched.tail, P l.ending := fun l hl => hm l (mem_of_mem_tail hl)
    rw [buildPatchReplacement]
    split
    · intro l hl
      rcases mem_append.1 hl with hl | hl
      · exact hm l (mem_of_mem_head? (Option.mem_toList.1 hl))
      · exact ih htail l hl
    · exact ih htail
    · exact forall_mem_cons.2 ⟨he, ih hm⟩

theorem unterminateLast_concat (init : List PatchSourceLine) (last : PatchSourceLine) :
    unterminateLast lineEnding (init ++ [last]) =
      (init.map fun line => if line.ending = [] then { line with ending := lineEnding } else line) ++
        [{ last with ending := [] }] := by
  simp [unterminateLast]

theorem terminated_fixed (hle : lineEnding ≠ []) (init : List PatchSourceLine) :
    Terminated (init.map fun line =>
      if line.ending = [] then { line with ending := lineEnding } else line) := by
  intro line hline
  obtain ⟨l, -, rfl⟩ := mem_map.1 hline
  split
  · exact hle
  · assumption

theorem endings_unterminateLast (P : Bytes → Prop) (hl : ∀ l ∈ lines, P l.ending)
    (he : P lineEnding) (hnil : P []) : ∀ l ∈ unterminateLast lineEnding lines, P l.ending := by
  rcases eq_nil_or_concat' lines with rfl | ⟨init, last, rfl⟩
  · exact nofun
  · rw [unterminateLast_concat]
    intro l hmem
    rcases mem_snoc.1 hmem with hmem | hmem
    · obtain ⟨line, hline, rfl⟩ := mem_map.1 hmem
      split
      · exact he
      · exact hl line (mem_append_left _ hline)
    · rw [hmem]
      exact hnil

theorem sound_replacementOf (hpln : PlainTexts hunk) (hle : IsTerminator lineEnding)
    (hm : ∀ l ∈ matched, LineSound l) (htexts : lineTexts matched = patchOldLines hunk.lines) :
    ∀ l ∈ replacementOf lineEnding lines matched atEnd hunk, LineSound l := by
  intro l hl
  have hending : l.ending = [] ∨ IsTerminator l.ending := by
    have hbuild := endings_buildPatchReplacement (fun e => e = [] ∨ IsTerminator e) hunk.lines
      (fun l hl => (hm l hl).ending) (.inr hle)
    rw [replacementOf] at hl
    split at hl
    · exact endings_unterminateLast (fun e => e = [] ∨ IsTerminator e) hbuild (.inr hle)
        (.inl rfl) l hl
    · exact hbuild l hl
  have htext : l.text ∈ patchNewLines hunk.lines := by
    rw [← texts_replacementOf htexts]
    exact mem_map_of_mem hl
  obtain ⟨line, hline, he⟩ := mem_map.1 htext
  obtain ⟨hcr, hnl⟩ := hpln line (mem_of_mem_filter hline)
  rw [he] at hcr hnl
  exact ⟨hnl, hending, fun _ hlast => hcr (mem_of_getLast? hlast)⟩

end

section
theorem terminated_build (hle : lineEnding ≠ []) (h : Terminated (a ++ m))
    (lines : List PatchLine) : Terminated (a ++ buildPatchReplacement lineEnding m lines) := by
  obtain ⟨ha, hm⟩ := forall_mem_append.1 h
  exact forall_mem_append.2 ⟨ha, endings_buildPatchReplacement (· ≠ []) lines hm hle⟩

theorem replacementOf_inner (h : ¬ (atEnd = true ∧ unterminated lines = true)) :
    replacementOf lineEnding lines matched atEnd hunk =
      buildPatchReplacement lineEnding matched hunk.lines :=
  if_neg h

theorem separated_unterminateLast (hle : lineEnding ≠ []) (hsep : Separated (a ++ m))
    (hu : unterminated (a ++ m) = true) (r : List PatchSourceLine) :
    let new := unterminateLast lineEnding r
    (Separated (a ++ new) ↔ (new ≠ [] → m ≠ [] ∧ (lineTexts new).getLast? ≠ some [])) ∧
    (Separated (a ++ new) → unterminated (a ++ new) = !(!m.isEmpty && new.isEmpty)) := by
  rcases eq_nil_or_concat' r with rfl | ⟨init, last, rfl⟩
  · -- nothing is put in: what is left ends with a terminator if anything was taken away
    show (Separated (a ++ []) ↔ _) ∧ (Separated (a ++ []) → unterminated (a ++ []) = _)
    rw [append_nil]
    refine ⟨iff_of_true hsep.left (absurd rfl), fun _ => ?_⟩
    cases m with
    | nil =>
      rw [append_nil] at hu
      exact hu
    | cons => exact (hsep.terminated (cons_ne_nil _ _)).not_unterminated
  · rw [unterminateLast_concat]
    generalize hinit : init.map _ = fixed
    have hfixed : Terminated fixed := hinit ▸ terminated_fixed hle init
    have hlast : unterminated (a ++ (fixed ++ [{ last with ending := [] }])) = true := by
      rw [← append_assoc, unterminated_append (cons_ne_nil _ _)]
      rfl
    refine ⟨?_, fun _ => by simp [hlast]⟩
    have htext : (lineTexts (fixed ++ [{ last with ending := [] }])).getLast? = some last.text := by
      simp [lineTexts]
    rw [htext]
    cases m with
    | nil =>
      refine iff_of_false (fun h => ?_) (fun h => (h (by simp)).1 rfl)
      rw [append_nil] at hu
      rw [(h.terminated (by simp)).not_unterminated] at hu
      cases hu
    | cons l m =>
      have ha : Terminated a := hsep.terminated (cons_ne_nil _ _)
      rw [separated_append ha, separated_append hfixed]
      simp [Separated]

/-- Whether the lines are still separated after a hunk, and whether the last one is still without a
terminator: `a` stands before the matched lines `m`, and `z` behind them. -/
theorem separated_replacement (hle : lineEnding ≠ []) (hunk : PatchHunk)
    (hsep : Separated (a ++ m ++ z)) :
    let new := replacementOf lineEnding (a ++ m ++ z) m z.isEmpty hunk
    (Separated (a ++ new ++ z) ↔ (unterminated (a ++ m ++ z) = true → z = [] →
      new ≠ [] → m ≠ [] ∧ (lineTexts new).getLast? ≠ some [])) ∧
    (Separated (a ++ new ++ z) → unterminated (a ++ new ++ z) =
      (unterminated (a ++ m ++ z) && !(z.isEmpty && (!m.isEmpty && new.isEmpty)))) := by
  by_cases hz : z = []
  · subst hz
    simp only [append_nil] at hsep ⊢
    by_cases hu : unterminated (a ++ m) = true
    · have hnew : replacementOf lineEnding (a ++ m) m true hunk =
          unterminateLast lineEnding (buildPatchReplacement lineEnding m hunk.lines) :=
        if_pos ⟨rfl, hu⟩
      simp only [isEmpty_nil, hnew, hu, Bool.true_and, true_imp_iff]
      exact separated_unterminateLast hle hsep hu _
    · -- every line has a terminator, before and after
      rw [replacementOf_inner fun h => hu h.2]
      rw [Bool.not_eq_true] at hu
      have hnew := terminated_build hle (hsep.terminated_of hu) hunk.lines
      rw [hu, hnew.not_unterminated]
      exact ⟨iff_of_true hnew.separated nofun, fun _ => rfl⟩
  · -- the hunk ends before the last line
    rw [replacementOf_inner fun h => hz (isEmpty_iff.1 h.1)]
    have hall := hsep.terminated hz
    have hnew := terminated_build hle hall hunk.lines
    refine ⟨iff_of_true ?_ fun _ h => absurd h hz, fun _ => ?_⟩
    · exact (separated_append hnew).2 ((separated_append hall).1 hsep)
    · rw [unterminated_append hz, unterminated_append hz]
      simp [hz]

end

/-! ## All hunks -/

/-- A hunk whose range ends the file, applied while the last line has no terminator, has old lines,
and its new lines are none or end in a text that is not empty. -/
def KeepsEnd (e : Edit Bytes) : Prop := e.new ≠ [] → e.count ≠ 0 ∧ e.new.getLast? ≠ some []

/-- Every hunk that meets the end of a file of `n` lines without a final terminator keeps it. Only a
hunk that deletes the last line and puts nothing in its place leaves a file with a terminator. -/
def KeepsEnds (n : Nat) : Bool → List (Edit Bytes) → Prop
  | _, [] => True
  | ragged, e :: es =>
    (ragged = true → e.stop = n → KeepsEnd e) ∧
      KeepsEnds n (ragged && !(e.stop == n && (e.count != 0 && e.new.isEmpty))) es

section
variable {source : List PatchSourceLine} {s : Nat}

theorem HunkApplied.cut (h : HunkApplied lineEnding source done s hunk e) :
    done ++ source.drop s =
      (done ++ slice source s e.start) ++ slice source e.start e.stop ++ source.drop e.stop := by
  have hstop : e.start ≤ e.stop := le_add_right _ _
  rw [append_assoc, slice_append_drop hstop, append_assoc, slice_append_drop h.after]

theorem HunkApplied.separated (h : HunkApplied lineEnding source done s hunk e)
    (hle : lineEnding ≠ []) (hsep : Separated (done ++ source.drop s)) :
    let after := (done ++ slice source s e.start ++ e.new) ++ source.drop e.stop
    (Separated after ↔ (unterminated (done ++ source.drop s) = true → e.stop = source.length →
      KeepsEnd (e.map (·.text)))) ∧
    (Separated after → unterminated after = (unterminated (done ++ source.drop s) &&
      !(e.stop == source.length && (e.count != 0 && (e.map (·.text)).new.isEmpty)))) := by
  have hatEnd : (source.drop e.stop).isEmpty = decide (e.stop = source.length) := by
    rw [Bool.eq_iff_iff, List.isEmpty_iff, List.drop_eq_nil_iff, decide_eq_true_iff]
    exact ⟨fun hle => Nat.le_antisymm h.within hle, Nat.le_of_eq ∘ Eq.symm⟩
  have hnil : source.drop e.stop = [] ↔ e.stop = source.length := by
    rw [← List.isEmpty_iff, hatEnd, decide_eq_true_iff]
  have hct : slice source e.start e.stop = [] ↔ e.count = 0 := by
    rw [← length_eq_zero_iff, length_slice h.within, Edit.stop, Nat.add_sub_cancel_left]
  have hnew := h.new
  rw [h.cut] at hsep ⊢
  rw [h.cut, ← hatEnd] at hnew
  have hstep := separated_replacement hle hunk hsep
  rw [← hnew] at hstep
  obtain ⟨hiff, hun⟩ := hstep
  refine ⟨?_, fun haft => ?_⟩
  · rw [hiff, hnil, KeepsEnd, Edit.map, lineTexts, Ne, Ne, hct, ← map_eq_nil_iff]
  · rw [hun haft, hatEnd]
    rw [Bool.eq_iff_iff]
    simp [hct, Edit.map]

theorem HunksApplied.sound (h : HunksApplied lineEnding source done s hunks es)
    (hle : IsTerminator lineEnding) (hpln : ∀ h ∈ hunks, PlainTexts h)
    (hsrc : ∀ l ∈ source, LineSound l) (hdone : ∀ l ∈ done, LineSound l) :
    ∀ l ∈ done ++ apply source s es, LineSound l := by
  induction h with
  | nil => exact forall_mem_append.2 ⟨hdone, fun l hl => hsrc l (mem_of_mem_drop hl)⟩
  | cons happ _ ih =>
    obtain ⟨hfst, hrest⟩ := forall_mem_cons.1 hpln
    have hslice : ∀ i j, ∀ l ∈ slice source i j, LineSound l := fun i j l hl =>
      hsrc l (mem_of_mem_take (mem_of_mem_drop hl))
    rw [apply_cons]
    refine ih hrest (forall_mem_append.2 ⟨?_, ?_⟩)
    · exact forall_mem_append.2 ⟨hdone, hslice _ _⟩
    · rw [happ.new]
      exact sound_replacementOf hfst hle (hslice _ _) happ.matched

theorem HunksApplied.separated (h : HunksApplied lineEnding source done s hunks es)
    (hle : lineEnding ≠ []) (hsep : Separated (done ++ source.drop s)) :
    Separated (done ++ apply source s es) ↔ KeepsEnds source.length
      (unterminated (done ++ source.drop s)) (es.map (Edit.map (·.text))) := by
  induction h with
  | nil => exact iff_of_true hsep trivial
  | @cons done s _ e _ _ happ _ ih =>
    obtain ⟨hiff, hun⟩ := happ.separated hle hsep
    rw [apply_cons, map_cons, KeepsEnds]
    by_cases haft : Separated ((done ++ slice source s e.start ++ e.new) ++ source.drop e.stop)
    · rw [ih haft, hun haft]
      exact ⟨fun hk => ⟨hiff.1 haft, hk⟩, fun hk => hk.2⟩
    · -- the file is at its end: the hunks that follow only append to it
      refine iff_of_false (fun hfnl => ?_) fun hk => haft (hiff.2 hk.1)
      have hend : e.stop = source.length := by
        by_contra hne
        exact haft (hiff.2 fun _ he => absurd he hne)
      rw [hend, drop_length, append_nil] at haft
      exact haft hfnl.left

end

/-- **Hunks join or lose lines only at the end of a file without a final terminator.** The result
splits into the source's texts with the ranges of the hunks replaced by their context and added
lines exactly if every hunk that ends the file, while its last line has no terminator, has old lines
and puts in no lines or ends with a text that is not empty. -/
theorem hunks_keep_lines_iff {content result : Bytes} {hunks : List PatchHunk}
    (hplain : ∀ hunk ∈ hunks, PlainTexts hunk) (h : applyPatchHunks content hunks = .ok result) :
    ∃ es, HunksPlaced (splitPatchSourceLines content) 0 hunks es ∧
      (lineTexts (splitPatchSourceLines result) =
          apply (lineTexts (splitPatchSourceLines content)) 0 (es.map (Edit.map (·.text))) ↔
        KeepsEnds (splitPatchSourceLines content).length
          (unterminated (splitPatchSourceLines content)) (es.map (Edit.map (·.text)))) := by
  obtain ⟨lines, hlines, he⟩ := of_bind h
  cases he
  obtain ⟨hsource, hsep⟩ := sound_splitLinesFrom not_mem_nil content
  have hle : IsTerminator (preferredLineEnding (splitPatchSourceLines content)) :=
    preferLineEnding_terminator hsource (.inl rfl)
  obtain ⟨es, happ, rfl⟩ := applied_of_applyHunks [] (zero_le _) hlines
  have htexts : apply (lineTexts (splitPatchSourceLines content)) 0 (es.map (Edit.map (·.text))) =
      lineTexts ([] ++ apply (splitPatchSourceLines content) 0 es) := (map_apply _ _ _ _).symm
  refine ⟨es, happ.placed, ?_⟩
  rw [htexts]
  exact (texts_split_join_iff (happ.sound hle hplain hsource nofun)).trans
    (happ.separated hle.ne_nil hsep)

/-- A hunk that replaces a last line without a terminator by two. -/
def replacedLast : List PatchHunk := [⟨[], [⟨.delete, [98]⟩, ⟨.add, [99]⟩, ⟨.add, [100]⟩], false⟩]

/-- It keeps both lines. -/
theorem hunks_keep_lines_replaced :
    applyPatchHunks [97, 10, 98] replacedLast = .ok [97, 10, 99, 10, 100] ∧
    lineTexts (splitPatchSourceLines [97, 10, 99, 10, 100]) = [[97], [99], [100]] ∧
    ∃ es, HunksPlaced (splitPatchSourceLines [97, 10, 98]) 0 replacedLast es ∧
      ([[97], [99], [100]] = apply [[97], [98]] 0 (es.map (Edit.map (·.text))) ↔
        KeepsEnds 2 (unterminated (splitPatchSourceLines [97, 10, 98]))
          (es.map (Edit.map (·.text)))) := by
  have h : applyPatchHunks [97, 10, 98] replacedLast = .ok [97, 10, 99, 10, 100] := rfl
  exact ⟨h, rfl, hunks_keep_lines_iff (by decide) h⟩

/-- A line added at the end of "a" is joined to it. -/
theorem added_line_joined :
    applyPatchHunks [97] [⟨[], [⟨.add, [98]⟩], true⟩] = .ok [97, 98] ∧
    HunksPlaced (splitPatchSourceLines [97]) 0 [⟨[], [⟨.add, [98]⟩], true⟩]
      [⟨1, 0, [⟨[98], []⟩]⟩] ∧
    lineTexts (splitPatchSourceLines [97, 98]) ≠
      apply (lineTexts (splitPatchSourceLines [97])) 0 [⟨1, 0, [[98]]⟩] := by
  refine ⟨rfl, ?_, by decide⟩
  exact .cons ⟨0, .inl ⟨rfl, rfl⟩, rfl⟩ (zero_le _) (le_refl _) rfl rfl .nil

end Peen.Tools
