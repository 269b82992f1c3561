import Peen.Tools.LastRead

/-!
# Reading a file in pages

`readFile` returns a window of a file's lines and the offset of the next one.
-/

namespace Peen.Tools

open List Files

section
variable (e : HostExecutor) (resolved : Path) (content : Bytes) (sha path : String)

/-- The windows a reader gets that asks with one limit after the other and follows `NextOffset`
until nothing is cut off. -/
def readPages : List Int → Nat → List ReadFileOutput
  | [], _ => []
  | limit :: limits, offset =>
    let output := buildReadWindow e resolved content sha ⟨path, offset, limit⟩
    output :: if output.truncated then readPages limits output.nextOffset else []

/-- What `buildReadWindow` adds behind the last line. -/
def finalNewline (content : Bytes) : Bytes :=
  if content.getLast? = some newline then [newline] else []

/-! ## Lines -/

theorem joinNewlines_append {as bs : List Bytes} (ha : as ≠ []) (hb : bs ≠ []) :
    joinNewlines (as ++ bs) = joinNewlines as ++ newline :: joinNewlines bs := by
  induction as with
  | nil => exact absurd rfl ha
  | cons a as ih =>
    cases as with
    | nil => rw [singleton_append, joinNewlines_cons hb]; simp [joinNewlines, intercalate]
    | cons a' as =>
      rw [cons_append, joinNewlines_cons (by simp), ih (by simp),
        joinNewlines_cons (cons_ne_nil a' as), append_assoc, cons_append]

theorem joinNewlines_splitNewlines (line s : Bytes) :
    splitNewlines line s ≠ [] ∧ joinNewlines (splitNewlines line s) = line ++ s := by
  induction s generalizing line with
  | nil => simp [splitNewlines, joinNewlines, intercalate]
  | cons b s ih =>
    rw [splitNewlines]
    split
    · next hb => simp [joinNewlines_cons (ih []).1, (ih []).2, hb]
    · simpa using ih (line ++ [b])

theorem joinNewlines_splitLines : joinNewlines (splitLines content) ++ finalNewline content = content := by
  rw [splitLines, finalNewline]
  split
  · next h => subst h; rfl
  · rw [(joinNewlines_splitNewlines _ _).2, trimNewline, nil_append]
    split
    · next h =>
      obtain ⟨init, rfl⟩ := getLast?_eq_some_iff.1 h
      simp
    · exact append_nil _

/-! ## Windows -/

variable {e resolved content sha path} {offset : Nat}

theorem buildReadWindow_within (he : 0 < e.maxReadLines) (limit : Int) (h1 : 1 ≤ offset)
    (hle : offset ≤ (splitLines content).length) :
    ∃ last, offset ≤ last ∧ last ≤ (splitLines content).length ∧
      buildReadWindow e resolved content sha ⟨path, offset, limit⟩ =
        { path := resolved, sha256 := sha, firstLine := offset, lastLine := last
          totalLines := (splitLines content).length
          truncated := decide (last < (splitLines content).length)
          nextOffset := if last < (splitLines content).length then last + 1 else 0
          content := joinNewlines (((splitLines content).take last).drop (offset - 1)) ++
            if last < (splitLines content).length then [] else finalNewline content } := by
  have hoff : normalizeOffset offset = offset := by rw [normalizeOffset, if_neg (by omega)]; rfl
  have hlim : 0 < resolveReadLimit e limit := by
    rw [resolveReadLimit]
    split <;> omega
  refine ⟨min (offset + resolveReadLimit e limit - 1) (splitLines content).length, by omega,
    by omega, ?_⟩
  rw [buildReadWindow, hoff]
  rw [if_neg (by omega)]
  by_cases hnl : content.getLast? = some newline
  · simp [hnl, finalNewline]
    split <;> simp_all
  · simp [hnl, finalNewline]

/-- **Windows that rebuild a text**: they follow on each other from a line to the last one of the
file, where nothing is cut off, and joined by newlines they are the text. -/
structure Rebuilds (pages : List ReadFileOutput) (offset : Nat) (text : Bytes) : Prop where
  text : joinNewlines (pages.map (·.content)) = text
  first : pages.head?.map (·.firstLine) = some offset
  adjacent : pages.IsChain fun a b => b.firstLine = a.lastLine + 1
  ends : ∃ last ∈ pages.getLast?, last.truncated = false ∧ last.lastLine = last.totalLines

theorem Rebuilds.cons (h : Rebuilds pages (page.lastLine + 1) s) :
    Rebuilds (page :: pages) page.firstLine (page.content ++ newline :: s) := by
  cases pages with
  | nil => cases h.first
  | cons =>
    refine ⟨?_, rfl, .cons_cons (Option.some.inj h.first) h.adjacent, h.ends⟩
    rw [map_cons, joinNewlines_cons (by simp), h.text]

theorem readPages_from (he : 0 < e.maxReadLines) {limits : List Int} (h1 : 1 ≤ offset)
    (hle : offset ≤ (splitLines content).length)
    (hlen : (splitLines content).length < offset + limits.length) :
    Rebuilds (readPages e resolved content sha path limits offset) offset
      (joinNewlines ((splitLines content).drop (offset - 1)) ++ finalNewline content) := by
  induction limits generalizing offset with
  | nil => simp at hlen; omega
  | cons limit limits ih =>
    obtain ⟨n, hn, hn', hw⟩ := buildReadWindow_within he limit h1 hle
    rw [readPages, hw]
    by_cases hlt : n < (splitLines content).length
    · have hcut : (splitLines content).drop (offset - 1) =
          ((splitLines content).take n).drop (offset - 1) ++ (splitLines content).drop n := by
        rw [← drop_append_of_le_length (by simp; omega), take_append_drop]
      rw [hcut, joinNewlines_append (ne_nil_of_length_pos (by simp; omega))
        (ne_nil_of_length_pos (by simp; omega)), append_assoc, cons_append]
      simp only [hlt, if_true, decide_true, append_nil]
      rw [length_cons] at hlen
      exact .cons (ih (by omega) (by omega) (by omega))
    · obtain rfl : n = (splitLines content).length := by omega
      simp only [lt_self_iff_false, if_false, decide_false, take_length, Bool.false_eq_true]
      exact ⟨by simp [joinNewlines, intercalate], rfl, .singleton _, _, rfl, rfl, rfl⟩

end

/-- **Pages rebuild the file.** A reader that starts at the first line and follows `NextOffset`, with
any limits, comes to the end with at most one window a line, and the windows are the file. -/
theorem readPages_rebuild (e : HostExecutor) (resolved : Path) (content : Bytes)
    (sha path : String) (limits : List Int) (he : 0 < e.maxReadLines) (hne : limits ≠ [])
    (hlen : (splitLines content).length ≤ limits.length) :
    Rebuilds (readPages e resolved content sha path limits 1) 1 content := by
  by_cases hc : content = []
  · subst hc
    obtain ⟨limit, rest, rfl⟩ := exists_cons_of_ne_nil hne
    exact ⟨rfl, rfl, .singleton _, _, rfl, rfl, rfl⟩
  · have h1 := length_pos_iff.2 (splitLines_ne_nil.2 hc)
    have h : Rebuilds (readPages e resolved content sha path limits 1) 1 _ :=
      readPages_from he (Nat.le_refl 1) h1 (by omega)
    rwa [Nat.sub_self, drop_zero, joinNewlines_splitLines] at h

/-- Four lines, the last two blank, in windows of one, two and one. -/
theorem readPages_rebuild_blank :
    (readPages textExecutor [] [97, 10, 98, 10, 10, 10] "" "" [1, 2, 9, 9] 1).map (·.content) =
      [[97], [98, 10], [10]] ∧
    Rebuilds (readPages textExecutor [] [97, 10, 98, 10, 10, 10] "" "" [1, 2, 9, 9] 1) 1
      [97, 10, 98, 10, 10, 10] :=
  ⟨by decide +kernel, readPages_rebuild textExecutor [] _ "" "" _ (by decide) (by decide)
    (by decide +kernel)⟩

end Peen.Tools
