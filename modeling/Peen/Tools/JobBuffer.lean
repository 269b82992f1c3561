import Mathlib.Algebra.Ring.Nat
import Peen.Lib.Run

/-!
# The output of a job

`jobBuffer` keeps the newest lines of a job's stream, bounded by their number and by their bytes.
-/

namespace Peen.Tools

open List Lts

/-! ## The buffer -/

/-- A line is its bytes. `Limits.validate` refuses bounds that are not positive. -/
structure JobBuffer where
  maxLines : Nat
  maxBytes : Nat
  lines : List (List UInt8) := []
  byteLen : Nat := 0
  total : Nat := 0

namespace JobBuffer

def overBoundLocked (b : JobBuffer) : Bool :=
  b.lines.length > b.maxLines || b.byteLen > b.maxBytes

/-- The loop of `Append`, over the lines that are held. -/
def evict (b : JobBuffer) : List (List UInt8) → Nat → JobBuffer
  | line :: next :: rest, byteLen =>
    if ({ b with lines := line :: next :: rest, byteLen } : JobBuffer).overBoundLocked then
      b.evict (next :: rest) (byteLen - line.length)
    else { b with lines := line :: next :: rest, byteLen }
  | lines, byteLen => { b with lines, byteLen }

def append (b : JobBuffer) (line : List UInt8) : JobBuffer :=
  ({ b with total := b.total + 1 } : JobBuffer).evict (b.lines ++ [line]) (b.byteLen + line.length)

def firstIndexLocked (b : JobBuffer) : Int := b.total - b.lines.length

/-- The lines of a read, the next cursor, and the drops. -/
structure Window where
  lines : List (List UInt8)
  cursor : Int
  dropped : Int

def capped (maxLines : Int) (available : List (List UInt8)) : List (List UInt8) :=
  if maxLines > 0 ∧ available.length > maxLines then available.take maxLines.toNat else available

/-- The lines from the cursor on, those that are still there. -/
def read (b : JobBuffer) (cursor maxLines : Int) : Window :=
  let first := b.firstIndexLocked
  let dropped := if cursor < first then first - cursor else 0
  let cursor := if cursor < first then first else cursor
  let offset := min (cursor - first) b.lines.length
  let result := capped maxLines (b.lines.drop offset.toNat)
  ⟨result, cursor + result.length, dropped⟩

end JobBuffer

/-! ## A reader and its buffer -/

/-- A buffer, all lines that were appended to it, and the reads of one reader. -/
structure JobReader where
  buffer : JobBuffer
  appended : List (List UInt8) := []
  cursor : Int := 0
  reads : List JobBuffer.Window := []

/-- Lines come in and a reader reads on. -/
inductive JobAction where
  | append (line : List UInt8)
  | read (maxLines : Int)

def JobReader.step (r : JobReader) : JobAction → Option JobReader
  | .append line =>
    some { r with buffer := r.buffer.append line, appended := r.appended ++ [line] }
  | .read maxLines =>
    let window := r.buffer.read r.cursor maxLines
    some { r with cursor := window.cursor, reads := r.reads ++ [window] }

/-- What the reads say of the numbers from 0 on: the line that has it, or that it was dropped. -/
def JobReader.slots (r : JobReader) : List (Option (List UInt8)) :=
  r.reads.flatMap fun window => replicate window.dropped.toNat none ++ window.lines.map some

/-- The reads account for every number below the cursor, with the lines that were appended under
them, and the buffer keeps its count of bytes and its bounds. -/
structure JobReader.Accounted (r : JobReader) : Prop where
  below : (r.slots.length : Int) = r.cursor
  lines : ∀ (i : Nat) line, r.slots[i]? = some (some line) → r.appended[i]? = some line
  bytes : r.buffer.byteLen = (r.buffer.lines.map length).sum
  bounded : r.buffer.lines.length = 1 ∨
    r.buffer.lines.length ≤ r.buffer.maxLines ∧ r.buffer.byteLen ≤ r.buffer.maxBytes

/-! ## Steps -/

section
variable {b : JobBuffer} {r : JobReader}

theorem JobBuffer.evict_spec {held : List (List UInt8)} {byteLen : Nat} (hne : held ≠ [])
    (hbytes : byteLen = (held.map length).sum) :
    (b.evict held byteLen).total = b.total ∧ (b.evict held byteLen).lines <:+ held ∧
    (b.evict held byteLen).byteLen = ((b.evict held byteLen).lines.map length).sum ∧
    ((b.evict held byteLen).lines.length = 1 ∨
      (b.evict held byteLen).overBoundLocked = false) := by
  fun_induction evict b held byteLen with
  | case1 line next rest byteLen _ ih =>
    have hrest : byteLen - line.length = ((next :: rest).map length).sum := by
      rw [hbytes, map_cons, sum_cons]
      omega
    obtain ⟨htot, hsuffix, hsum, hbd⟩ := ih (by simp) hrest
    exact ⟨htot, hsuffix.trans (suffix_cons _ _), hsum, hbd⟩
  | case2 line next rest byteLen hover =>
    exact ⟨rfl, suffix_rfl, hbytes, .inr (by simpa using hover)⟩
  | case3 held byteLen hshort =>
    refine ⟨rfl, suffix_rfl, hbytes, .inl ?_⟩
    rcases held with _ | ⟨line, _ | ⟨next, rest⟩⟩
    · exact absurd rfl hne
    · rfl
    · exact absurd rfl (hshort line next rest)

theorem JobBuffer.capped_append (maxLines : Int) (available : List (List UInt8)) :
    ∃ rest, capped maxLines available ++ rest = available := by
  unfold capped
  split
  · exact ⟨available.drop maxLines.toNat, take_append_drop _ _⟩
  · exact ⟨[], append_nil _⟩

/-- A read of a buffer that holds the last of all lines returns lines that follow each other from
the cursor on, behind those it reports dropped. -/
theorem JobBuffer.read_spec (hheld : front ++ b.lines = every) (htot : b.total = every.length)
    {cursor : Int} (hrch : cursor ≤ b.total) (maxLines : Int) :
    ∃ before after, every = before ++ (b.read cursor maxLines).lines ++ after ∧
      (before.length : Int) = cursor + (b.read cursor maxLines).dropped ∧
      0 ≤ (b.read cursor maxLines).dropped ∧
      (b.read cursor maxLines).cursor = before.length + (b.read cursor maxLines).lines.length := by
  subst hheld
  rw [length_append] at htot
  have hfst : b.firstIndexLocked = front.length := by
    rw [firstIndexLocked]
    omega
  simp only [read, hfst]
  by_cases hbehind : cursor < front.length
  · obtain ⟨rest, hrest⟩ := capped_append maxLines b.lines
    have hoffset : min ((front.length : Int) - front.length) b.lines.length = 0 := by omega
    simp only [if_pos hbehind, hoffset, Int.toNat_zero, drop_zero]
    refine ⟨front, rest, ?_, ?_⟩
    · rw [append_assoc, hrest]
    · omega
  · obtain ⟨rest, hrest⟩ := capped_append maxLines (b.lines.drop (cursor - front.length).toNat)
    have hoffset : min (cursor - front.length) (b.lines.length : Int) = cursor - front.length := by
      omega
    simp only [if_neg hbehind, hoffset]
    refine ⟨front ++ b.lines.take (cursor - front.length).toNat, rest, ?_, ?_⟩
    · rw [append_assoc, append_assoc, hrest, take_append_drop]
    · rw [length_append, length_take]
      omega

/-- The lines that are held are the last ones that were appended, and the cursor is not past them. -/
structure JobReader.Held (r : JobReader) : Prop extends r.Accounted where
  total : r.buffer.total = r.appended.length
  newest : r.buffer.lines <:+ r.appended
  reached : r.cursor ≤ r.buffer.total

theorem JobReader.Held.append (h : r.Held) (hstep : r.step (.append line) = some r') : r'.Held := by
  cases hstep
  have hbytes : r.buffer.byteLen + line.length = ((r.buffer.lines ++ [line]).map length).sum := by
    simp [h.bytes]
  obtain ⟨htot, hsuffix, hsum, hbd⟩ := JobBuffer.evict_spec
    (b := { r.buffer with total := r.buffer.total + 1 }) (by simp) hbytes
  refine ⟨⟨h.below, fun i l hl => ?_, hsum, hbd.imp_right fun hover => ?_⟩, ?_, ?_, ?_⟩
  · have hi := h.lines i l hl
    rw [getElem?_append_left (List.getElem?_eq_some_iff.1 hi).1]
    exact hi
  · simpa [JobBuffer.overBoundLocked, JobBuffer.append] using hover
  · rw [length_append, ← h.total]
    exact htot
  · obtain ⟨front, hfront⟩ := h.newest
    exact hsuffix.trans ⟨front, by rw [← hfront, append_assoc]⟩
  · have := h.reached
    have htot : (r.buffer.append line).total = r.buffer.total + 1 := htot
    show r.cursor ≤ (r.buffer.append line).total
    omega

theorem JobReader.Held.read (h : r.Held) (hstep : r.step (.read maxLines) = some r') : r'.Held := by
  cases hstep
  obtain ⟨front, hfront⟩ := h.newest
  have hbel := h.below
  obtain ⟨before, after, hall, hsta, hdrop, hcursor⟩ :=
    JobBuffer.read_spec hfront h.total h.reached maxLines
  generalize r.buffer.read r.cursor maxLines = window at *
  have hslots : JobReader.slots { r with cursor := window.cursor, reads := r.reads ++ [window] } =
      r.slots ++ (replicate window.dropped.toNat none ++ window.lines.map some) := by
    simp [JobReader.slots]
  refine ⟨⟨?_, ?_, h.bytes, h.bounded⟩, h.total, h.newest, ?_⟩
  · rw [hslots]
    simp only [length_append, length_replicate, length_map]
    omega
  · intro i line hi
    rw [hslots] at hi
    rcases Nat.lt_or_ge i r.slots.length with hold | hnew
    · rw [getElem?_append_left hold] at hi
      exact h.lines i line hi
    rw [getElem?_append_right hnew] at hi
    rcases Nat.lt_or_ge (i - r.slots.length) window.dropped.toNat with hgap | hline
    · simp [getElem?_append_left, hgap] at hi
    · rw [getElem?_append_right (by simpa using hline), getElem?_map, length_replicate] at hi
      obtain ⟨l, hl, heq⟩ := Option.map_eq_some_iff.1 hi
      cases heq
      have hlt := (List.getElem?_eq_some_iff.1 hl).1
      show r.appended[i]? = some line
      rw [hall, append_assoc, getElem?_append_right (by omega), getElem?_append_left (by omega), ← hl]
      congr 1
      omega
  · have hlen := congrArg length hall
    simp only [length_append] at hlen
    have htot := h.total
    show window.cursor ≤ r.buffer.total
    omega

end

/-- **The output of a job is accounted for.** Whatever lines are appended and read in whatever order,
and however a read is capped, the lines that were returned and the numbers that were reported dropped
are all numbers below the cursor, each once and in order, and a returned line is the one appended
under its number. All the while the buffer counts the bytes of the lines it holds, and is within both
bounds unless it holds a single line. -/
theorem job_output_accounted (maxLines maxBytes : Nat) (actions : List JobAction) :
    Always JobReader.step JobReader.Accounted ⟨{ maxLines, maxBytes }, [], 0, []⟩ actions := by
  refine Always.mono (fun _ h => h.toAccounted) (Always.of_step (I := JobReader.Held) ?_ ?_)
  · intro r a r' h hstep
    cases a with
    | append line => exact h.append hstep
    | read => exact h.read hstep
  · exact ⟨⟨rfl, by simp [JobReader.slots], rfl, .inr ⟨by simp, by simp⟩⟩, rfl, suffix_rfl, by simp⟩

end Peen.Tools
