import Mathlib.Data.List.Basic

/-!
# Delimited lines of a chunked stream

A stream arrives in chunks of any sizes, and a reader returns it line by line, a line ending with
the first delimiter after the previous one.
-/

namespace Chunks

open List

variable {α : Type} [DecidableEq α] {delim : α}

/-- A line up to and including the first delimiter, and what follows it. -/
def cut (delim : α) : List α → Option (List α × List α)
  | [] => none
  | a :: as => if a = delim then some ([a], as) else (cut delim as).map fun p => (a :: p.1, p.2)

theorem cut_line (h : delim ∉ line) (rest : List α) :
    cut delim (line ++ delim :: rest) = some (line ++ [delim], rest) := by
  induction line with
  | nil => simp [cut]
  | cons a line ih =>
    have ha : a ≠ delim := Ne.symm (ne_of_not_mem_cons h)
    rw [cons_append, cut, if_neg ha, ih (not_mem_of_not_mem_cons h)]
    rfl

theorem cut_append (h : cut delim as = some (line, rest)) (more : List α) :
    cut delim (as ++ more) = some (line, rest ++ more) := by
  induction as generalizing line with
  | nil => cases h
  | cons a as ih =>
    rw [cut] at h
    rw [cons_append, cut]
    split at h
    · next ha =>
      cases h
      rw [if_pos ha]
    · next ha =>
      obtain ⟨⟨line', rest'⟩, hcut, he⟩ := Option.map_eq_some_iff.1 h
      cases he
      rw [if_neg ha, ih hcut]
      rfl

/-- What one read of the source returns: at least one element. -/
abbrev Chunk (α : Type) := { chunk : List α // chunk ≠ [] }

/-- A buffered reader: what it holds, and what the reads to come return before the source ends. -/
structure Reader (α : Type) where
  buffered : List α := []
  reads : List (Chunk α)

/-- Everything that has not been returned yet. -/
def Reader.stream (r : Reader α) : List α := r.buffered ++ (r.reads.map Subtype.val).flatten

/-- Reads until the buffer holds a line. The flag says whether one was found before the source
ended; otherwise everything left is returned. -/
def readUntil (delim : α) : List α → List (Chunk α) → (List α × Bool) × Reader α
  | buffered, [] =>
    match cut delim buffered with
    | some (line, rest) => ((line, true), ⟨rest, []⟩)
    | none => ((buffered, false), ⟨[], []⟩)
  | buffered, chunk :: reads =>
    match cut delim buffered with
    | some (line, rest) => ((line, true), ⟨rest, chunk :: reads⟩)
    | none => readUntil delim (buffered ++ chunk.1) reads

def Reader.readUntil (delim : α) (r : Reader α) : (List α × Bool) × Reader α :=
  Chunks.readUntil delim r.buffered r.reads

/-- **Lines do not depend on the chunks.** A stream that begins with a line returns that line and
leaves the rest. -/
theorem Reader.readUntil_spec {r : Reader α} (hline : delim ∉ line)
    (h : r.stream = line ++ delim :: rest) :
    ∃ r' : Reader α, r.readUntil delim = ((line ++ [delim], true), r') ∧ r'.stream = rest := by
  obtain ⟨buffered, reads⟩ := r
  have hcut := cut_line hline rest
  rw [← h] at hcut
  unfold Reader.stream at h hcut
  unfold Reader.readUntil
  -- A line found in the buffer is the first line of the whole stream.
  have hfd : ∀ {buffered line' rest' : List α} {reads : List (Chunk α)},
      cut delim (buffered ++ (reads.map Subtype.val).flatten) = some (line ++ [delim], rest) →
      cut delim buffered = some (line', rest') →
      line' = line ++ [delim] ∧ (⟨rest', reads⟩ : Reader α).stream = rest := by
    intro buffered line' rest' reads hall hb
    rw [cut_append hb] at hall
    cases hall
    exact ⟨rfl, rfl⟩
  clear h
  induction reads generalizing buffered with
  | nil =>
    rw [Chunks.readUntil]
    cases hb : cut delim buffered with
    | some p =>
      obtain ⟨hl, hr⟩ := hfd hcut hb
      exact ⟨⟨p.2, []⟩, by rw [← hl], hr⟩
    | none =>
      rw [map_nil, flatten_nil, append_nil, hb] at hcut
      cases hcut
  | cons chunk reads ih =>
    rw [Chunks.readUntil]
    cases hb : cut delim buffered with
    | some p =>
      obtain ⟨hl, hr⟩ := hfd hcut hb
      exact ⟨⟨p.2, chunk :: reads⟩, by rw [← hl], hr⟩
    | none =>
      refine ih (buffered ++ chunk.1) ?_
      rw [append_assoc]
      exact hcut

end Chunks
