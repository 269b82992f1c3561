import Mathlib.Data.List.Sort
import Peen.Lib.Utf8
import Peen.Tools.PatchLines

/-!
# Exact replacements in a text

The new content of an edit: every old text has to occur once in the content as it is, and the
matched ranges, which must not overlap, are replaced.
-/

namespace Peen.Tools

structure TextEdit where
  old : Bytes
  new : Bytes

/-- Where the old text of an edit is. -/
structure EditMatch where
  start : Nat
  stop : Nat
  newText : Bytes

section
variable (content : Bytes) (edits : List TextEdit) (found : List EditMatch)

/-- A range in both texts. -/
structure Replacement where
  oldStart : Nat
  oldEnd : Nat
  newStart : Nat
  newEnd : Nat

/-- `validateEdits`, from the edit with that index on. -/
def validateOldTexts : Nat → List TextEdit → Except ToolErr Unit
  | _, [] => .ok ()
  | i, edit :: edits =>
    if edit.old = [] then .error ⟨.validationFailed, s!"edit {i}: old text is required"⟩
    else validateOldTexts (i + 1) edits

def validateEdits (maxEdits : Nat) : Except ToolErr Unit :=
  if edits = [] then .error ⟨.validationFailed, "at least one edit is required"⟩
  else if edits.length > maxEdits then .error ⟨.limitExceeded, "too many edits"⟩
  else validateOldTexts 0 edits

/-- `bytes.Count` of a text that is not empty, with the bytes of the last occurrence still to
skip. -/
def countFrom (sep : Bytes) : Nat → Bytes → Nat
  | _, [] => 0
  | skip + 1, _ :: rest => countFrom sep skip rest
  | 0, b :: rest =>
    if sep.isPrefixOf (b :: rest) then countFrom sep (sep.length - 1) rest + 1
    else countFrom sep 0 rest

/-- `bytes.Count`: an empty text is counted before every character and at the end. -/
def bytesCount (content sep : Bytes) : Nat :=
  if sep = [] then Utf8.runeCount content + 1 else countFrom sep 0 content

/-- `bytes.Index`. -/
def bytesIndex (sep : Bytes) : Bytes → Option Nat
  | [] => if sep = [] then some 0 else none
  | b :: rest => if sep.isPrefixOf (b :: rest) then some 0 else (bytesIndex sep rest).map (· + 1)

/-- `matchEdits`, from the edit with that index on. -/
def matchEditsFrom (content : Bytes) : Nat → List TextEdit → Except ToolErr (List EditMatch)
  | _, [] => .ok []
  | i, edit :: edits =>
    if bytesCount content edit.old = 0 then .error ⟨.matchNotFound, s!"edit {i}"⟩
    else if bytesCount content edit.old > 1 then .error ⟨.matchNotUnique, s!"edit {i}"⟩
    else do
      let start := (bytesIndex edit.old content).getD 0
      let matched ← matchEditsFrom content (i + 1) edits
      .ok (⟨start, start + edit.old.length, edit.new⟩ :: matched)

/-- Every old text has to be counted once. Overlapping occurrences count once. -/
def matchEdits : Except ToolErr (List EditMatch) :=
  matchEditsFrom content 0 edits

def sortedByStart : List EditMatch :=
  found.insertionSort fun a b => a.start ≤ b.start

/-- Whether a range of the list starts before the one in front of it has ended. -/
def overlapping : List EditMatch → Bool
  | a :: b :: rest => decide (b.start < a.stop) || overlapping (b :: rest)
  | _ => false

def checkOverlaps : Except ToolErr Unit :=
  if overlapping (sortedByStart found) then .error ⟨.overlappingEdits, "edit ranges overlap"⟩
  else .ok ()

/-- The loop of `applyMatches`, with what it has rewritten and its cursor. -/
def applyOrdered (content : Bytes) : Bytes → Nat → List EditMatch → Bytes × List Replacement
  | rewritten, cursor, [] => (rewritten ++ content.drop cursor, [])
  | rewritten, cursor, m :: rest =>
    let kept := rewritten ++ (content.take m.start).drop cursor
    let result := applyOrdered content (kept ++ m.newText) m.stop rest
    (result.1, ⟨m.start, m.stop, kept.length, (kept ++ m.newText).length⟩ :: result.2)

def applyMatches : Bytes × List Replacement :=
  applyOrdered content [] 0 (sortedByStart found)

end

end Peen.Tools
