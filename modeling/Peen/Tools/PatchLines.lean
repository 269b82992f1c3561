import Mathlib.Algebra.Ring.Nat
import Mathlib.Data.List.Basic
import Peen.Base

/-!
# Applying hunks to lines

The part of the patch tool that rewrites one file: its content is split into lines with their
endings, each hunk is located at or after the place the last one ended, and its old lines are
replaced.
-/

namespace Peen.Tools

/-- The errors of the tools, and errors of the filesystem passed through. -/
inductive ToolErrKind where
  | validationFailed
  | notFound
  | alreadyExists
  | notRegularFile
  | binaryContent
  | notObserved
  | staleHash
  | hashRequired
  | invalidPatch
  | patchConflict
  | patchMatchNotFound
  | patchMatchNotUnique
  | imageContent
  | parseFailed
  | notDirectory
  | directoryNotEmpty
  | matchNotFound
  | matchNotUnique
  | overlappingEdits
  | limitExceeded
  | filesystem
  deriving DecidableEq

/-- An error: its sentinel and the text it was first wrapped with. -/
structure ToolErr where
  kind : ToolErrKind
  message : String
  deriving DecidableEq

inductive PatchLineKind where
  | context
  | add
  | delete
  deriving DecidableEq

structure PatchLine where
  kind : PatchLineKind
  text : Bytes

/-- Lines behind an anchor. -/
structure PatchHunk where
  anchor : Bytes
  lines : List PatchLine
  endOfFile : Bool

structure PatchSourceLine where
  text : Bytes
  ending : Bytes

section
variable (content : Bytes) (lineEnding : Bytes) (lines : List PatchSourceLine) (cursor : Nat)
  (hunk : PatchHunk)

def carriageReturn : UInt8 := 0x0D

def terminatedLine (line : Bytes) : PatchSourceLine :=
  if line.getLast? = some carriageReturn then ⟨line.dropLast, [carriageReturn, newline]⟩
  else ⟨line, [newline]⟩

/-- The loop of `splitPatchSourceLines`, with the bytes of the current line. -/
def splitLinesFrom (line : Bytes) : Bytes → List PatchSourceLine
  | [] => if line = [] then [] else [⟨line, []⟩]
  | b :: rest =>
    if b = newline then terminatedLine line :: splitLinesFrom [] rest
    else splitLinesFrom (line ++ [b]) rest

def splitPatchSourceLines : List PatchSourceLine := splitLinesFrom [] content

/-- The loop of `preferredLineEnding`, with the endings counted so far. -/
def preferLineEnding (counted : List Bytes) (preferred : Bytes) (preferredCount : Nat) :
    List PatchSourceLine → Bytes
  | [] => preferred
  | line :: lines =>
    if line.ending = [] then preferLineEnding counted preferred preferredCount lines
    else
      let count := counted.count line.ending + 1
      if count > preferredCount then
        preferLineEnding (line.ending :: counted) line.ending count lines
      else preferLineEnding (line.ending :: counted) preferred preferredCount lines

def preferredLineEnding : Bytes :=
  preferLineEnding [] [newline] 0 lines

/-- The search loop the anchor and the hunk share: the only index at which a test holds. -/
def uniqueIndex (what : String) (test : Nat → Bool) : Option Nat → List Nat → Except ToolErr Nat
  | none, [] => .error ⟨.patchMatchNotFound, what⟩
  | some found, [] => .ok found
  | found, index :: indices =>
    if test index then
      if found.isSome then .error ⟨.patchMatchNotUnique, what⟩
      else uniqueIndex what test (some index) indices
    else uniqueIndex what test found indices

def locatePatchAnchor (anchor : Bytes) : Except ToolErr Nat :=
  if anchor = [] then .ok cursor
  else
    (uniqueIndex "anchor" (fun i => (lines[i]?).map (·.text) == some anchor) none
      (List.range' cursor (lines.length - cursor))).map (· + 1)

def patchOldLines (lines : List PatchLine) : List Bytes :=
  (lines.filter (·.kind != .add)).map (·.text)

/-- Where the old lines are, at one place only. -/
def locatePatchHunk : Except ToolErr (Nat × Nat) :=
  let oldLines := patchOldLines hunk.lines
  if oldLines = [] then .ok (if hunk.endOfFile then lines.length else cursor, 0)
  else
    (uniqueIndex "hunk context" (fun i =>
        ((lines.drop i).take oldLines.length).map (·.text) == oldLines &&
          (!hunk.endOfFile || i + oldLines.length == lines.length)) none
      (List.range' cursor (lines.length + 1 - oldLines.length - cursor))).map (·, oldLines.length)

/-- `buildPatchReplacement`. Context lines keep the source's text and ending. -/
def buildPatchReplacement (lineEnding : Bytes) :
    List PatchSourceLine → List PatchLine → List PatchSourceLine
  | _, [] => []
  | source, line :: lines =>
    match line.kind with
    | .context => source.head?.toList ++ buildPatchReplacement lineEnding source.tail lines
    | .delete => buildPatchReplacement lineEnding source.tail lines
    | .add => ⟨line.text, lineEnding⟩ :: buildPatchReplacement lineEnding source lines

/-- The replacement of a file's last, unterminated line: every line but the last is terminated. -/
def unterminateLast (replacement : List PatchSourceLine) : List PatchSourceLine :=
  (replacement.dropLast.map fun line =>
    if line.ending = [] then { line with ending := lineEnding } else line) ++
  replacement.getLast?.toList.map fun line => { line with ending := [] }

/-- One hunk of `applyPatchHunks`: the lines after it, and where the next search starts. -/
def applyPatchHunk : Except ToolErr (List PatchSourceLine × Nat) := do
  let anchorCursor ← locatePatchAnchor lines cursor hunk.anchor
  let (matchIndex, oldCount) ← locatePatchHunk lines anchorCursor hunk
  let replacement := buildPatchReplacement lineEnding ((lines.drop matchIndex).take oldCount)
    hunk.lines
  let replacement :=
    if matchIndex + oldCount = lines.length ∧ lines.getLast?.any (·.ending == []) then
      unterminateLast lineEnding replacement
    else replacement
  .ok (lines.take matchIndex ++ replacement ++ lines.drop (matchIndex + oldCount),
    matchIndex + replacement.length)

/-- The loop of `applyPatchHunks`. -/
def applyHunks (lineEnding : Bytes) :
    List PatchSourceLine → Nat → List PatchHunk → Except ToolErr (List PatchSourceLine)
  | lines, _, [] => .ok lines
  | lines, cursor, hunk :: hunks => do
    let (lines, cursor) ← applyPatchHunk lineEnding lines cursor hunk
    applyHunks lineEnding lines cursor hunks

def joinPatchSourceLines : Bytes :=
  lines.flatMap fun line => line.text ++ line.ending

/-- Each hunk at or after the end of the one before. -/
def applyPatchHunks (hunks : List PatchHunk) : Except ToolErr Bytes := do
  let lines := splitPatchSourceLines content
  let lines ← applyHunks (preferredLineEnding lines) lines 0 hunks
  .ok (joinPatchSourceLines lines)

end

end Peen.Tools
