import Peen.Tools.ApplyPatch
import Peen.Tools.Diff

/-!
# Patch documents

The parser of the patch tool, over the lines between the markers. A function takes the lines from an
index on and returns the index behind what it has parsed; a loop passes over the lines before it.
-/

namespace Peen.Tools

/-! ## Markers -/

section
variable (line : Bytes) (document : Bytes) (index : Nat) (header : Bytes) (rest : List Bytes)

def applyPatchBeginMarker : Bytes := ascii "*** Begin Patch"

def applyPatchEndMarker : Bytes := ascii "*** End Patch"

def patchAddPrefix : Bytes := ascii "*** Add File: "

def patchDeletePrefix : Bytes := ascii "*** Delete File: "

def patchUpdatePrefix : Bytes := ascii "*** Update File: "

def patchMovePrefix : Bytes := ascii "*** Move to: "

def patchHunkPrefix : Bytes := ascii "@@"

def patchEndOfFileMarker : Bytes := ascii "*** End of File"

def hasPrefix (line start : Bytes) : Bool := start.isPrefixOf line

def trimPrefix (line start : Bytes) : Bytes :=
  if hasPrefix line start then line.drop start.length else line

def isPatchActionHeader : Bool :=
  hasPrefix line patchAddPrefix || hasPrefix line patchDeletePrefix ||
    hasPrefix line patchUpdatePrefix

/-! ## Results -/

/-- `patchAction`, with its paths as they stand in the document. -/
structure ParsedAction where
  operation : PatchOperation
  path : Bytes
  destination : Bytes := []
  addContent : Bytes := []
  hunks : List PatchHunk := []

structure ParsedPatch where
  actions : List ParsedAction
  hunks : Nat

/-! ## Hunks -/

def requiredPatchPath (path : Bytes) : Except ToolErr Bytes :=
  let path := Utf8.trimSpace path
  if path = [] then .error ⟨.invalidPatch, "file path is required"⟩ else .ok path

def parsePatchLine : Bytes → PatchLine
  | [] => ⟨.context, []⟩
  | b :: text =>
    if b = 0x20 then ⟨.context, text⟩
    else if b = 0x2B then ⟨.add, text⟩
    else if b = 0x2D then ⟨.delete, text⟩
    else ⟨.context, b :: text⟩

def validatePatchHunk (hunk : PatchHunk) : Except ToolErr Unit :=
  if hunk.lines = [] then .error ⟨.invalidPatch, "empty update hunk"⟩
  else if hunk.lines.any fun line => line.kind == .add || line.kind == .delete then .ok ()
  else .error ⟨.invalidPatch, "hunk has no changes"⟩

/-- The loop of `parsePatchHunk`: its lines, its mark, and the index behind it. -/
def parseHunkLines : Nat → List Bytes → List PatchLine × Bool × Nat
  | index, [] => ([], false, index)
  | index, line :: rest =>
    if isPatchActionHeader line || hasPrefix line patchHunkPrefix then ([], false, index)
    else if line = patchEndOfFileMarker then ([], true, index + 1)
    else
      let (lines, endOfFile, next) := parseHunkLines (index + 1) rest
      (parsePatchLine line :: lines, endOfFile, next)

/-- The lines of a hunk, up to the next structure. -/
def parsePatchHunk : Except ToolErr (PatchHunk × Nat) := do
  let (lines, endOfFile, next) := parseHunkLines (index + 1) rest
  let hunk : PatchHunk := ⟨Utf8.trimSpace (trimPrefix header patchHunkPrefix), lines, endOfFile⟩
  let _ ← validatePatchHunk hunk
  .ok (hunk, next)

def isClosingPatchHunkDelimiter : Bool :=
  line == patchHunkPrefix && rest.head?.all isPatchActionHeader

/-- `parseUpdateHunks`, at an index, with the index behind the last hunk. -/
def parseUpdateHunks : Nat → Nat → List Bytes → Except ToolErr (List PatchHunk × Nat)
  | index, _, [] => .ok ([], index)
  | index, next, line :: rest =>
    if index < next then parseUpdateHunks (index + 1) next rest
    else if isPatchActionHeader line then .ok ([], index)
    else if isClosingPatchHunkDelimiter line rest then
      parseUpdateHunks (index + 1) (index + 1) rest
    else if !hasPrefix line patchHunkPrefix then
      .error ⟨.invalidPatch, s!"line {index + 1}: expected update hunk"⟩
    else do
      let (hunk, next) ← parsePatchHunk index line rest
      let (hunks, last) ← parseUpdateHunks (index + 1) next rest
      .ok (hunk :: hunks, last)

/-! ## Actions -/

/-- The loop of `parseAddAction`: the lines of the file, and the index behind them. -/
def parseAddLines : Nat → List Bytes → Except ToolErr (List Bytes × Nat)
  | index, [] => .ok ([], index)
  | index, line :: rest =>
    if isPatchActionHeader line then .ok ([], index)
    else if !hasPrefix line (ascii "+") then
      .error ⟨.invalidPatch, s!"line {index + 1}: add lines must start with +"⟩
    else do
      let (content, next) ← parseAddLines (index + 1) rest
      .ok (trimPrefix line (ascii "+") :: content, next)

/-- The content `parseAddAction` makes of lines. -/
def addContentOf (content : List Bytes) : Bytes :=
  if content = [] then [] else joinNewlines content ++ [newline]

def parseAddAction : Except ToolErr (ParsedAction × Nat) := do
  let path ← requiredPatchPath (trimPrefix header patchAddPrefix)
  let (content, next) ← parseAddLines (index + 1) rest
  .ok ({ operation := .add, path := path, addContent := addContentOf content }, next)

/-- `parsePatchMoveHeader`: the action with its destination, and the index behind the header. -/
def parsePatchMoveHeader (action : ParsedAction) : Except ToolErr (ParsedAction × Nat) :=
  match rest with
  | [] => .ok (action, index)
  | line :: _ =>
    if hasPrefix line patchMovePrefix then do
      let destination ← requiredPatchPath (trimPrefix line patchMovePrefix)
      .ok ({ action with destination := destination, operation := .move }, index + 1)
    else .ok (action, index)

def parseUpdateAction : Except ToolErr (ParsedAction × Nat) := do
  let path ← requiredPatchPath (trimPrefix header patchUpdatePrefix)
  let (action, start) ← parsePatchMoveHeader (index + 1) rest { operation := .update, path := path }
  let (hunks, next) ← parseUpdateHunks (index + 1) start rest
  if action.operation = .update ∧ hunks = [] then
    .error ⟨.invalidPatch, "update has no hunks"⟩
  else .ok ({ action with hunks := hunks }, next)

def parsePatchAction : Except ToolErr (ParsedAction × Nat) :=
  if hasPrefix header patchAddPrefix then parseAddAction index header rest
  else if hasPrefix header patchDeletePrefix then do
    let path ← requiredPatchPath (trimPrefix header patchDeletePrefix)
    .ok ({ operation := .delete, path := path }, index + 1)
  else if hasPrefix header patchUpdatePrefix then parseUpdateAction index header rest
  else .error ⟨.invalidPatch, s!"line {index + 1}: expected file action"⟩

/-- The loop of `parseApplyPatch`, at an index, with the index behind the last action. -/
def parseActions : Nat → Nat → List Bytes → Except ToolErr (List ParsedAction)
  | _, _, [] => .ok []
  | index, next, line :: rest =>
    if index < next then parseActions (index + 1) next rest
    else do
      let (action, next) ← parsePatchAction index line rest
      let actions ← parseActions (index + 1) next rest
      .ok (action :: actions)

/-! ## Documents -/

def validatePatchDocument : Except ToolErr Unit :=
  if Utf8.valid document && !document.contains 0 then .ok ()
  else .error ⟨.invalidPatch, "patch must be UTF-8 text without NUL bytes"⟩

/-- `strings.ReplaceAll` of a carriage return and a newline by a newline. -/
def normalizeNewlines : Bytes → Bytes
  | [] => []
  | b :: rest =>
    if b = carriageReturn ∧ rest.head? = some newline then normalizeNewlines rest
    else b :: normalizeNewlines rest

/-- The lines of `parseApplyPatch`: an empty line at the end is dropped. -/
def documentLines : List Bytes :=
  let lines := splitNewlines [] (normalizeNewlines document)
  if lines.getLast? = some [] then lines.dropLast else lines

/-- The actions between the two markers. -/
def parseApplyPatch : Except ToolErr ParsedPatch := do
  let _ ← validatePatchDocument document
  let lines := documentLines document
  if lines.length < 2 ∨ lines.head? ≠ some applyPatchBeginMarker ∨
      lines.getLast? ≠ some applyPatchEndMarker then
    .error ⟨.invalidPatch, "patch must have begin and end markers"⟩
  else
    let actions ← parseActions 1 1 lines.tail.dropLast
    if actions = [] then .error ⟨.invalidPatch, "patch has no actions"⟩
    else .ok ⟨actions, (actions.map (·.hunks.length)).sum⟩

def applyPatchPaths : Except ToolErr (List Bytes) := do
  let parsed ← parseApplyPatch document
  .ok (parsed.actions.flatMap fun action =>
    action.path :: if action.destination ≠ [] then [action.destination] else [])

end

end Peen.Tools
