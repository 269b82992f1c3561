import Peen.Lib.Files
import Peen.Tools.PatchLines

/-!
# The patch tool

`preparePatch` checks every action of a patch against the filesystem as it is and computes what it
will write; `applyPreparedPatch` then makes the changes one after another. Diffs and cancellation
are left out; a temporary file that is renamed is one step.
-/

namespace Peen.Tools

open Files

def wrapPathError (e : Errno) (message : String) : ToolErr :=
  match e with
  | .noEntry => ⟨.notFound, message⟩
  | .alreadyExists | .notEmpty => ⟨.alreadyExists, message⟩
  | .notDirectory | .tooManyLinks | .isDirectory | .invalid => ⟨.filesystem, message⟩

/-- What an operation of the filesystem returns, its error wrapped. -/
def wrapPath {α : Type} (message : String) : Except Errno α → Except ToolErr α
  | .ok a => .ok a
  | .error e => .error (wrapPathError e message)

inductive PatchOperation where
  | add
  | update
  | delete
  | move
  deriving DecidableEq

/-- `patchAction`. An empty destination is none. -/
structure PatchAction where
  operation : PatchOperation
  path : String
  destination : String
  addContent : Bytes
  hunks : List PatchHunk

/-- An action, checked against the filesystem as it was. -/
structure PreparedPatchAction where
  operation : PatchOperation
  path : Path
  destination : Path
  oldContent : Bytes
  newContent : Bytes
  mode : Nat

/-- `Executor`, with what it takes from the standard library: `utf8.Valid` and the hex text of
`sha256.Sum256`. -/
structure Executor where
  workspace : Path
  home : Option Path
  maxWriteBytes : Nat
  maxPatchChangedBytes : Nat
  utf8Valid : Bytes → Bool
  hashBytes : Bytes → String

/-- What the ledger has for a path. -/
structure Observation where
  hash : String
  hasHash : Bool
  revision : Nat

/-- The filesystem, and what the turn has read of it. -/
structure ToolState where
  files : Tree
  observed : List (Path × Observation)
  observationRevision : Nat

section
variable (files : Tree) (e : Executor) (s : ToolState) (action : PatchAction) (claimed : List Path)
  (item : PreparedPatchAction) (path : Path) (content : Bytes) (mode : Nat)

def newFileMode : Nat := 0o644

/-! ## Paths -/

def splitPath : List Char → List Char → List String
  | name, [] => [String.ofList name]
  | name, c :: rest =>
    if c = '/' then String.ofList name :: splitPath [] rest else splitPath (name ++ [c]) rest

/-- `filepath.Clean` of names under a clean absolute path. -/
def cleanFrom (base : Path) (names : List String) : Path :=
  names.foldl (fun path name =>
    if name = "" ∨ name = "." then path else if name = ".." then path.tail else name :: path) base

def showPath : String := "/" ++ String.intercalate "/" path.reverse

def resolvePath (raw : String) : Except ToolErr Path :=
  let trimmed := trimSpace raw.toList
  match trimmed with
  | [] => .ok e.workspace
  | '~' :: rest =>
    if rest = [] ∨ rest.head? = some '/' then
      match e.home with
      | none => .error ⟨.validationFailed, "home directory is unavailable"⟩
      | some home => .ok (cleanFrom home (splitPath [] rest))
    else .ok (cleanFrom e.workspace (splitPath [] trimmed))
  | '/' :: rest => .ok (cleanFrom [] (splitPath [] rest))
  | _ => .ok (cleanFrom e.workspace (splitPath [] trimmed))

/-! ## Reading and observing -/

def trimPartialRune (window : Bytes) (total : Nat) : Bytes :=
  if window.length = total then window
  else
    let ends := [window.length, window.length - 1, window.length - 2, window.length - 3]
    ((ends.filter (0 < ·)).map window.take |>.find? e.utf8Valid).getD window

def binarySniffBytes : Nat := 8000

def isBinary : Bool :=
  let window := content.take binarySniffBytes
  window.contains 0 || !e.utf8Valid (trimPartialRune e window content.length)

def observationKey : Path :=
  match files.resolve path with
  | .ok resolved => resolved
  | .error _ => path

def ToolState.seen : Option Observation :=
  (s.observed.find? (·.1 == observationKey s.files path)).map (·.2)

/-- `Executor.record` of a content hash. -/
def ToolState.observeContent (hash : String) : ToolState :=
  let revision := if s.observationRevision < 2 ^ 64 - 1 then s.observationRevision + 1
    else s.observationRevision
  { s with
    observed := (observationKey s.files path, ⟨hash, true, revision⟩) ::
      s.observed.filter (·.1 != observationKey s.files path)
    observationRevision := revision }

def requireObservedContent : Except ToolErr Unit :=
  match s.seen path with
  | none => .error ⟨.notObserved, "read the file before changing it"⟩
  | some seen =>
    if !seen.hasHash then
      .error ⟨.hashRequired, "read the file contents with readFile before changing it"⟩
    else if seen.hash ≠ e.hashBytes content then .error ⟨.staleHash, showPath path⟩
    else .ok ()

def readRegularFile (maximum : Nat) : Except ToolErr (Bytes × Nat) :=
  match files.stat path with
  | .error e => .error (wrapPathError e "open filesystem file")
  | .ok (.file content mode) =>
    if content.length > maximum then .error ⟨.limitExceeded, "bounded file read"⟩
    else .ok (content, mode)
  | .ok _ => .error ⟨.notRegularFile, "bounded file read"⟩

/-! ## Preparation -/

def claimPatchPath : Except ToolErr (List Path) :=
  if claimed.contains path then .error ⟨.patchConflict, showPath path⟩ else .ok (path :: claimed)

/-- The check that nothing is at a path: `Lstat` has to answer that it does not exist. -/
def requireFree (exists_ stat : String) : Except ToolErr Unit :=
  match files.lstat path with
  | .ok _ => .error ⟨.alreadyExists, exists_⟩
  | .error .noEntry => .ok ()
  | .error e => .error (wrapPathError e stat)

def isProtectedPatchRoot (path workspace : Path) : Bool := path == workspace || path == []

def preparePatchAdd : Except ToolErr PreparedPatchAction :=
  if content.length > e.maxWriteBytes then
    .error ⟨.limitExceeded, "patch add exceeds write byte bound"⟩
  else do
    let _ ← requireFree s.files item.path "patch add destination" "stat patch add destination"
    .ok { item with newContent := content, mode := newFileMode }

def validatePatchUpdatePaths : Except ToolErr Unit :=
  if item.operation ≠ .move then .ok ()
  else if isProtectedPatchRoot item.path e.workspace then
    .error ⟨.validationFailed, "cannot move a protected root"⟩
  else requireFree s.files item.destination "move destination" "stat move destination"

def requireText : Except ToolErr Unit :=
  if isBinary e content then .error ⟨.binaryContent, showPath path⟩ else .ok ()

def preparePatchUpdate (hunks : List PatchHunk) : Except ToolErr PreparedPatchAction := do
  let _ ← validatePatchUpdatePaths e s item
  let (content, mode) ← readRegularFile s.files item.path e.maxPatchChangedBytes
  let _ ← requireText e item.path content
  let _ ← requireObservedContent e s item.path content
  let rewritten ← applyPatchHunks content hunks
  if rewritten.length > e.maxWriteBytes then
    .error ⟨.limitExceeded, "patched file exceeds write byte bound"⟩
  else .ok { item with oldContent := content, newContent := rewritten, mode := mode }

def preparePatchDelete : Except ToolErr PreparedPatchAction :=
  if isProtectedPatchRoot item.path e.workspace then
    .error ⟨.validationFailed, "cannot delete a protected root"⟩
  else do
    let (content, mode) ← readRegularFile s.files item.path e.maxPatchChangedBytes
    let _ ← requireObservedContent e s item.path content
    .ok { item with oldContent := content, mode := mode }

def claimPatchPaths : Except ToolErr (Path × Path × List Path) := do
  let path ← resolvePath e action.path
  let claimed ← claimPatchPath claimed path
  if action.destination = "" then .ok (path, [], claimed)
  else do
    let destination ← resolvePath e action.destination
    let claimed ← claimPatchPath claimed destination
    .ok (path, destination, claimed)

def prepareOperation : Except ToolErr PreparedPatchAction :=
  match action.operation with
  | .add => preparePatchAdd e s item action.addContent
  | .update | .move => preparePatchUpdate e s item action.hunks
  | .delete => preparePatchDelete e s item

def preparePatchAction : Except ToolErr (PreparedPatchAction × List Path) := do
  let (path, destination, claimed) ← claimPatchPaths e action claimed
  let item ← prepareOperation e s action ⟨action.operation, path, destination, [], [], 0⟩
  .ok (item, claimed)

/-- The loop of `Executor.preparePatch`. -/
def prepareActions (e : Executor) (s : ToolState) :
    List Path → Nat → List PatchAction → Except ToolErr (List PreparedPatchAction)
  | _, _, [] => .ok []
  | claimed, changedBytes, action :: actions => do
    let (item, claimed) ← preparePatchAction e s action claimed
    let changedBytes := changedBytes + item.oldContent.length + item.newContent.length
    if changedBytes > e.maxPatchChangedBytes then
      .error ⟨.limitExceeded, "patch changed content exceeds byte bound"⟩
    else do
      let prepared ← prepareActions e s claimed changedBytes actions
      .ok (item :: prepared)

/-- Check every action before the first change. Paths conflict as texts. -/
def preparePatch (actions : List PatchAction) : Except ToolErr (List PreparedPatchAction) :=
  prepareActions e s [] 0 actions

/-! ## Application -/

def resolveWriteTarget : Path :=
  match files.resolve path with
  | .ok resolved => resolved
  | .error _ => path

def writeFileAtomic : Except ToolErr Tree := do
  let path := resolveWriteTarget files path
  let _ ← wrapPath "create temporary file" (files.entry path)
  wrapPath "rename temporary file" (files.publish path content mode)

def writeNewFileAtomic : Except ToolErr Tree := do
  let _ ← wrapPath "create temporary file" (files.entry path)
  wrapPath "publish new file" (files.publishNew path content mode)

end

section
variable (e : Executor) (s : ToolState) (item : PreparedPatchAction)

inductive PatchOutcome where
  | applied
  | partially

structure ApplyPatchFileResult where
  operation : PatchOperation
  outcome : PatchOutcome
  path : Path
  destination : Path
  bytes : Nat
  sha256 : String

/-- What one action did: the state after it, what it reports, and its error. -/
structure ActionOutcome where
  state : ToolState
  result : Option ApplyPatchFileResult
  err : Option ToolErr

def ToolState.failed (e : ToolErr) : ActionOutcome := ⟨s, none, some e⟩

/-- `Executor.applyPatchWrite` after the parents were made. -/
def finishPatchWrite : Except ToolErr Tree → ActionOutcome
  | .error err => s.failed err
  | .ok files =>
    let hash := e.hashBytes item.newContent
    ⟨({ s with files := files }).observeContent item.path hash,
      some ⟨item.operation, .applied, item.path, [], item.newContent.length, hash⟩, none⟩

/-- `Executor.applyPatchWrite` with `createParents`. -/
def applyPatchAdd : ActionOutcome :=
  match s.files.mkdirAll item.path.tail with
  | .error err => s.failed (wrapPathError err "create patch destination parent")
  | .ok files =>
    finishPatchWrite e { s with files := files } item
      (writeNewFileAtomic files item.path item.newContent item.mode)

/-- `Executor.applyPatchWrite` without. -/
def applyPatchUpdate : ActionOutcome :=
  finishPatchWrite e s item (writeFileAtomic s.files item.path item.newContent item.mode)

def applyPatchDelete : ActionOutcome :=
  match s.files.remove item.path with
  | .error err => s.failed (wrapPathError err "delete patched file")
  | .ok files => ⟨{ s with files := files }, some ⟨.delete, .applied, item.path, [], 0, ""⟩, none⟩

/-- `Executor.applyPatchMove` after the destination was written. -/
def removeMoveSource : ActionOutcome :=
  let hash := e.hashBytes item.newContent
  let s := s.observeContent item.destination hash
  let result (outcome : PatchOutcome) : ApplyPatchFileResult :=
    ⟨.move, outcome, item.path, item.destination, item.newContent.length, hash⟩
  match s.files.remove item.path with
  | .error err => ⟨s, some (result .partially), some (wrapPathError err "remove patch move source")⟩
  | .ok files =>
    ⟨({ s with files := files }).observeContent item.destination hash, some (result .applied), none⟩

def applyPatchMove : ActionOutcome :=
  match s.files.mkdirAll item.destination.tail with
  | .error err => s.failed (wrapPathError err "create patch move destination parent")
  | .ok files =>
    match writeNewFileAtomic files item.destination item.newContent item.mode with
    | .error err => ({ s with files := files }).failed err
    | .ok files => removeMoveSource e { s with files := files } item

def applyPreparedAction : ActionOutcome :=
  match item.operation with
  | .add => applyPatchAdd e s item
  | .update => applyPatchUpdate e s item
  | .delete => applyPatchDelete s item
  | .move => applyPatchMove e s item

end

/-- What a patch did: the state after it, the files it reports, and the error that ended it. -/
structure PatchOutput where
  state : ToolState
  files : List ApplyPatchFileResult
  err : Option ToolErr

/-- Make the changes one after another; the first failure ends it. -/
def applyPreparedPatch (e : Executor) : ToolState → List PreparedPatchAction → PatchOutput
  | s, [] => ⟨s, [], none⟩
  | s, item :: items =>
    let outcome := applyPreparedAction e s item
    match outcome.err with
    | some err => ⟨outcome.state, outcome.result.toList, some err⟩
    | none =>
      let output := applyPreparedPatch e outcome.state items
      { output with files := outcome.result.toList ++ output.files }

end Peen.Tools
