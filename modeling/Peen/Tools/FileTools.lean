import Peen.Lib.Subtrees
import Peen.Tools.ReadFile

/-!
# The file tools of a turn

The tools that read and change the host filesystem, and the ledger of what the turn has read. A
recursive removal leaves no events. Cancellation and diffs are left out.
-/

namespace Peen.Tools

open Files

/-! ## The ledger -/

section
variable (s : ToolState) (t : Tree) (path : Path)

/-- `Executor.observe`: a content hash that was recorded stays. -/
def ToolState.observe : ToolState :=
  if (s.seen path).any (·.hasHash) then s
  else
    let revision := if s.observationRevision < 2 ^ 64 - 1 then s.observationRevision + 1
      else s.observationRevision
    { s with
      observed := (observationKey s.files path, ⟨"", false, revision⟩) ::
        s.observed.filter (·.1 != observationKey s.files path)
      observationRevision := revision }

def requireObserved : Except ToolErr Unit :=
  if (s.seen path).isSome then .ok ()
  else .error ⟨.notObserved, "read the path before changing it"⟩

/-! ## What a call did -/

/-- What a call did to a file, at its location in the tree. -/
inductive FileEvent where
  /-- The content was read or written there. -/
  | content (place : Loc) (bytes : Bytes)
  /-- The regular file there was replaced, moved or deleted. -/
  | took (place : Loc) (bytes : Bytes)

/-- The state after a call, its history, and its result. -/
structure Outcome (α : Type) where
  state : ToolState
  events : List FileEvent
  result : Except ToolErr α

def ToolState.refuse {α : Type} (s : ToolState) (err : ToolErr) : Outcome α := ⟨s, [], .error err⟩

def takeEvents (l : Loc) : List FileEvent :=
  match t.node l with
  | some (.file bytes _) => [.took l bytes]
  | _ => []

def readEvents (bytes : Bytes) : List FileEvent :=
  match t.resolve path with
  | .ok l => [.content l bytes]
  | .error _ => []

def publishEvents (bytes : Bytes) : List FileEvent :=
  match t.entry path with
  | .ok l => takeEvents t l ++ [.content l bytes]
  | .error _ => []

def removeEvents : List FileEvent :=
  match t.entry path with
  | .ok l => takeEvents t l
  | .error _ => []

/-- The entry of a path is renamed. A regular file has the same content at its new place. -/
def renameEvents (source destination : Path) : List FileEvent :=
  match t.entry source, t.entry destination with
  | .ok s, .ok d =>
    match t.node s with
    | some (.file bytes _) => [.took s bytes, .content d bytes]
    | _ => []
  | _, _ => []

end

/-! ## Reading -/

/-- Read a file and record its hash. -/
def readFile (e : HostExecutor) (s : ToolState) (input : ReadFileInput) :
    Outcome ReadFileOutput :=
  match resolvePath e.toExecutor input.path with
  | .error err => s.refuse err
  | .ok path =>
    match readContent e s.files path input with
    | .error err => s.refuse err
    | .ok (content, output) =>
      ⟨s.observeContent path (e.hashBytes content), readEvents s.files path content, .ok output⟩

/-! ## Writing -/

/-- A file is replaced through its path, and its new content recorded. -/
def overwriteFile {α : Type} (e : HostExecutor) (s : ToolState) (path : Path) (content : Bytes)
    (mode : Nat) (output : α) : Outcome α :=
  match writeFileAtomic s.files path content mode with
  | .error err => s.refuse err
  | .ok files =>
    ⟨({ s with files := files }).observeContent path (e.hashBytes content),
      publishEvents s.files (resolveWriteTarget s.files path) content, .ok output⟩

structure WriteFileInput where
  path : String
  content : Bytes
  expectedSHA256 : String := ""

structure WriteFileOutput where
  path : Path
  created : Bool
  bytes : Nat
  sha256 : String

section
variable (e : HostExecutor) (s : ToolState) (path : Path) (input : WriteFileInput)

def finishWrite (content : Bytes) (created : Bool) : WriteFileOutput :=
  ⟨path, created, content.length, e.hashBytes content⟩

def createFile : Outcome WriteFileOutput :=
  if input.expectedSHA256 ≠ "" then
    s.refuse ⟨.validationFailed, "expected hash on a path that does not exist"⟩
  else
    match s.files.mkdirAll path.tail with
    | .error err => s.refuse (wrapPathError err "create parent directory")
    | .ok files =>
      match writeNewFileAtomic files path input.content newFileMode with
      | .error err => ({ s with files := files }).refuse err
      | .ok files' =>
        ⟨({ s with files := files' }).observeContent path (e.hashBytes input.content),
          publishEvents files path input.content, .ok (finishWrite e path input.content true)⟩

/-- The checks of `Executor.replaceFile`: the mode of the file it may replace. -/
def checkReplace (expected : String) : Except ToolErr Nat :=
  if expected = "" then .error ⟨.hashRequired, showPath path⟩
  else do
    let (current, mode) ← readRegularFile s.files path e.maxWriteBytes
    let _ ← requireObservedContent e.toExecutor s path current
    if e.hashBytes current ≠ expected then .error ⟨.staleHash, showPath path⟩ else .ok mode

/-- Replace a file that is still as it was read. -/
def replaceFile : Outcome WriteFileOutput :=
  match checkReplace e s path input.expectedSHA256 with
  | .error err => s.refuse err
  | .ok mode =>
    overwriteFile e s path input.content mode (finishWrite e path input.content false)

def writeFileLocked : Outcome WriteFileOutput :=
  match s.files.stat path with
  | .error .noEntry => createFile e s path input
  | .error err => s.refuse (wrapPathError err "stat write path")
  | .ok (.file _ _) => replaceFile e s path input
  | .ok _ => s.refuse ⟨.notRegularFile, showPath path⟩

def blankPath (raw : String) : Bool := (trimSpace raw.toList).isEmpty

def writeFile : Outcome WriteFileOutput :=
  if blankPath input.path then s.refuse ⟨.validationFailed, "write path is required"⟩
  else if input.content.length > e.maxWriteBytes then
    s.refuse ⟨.limitExceeded, "content exceeds write bound"⟩
  else
    match resolvePath e.toExecutor input.path with
    | .error err => s.refuse err
    | .ok path => writeFileLocked e s path input

end

/-! ## Editing -/

structure EditFileInput where
  path : String
  edits : List TextEdit

structure EditFileOutput where
  path : Path
  applied : Nat
  sha256 : String

section
variable (e : HostExecutor) (s : ToolState) (path : Path) (edits : List TextEdit)

/-- The checks of `Executor.applyEditsLocked`: what it will write, and the mode of the file. -/
def prepareEdits : Except ToolErr (Bytes × Nat) := do
  let (content, mode) ← readRegularFile s.files path e.maxWriteBytes
  let _ ← requireText e.toExecutor path content
  let _ ← requireObservedContent e.toExecutor s path content
  let found ← matchEdits content edits
  let _ ← checkOverlaps found
  .ok ((applyMatches content found).1, mode)

def applyEditsLocked : Outcome EditFileOutput :=
  match prepareEdits e s path edits with
  | .error err => s.refuse err
  | .ok (rewritten, mode) =>
    overwriteFile e s path rewritten mode ⟨path, edits.length, e.hashBytes rewritten⟩

def resolveEditPath (raw : String) : Except ToolErr Path :=
  if blankPath raw then .error ⟨.validationFailed, "path is required"⟩
  else resolvePath e.toExecutor raw

def editFile (input : EditFileInput) : Outcome EditFileOutput :=
  match resolveEditPath e input.path with
  | .error err => s.refuse err
  | .ok path =>
    match validateEdits input.edits e.maxEdits with
    | .error err => s.refuse err
    | .ok _ => applyEditsLocked e s path input.edits

/-! ## Moving -/

structure MovePathInput where
  source : String
  destination : String

structure MovePathOutput where
  source : Path
  destination : Path

/-- `Executor.requireMoveObservation`: the hash of a regular file. -/
def requireMoveObservation (source : Path) : Node → Except ToolErr (Option String)
  | .file _ _ => do
    let (content, _) ← readRegularFile s.files source e.maxWriteBytes
    let _ ← requireObservedContent e.toExecutor s source content
    .ok (some (e.hashBytes content))
  | .dir | .link _ _ => do
    let _ ← requireObserved s source
    .ok none

/-- The checks of `Executor.movePathLocked`. -/
def checkMove (source destination : Path) : Except ToolErr (Option String) := do
  let info ← wrapPath "stat move source" (s.files.lstat source)
  let contentHash ← requireMoveObservation e s source info
  let _ ← requireFree s.files destination "move destination" "stat move destination"
  .ok contentHash

/-- What `Executor.movePathLocked` records of the destination. -/
def ToolState.observeMoved (destination : Path) : Option String → ToolState
  | some hash => s.observeContent destination hash
  | none => s.observe destination

/-- Move an entry to a name where nothing is. -/
def movePathLocked (source destination : Path) : Outcome MovePathOutput :=
  match checkMove e s source destination with
  | .error err => s.refuse err
  | .ok contentHash =>
    match s.files.mkdirAll destination.tail with
    | .error err => s.refuse (wrapPathError err "create destination parent")
    | .ok files =>
      match files.renameNoReplace source destination with
      | .error err => ({ s with files := files }).refuse (wrapPathError err "rename path")
      | .ok files' =>
        ⟨({ s with files := files' }).observeMoved destination contentHash,
          renameEvents files source destination, .ok ⟨source, destination⟩⟩

def movePath (input : MovePathInput) : Outcome MovePathOutput :=
  if blankPath input.source || blankPath input.destination then
    s.refuse ⟨.validationFailed, "source and destination are required"⟩
  else
    match resolvePath e.toExecutor input.source, resolvePath e.toExecutor input.destination with
    | .error err, _ => s.refuse err
    | .ok _, .error err => s.refuse err
    | .ok source, .ok destination => movePathLocked e s source destination

end

/-! ## Removing -/

structure RemovePathInput where
  path : String
  recursive : Bool := false
  expectedSHA256 : String := ""

structure RemovePathOutput where
  path : Path
  removed : Nat
  deriving DecidableEq

section
variable (t : Tree) (e : HostExecutor) (s : ToolState) (path : Path) (expected : String)
  (input : RemovePathInput)

def removeEntry (message : String) : Outcome RemovePathOutput :=
  match s.files.remove path with
  | .error err => s.refuse (wrapPathError err message)
  | .ok files => ⟨{ s with files := files }, removeEvents s.files path, .ok ⟨path, 1⟩⟩

/-- The checks of `Executor.removeFile`. -/
def checkRemove : Except ToolErr Unit :=
  if expected = "" then .error ⟨.hashRequired, showPath path⟩
  else do
    let (content, _) ← readRegularFile s.files path e.maxWriteBytes
    let _ ← requireObservedContent e.toExecutor s path content
    if e.hashBytes content ≠ expected then .error ⟨.staleHash, showPath path⟩ else .ok ()

def removeFile : Outcome RemovePathOutput :=
  match checkRemove e s path expected with
  | .error err => s.refuse err
  | .ok _ => removeEntry s path "remove file"

def removeLink : Outcome RemovePathOutput :=
  removeEntry s path "remove link"

def hasEntriesAt : Bool :=
  match t.resolve path with
  | .ok l => t.hasEntries l
  | .error _ => false

def removeEmptyDirectory : Outcome RemovePathOutput :=
  if hasEntriesAt s.files path then s.refuse ⟨.directoryNotEmpty, showPath path⟩
  else removeEntry s path "remove empty directory"

def countTreeEntries : Nat :=
  match t.entry path with
  | .ok l => t.countUnder l
  | .error _ => 0

def removeDirectoryTree : Outcome RemovePathOutput :=
  let total := countTreeEntries s.files path
  if total > e.maxRemoveEntries then s.refuse ⟨.limitExceeded, "too many entries to remove"⟩
  else
    match s.files.removeAll path with
    | .error err => s.refuse (wrapPathError err "remove directory tree")
    | .ok files => ⟨{ s with files := files }, [], .ok ⟨path, total⟩⟩

def removeDirectory : Outcome RemovePathOutput :=
  if input.expectedSHA256 ≠ "" then
    s.refuse ⟨.validationFailed, "directory removal does not take a content hash"⟩
  else if !input.recursive then removeEmptyDirectory s path
  else removeDirectoryTree e s path

/-- Remove an entry, with everything below it if asked to. -/
def removePathLocked : Outcome RemovePathOutput :=
  match s.files.lstat path with
  | .error err => s.refuse (wrapPathError err "stat remove path")
  | .ok info =>
    match requireObserved s path with
    | .error err => s.refuse err
    | .ok _ =>
      match info with
      | .dir => removeDirectory e s path input
      | .file _ _ => removeFile e s path input.expectedSHA256
      | .link _ _ => removeLink s path

def removePath : Outcome RemovePathOutput :=
  if blankPath input.path then s.refuse ⟨.validationFailed, "remove path is required"⟩
  else
    match resolvePath e.toExecutor input.path with
    | .error err => s.refuse err
    | .ok path =>
      if path = e.workspace ∨ path = e.protectedDirectory ∨ path = [] then
        s.refuse ⟨.validationFailed, "refusing to remove the workspace root or filesystem root"⟩
      else removePathLocked e s path input

end

/-! ## Making directories -/

section
variable (files : Tree) (item : PreparedPatchAction) (e : HostExecutor) (s : ToolState)

/-- `Executor.missingAncestors`: the paths up to the first that is there, it last. -/
def missingAncestors (t : Tree) : Path → List Path
  | [] => []
  | c :: p =>
    match t.stat (c :: p) with
    | .error .noEntry => missingAncestors t p ++ [c :: p]
    | _ => []

structure MakeDirectoryOutput where
  path : Path
  created : List Path

def ensureDirectory (t : Tree) (path : Path) : Except ToolErr (Tree × List Path) :=
  match t.stat path with
  | .ok .dir => .ok (t, [])
  | .ok _ => .error ⟨.notDirectory, showPath path⟩
  | .error .noEntry =>
    if (missingAncestors t path).length > e.maxRemoveEntries then
      .error ⟨.limitExceeded, "too many directories to create"⟩
    else do
      let files ← wrapPath "create directory" (t.mkdirAll path)
      .ok (files, missingAncestors t path)
  | .error err => .error (wrapPathError err "stat directory path")

def makeDirectory (raw : String) : Outcome MakeDirectoryOutput :=
  if blankPath raw then s.refuse ⟨.validationFailed, "directory path is required"⟩
  else
    match resolvePath e.toExecutor raw with
    | .error err => s.refuse err
    | .ok path =>
      match ensureDirectory e s.files path with
      | .error err => s.refuse err
      | .ok (files, created) =>
        ⟨({ s with files := files }).observe path, [], .ok ⟨path, created⟩⟩

/-! ## Patching -/

def createEvents (path : Path) (item : PreparedPatchAction) : List FileEvent :=
  match files.mkdirAll path.tail with
  | .error _ => []
  | .ok files =>
    match writeNewFileAtomic files path item.newContent item.mode with
    | .error _ => []
    | .ok _ => publishEvents files path item.newContent

def deleteEvents : List FileEvent :=
  match files.remove item.path with
  | .error _ => []
  | .ok _ => removeEvents files item.path

/-- The filesystem after a move action has written its destination. -/
def moveWritten : Except ToolErr Tree := do
  let files ← wrapPath "create patch move destination parent" (files.mkdirAll item.destination.tail)
  writeNewFileAtomic files item.destination item.newContent item.mode

def actionEvents : List FileEvent :=
  match item.operation with
  | .add => createEvents files item.path item
  | .update =>
    match writeFileAtomic files item.path item.newContent item.mode with
    | .error _ => []
    | .ok _ => publishEvents files (resolveWriteTarget files item.path) item.newContent
  | .delete => deleteEvents files item
  | .move =>
    match moveWritten files item with
    | .error _ => []
    | .ok files' => createEvents files item.destination item ++ deleteEvents files' item

def patchEvents (e : HostExecutor) : ToolState → List PreparedPatchAction → List FileEvent
  | _, [] => []
  | s, item :: items =>
    let outcome := applyPreparedAction e.toExecutor s item
    actionEvents s.files item ++
      match outcome.err with
      | some _ => []
      | none => patchEvents e outcome.state items

/-- `Executor.ApplyPatch` of a parsed document: the files it reports, and the error that ended it. -/
def applyPatch (actions : List PatchAction) :
    Outcome (List ApplyPatchFileResult × Option ToolErr) :=
  if actions.length > e.maxPatchFiles then s.refuse ⟨.limitExceeded, "too many patch files"⟩
  else if (actions.map (·.hunks.length)).sum > e.maxPatchHunks then
    s.refuse ⟨.limitExceeded, "too many patch hunks"⟩
  else
    match preparePatch e.toExecutor s actions with
    | .error err => s.refuse err
    | .ok prepared =>
      let output := applyPreparedPatch e.toExecutor s prepared
      ⟨output.state, patchEvents e s prepared, .ok (output.files, output.err)⟩

/-! ## Runs -/

/-- The calls; which paths a listing observes is open. -/
inductive ToolCall where
  | readFile (input : ReadFileInput)
  | writeFile (input : WriteFileInput)
  | editFile (input : EditFileInput)
  | movePath (input : MovePathInput)
  | removePath (input : RemovePathInput)
  | makeDirectory (path : String)
  | applyPatch (actions : List PatchAction)
  /-- `ListFiles` or `SearchText`, which observe paths without their contents. -/
  | look (paths : List Path)

def call : ToolCall → ToolState × List FileEvent
  | .readFile input => ((readFile e s input).state, (readFile e s input).events)
  | .writeFile input => ((writeFile e s input).state, (writeFile e s input).events)
  | .editFile input => ((editFile e s input).state, (editFile e s input).events)
  | .movePath input => ((movePath e s input).state, (movePath e s input).events)
  | .removePath input => ((removePath e s input).state, (removePath e s input).events)
  | .makeDirectory path => ((makeDirectory e s path).state, (makeDirectory e s path).events)
  | .applyPatch actions => ((applyPatch e s actions).state, (applyPatch e s actions).events)
  | .look paths => (paths.foldl ToolState.observe s, [])

/-- A regular file that was replaced, moved or deleted: its bytes, and the content the executor had
last read or written at its real path. -/
structure Taken where
  place : Loc
  bytes : Bytes
  known : Option Bytes

/-- What the calls read and wrote, by real path, and what they took. -/
structure History where
  known : List (Loc × Bytes) := []
  taken : List Taken := []

def History.knownAt (h : History) (l : Loc) : Option Bytes :=
  (h.known.find? (·.1 == l)).map (·.2)

def History.add (h : History) : FileEvent → History
  | .content place bytes => { h with known := (place, bytes) :: h.known }
  | .took place bytes => { h with taken := h.taken ++ [⟨place, bytes, h.knownAt place⟩] }

/-- The tools with the history of their calls. -/
structure Host where
  state : ToolState
  history : History := {}

/-- A turn starts with an empty ledger. -/
def opened : Host := { state := ⟨files, [], 0⟩ }

end

/-- What happens on the host: a call, or a change from outside between two calls. -/
inductive HostStep where
  | call (c : ToolCall)
  | outside (files : Tree)

def step (e : HostExecutor) (w : Host) : HostStep → Option Host
  | .call c =>
    let (state, events) := call e w.state c
    some ⟨state, events.foldl History.add w.history⟩
  | .outside files => some { w with state := { w.state with files := files } }

end Peen.Tools
