import Peen.Tools.ApplyPatch
import Peen.Tools.Diff

/-!
# The read tool

`readFile` reads a whole file, as an image, as a PDF or as text by its name, and returns a window of
its lines.
-/

namespace Peen.Tools

open Files

/-- The executor with the limits and the library functions the other tools use. -/
structure HostExecutor extends Executor where
  protectedDirectory : Path
  maxReadBytes : Nat
  maxReadLines : Nat
  maxImageBytes : Nat
  maxPDFBytes : Nat
  maxEdits : Nat
  maxPatchFiles : Nat
  maxPatchHunks : Nat
  maxRemoveEntries : Nat
  /-- `strings.ToLower`. -/
  toLower : String → String
  /-- `strings.EqualFold`. -/
  equalFold : String → String → Bool
  /-- `http.DetectContentType`. -/
  detectContentType : Bytes → String
  /-- `pdfText`: the text of the pages, with their markers, and how many there are. -/
  pdfText : Bytes → Except ToolErr (Bytes × Nat)

structure ReadFileInput where
  path : String
  offset : Int := 0
  limit : Int := 0

/-- The window, and the hash of the whole file. -/
structure ReadFileOutput where
  path : Path
  content : Bytes := []
  firstLine : Nat := 0
  lastLine : Nat := 0
  totalLines : Nat := 0
  nextOffset : Nat := 0
  truncated : Bool := false
  sha256 : String
  mediaType : String := ""
  sizeBytes : Nat := 0
  image : Bytes := []
  pages : Nat := 0

/-! ## Windows -/

def normalizeOffset (offset : Int) : Nat := if offset ≤ 0 then 1 else offset.toNat

section
variable (e : HostExecutor)

section
variable (path : Path) (files : Tree) (resolved : Path) (input : ReadFileInput)

def resolveReadLimit (limit : Int) : Nat :=
  if limit ≤ 0 ∨ limit > e.maxReadLines then e.maxReadLines else limit.toNat

/-- The lines of the window and the next offset. -/
def buildReadWindow (content : Bytes) (sha : String) (input : ReadFileInput) : ReadFileOutput :=
  let lines := splitLines content
  let totalLines := lines.length
  let offset := normalizeOffset input.offset
  if offset > totalLines then
    { path := resolved, firstLine := offset, lastLine := offset - 1, totalLines := totalLines,
      sha256 := sha }
  else
    let lastLine := min (offset + resolveReadLimit e input.limit - 1) totalLines
    let truncated := decide (lastLine < totalLines)
    let window := joinNewlines ((lines.take lastLine).drop (offset - 1))
    let ended := !truncated && content.getLast? == some newline
    { path := resolved, content := if ended then window ++ [newline] else window,
      firstLine := offset, lastLine := lastLine, totalLines := totalLines,
      nextOffset := if truncated then lastLine + 1 else 0, truncated := truncated, sha256 := sha }

/-! ## Kinds of files -/

/-- `filepath.Ext` of a name, from its end: what was passed, then what is before it. -/
def extFrom : List Char → List Char → String
  | _, [] => ""
  | ext, c :: rest => if c = '.' then String.ofList (c :: ext) else extFrom (c :: ext) rest

def fileExt : Path → String
  | [] => ""
  | name :: _ => extFrom [] name.toList.reverse

def imageExtensions : List (String × String) :=
  [(".png", "image/png"), (".jpg", "image/jpeg"), (".jpeg", "image/jpeg"), (".gif", "image/gif"),
    (".webp", "image/webp")]

def imageMediaTypeForPath : Option String :=
  imageExtensions.lookup (e.toLower (fileExt path))

def isPDFPath : Bool := e.equalFold (fileExt path) ".pdf"

def pdfSignature : Bytes := [0x25, 0x50, 0x44, 0x46, 0x2D]

def readImageFile (mediaType : String) : Except ToolErr (Bytes × ReadFileOutput) := do
  let (content, _) ← readRegularFile files resolved e.maxImageBytes
  if e.detectContentType content ≠ mediaType then
    .error ⟨.imageContent, showPath resolved ++ " is not " ++ mediaType ++ " data"⟩
  else
    .ok (content,
      { path := resolved, sha256 := e.hashBytes content, mediaType := mediaType,
        sizeBytes := content.length, image := content })

def readPDFFile : Except ToolErr (Bytes × ReadFileOutput) := do
  let (content, _) ← readRegularFile files resolved e.maxPDFBytes
  if !pdfSignature.isPrefixOf content then
    .error ⟨.binaryContent, showPath resolved ++ " is not PDF data"⟩
  else
    let (text, pages) ← e.pdfText content
    .ok (content,
      { buildReadWindow e resolved text (e.hashBytes content) input with
        mediaType := "application/pdf", sizeBytes := content.length, pages := pages })

def readTextFile : Except ToolErr (Bytes × ReadFileOutput) := do
  let (content, _) ← readRegularFile files resolved e.maxReadBytes
  let _ ← requireText e.toExecutor resolved content
  .ok (content, buildReadWindow e resolved content (e.hashBytes content) input)

/-- What `Executor.ReadFile` reads of a resolved path: the content of the file and its output. -/
def readContent : Except ToolErr (Bytes × ReadFileOutput) :=
  match imageMediaTypeForPath e resolved with
  | some mediaType => readImageFile e files resolved mediaType
  | none =>
    if isPDFPath e resolved then readPDFFile e files resolved input
    else readTextFile e files resolved input

end

end

end Peen.Tools
