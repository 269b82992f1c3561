import Peen.Base
import Peen.Lib.Json
import Peen.Lib.Runs

/-!
# Compacting a document

`Compact` moves every long string value and every long run of array elements of a JSON document into
blobs and leaves references to them behind. An index into `raw` is here what lies behind it;
`sha256.Sum256` and `json.Valid` are parameters.
-/

namespace Peen.ContentBlob

abbrev Digest := Vector UInt8 32

/-- A blob's key: the lowercase hex text of a digest, as bytes. -/
abbrev Hash := Bytes

/-! ## Constants -/

/-- What is shorter stays where it is. -/
def minBlobBytes : Nat := 512

def runBoundaryModulus : Nat := 8

def maxRunLevels : Nat := 16

/-- A run is closed after so many elements in any case. -/
def maxRunElements : Nat := 64

def maxExpandDepth : Nat := 32

def hashLength : Nat := 64

def escapedOpen : Bytes := ascii "\\u003C"

def escapedClose : Bytes := ascii "\\u003E"

def markerText : Bytes := escapedOpen ++ ascii "peen-blob"

/-- `envelopePrefix`. -/
def envelopeStart : Bytes :=
  ascii "\x7b\"" ++ escapedOpen ++ ascii "peen-blobs" ++
    escapedClose ++ ascii "\":"

def envelopeSuffix : Bytes := ascii "\x7d"

def referenceStart : Bytes := ascii "\x7b\"" ++ markerText ++ escapedClose ++ ascii "\":\""

def referenceEnd : Bytes := ascii "\"\x7d"

def quote : UInt8 := 0x22
def backslash : UInt8 := 0x5C
def comma : UInt8 := 0x2C
def colon : UInt8 := 0x3A
def openBrace : UInt8 := 0x7B
def closeBrace : UInt8 := 0x7D
def openBracket : UInt8 := 0x5B
def closeBracket : UInt8 := 0x5D

/-! ## Hashes -/

def hexDigit (n : Nat) : UInt8 := UInt8.ofNat (if n < 10 then 48 + n else 87 + n)

def encodeToString (d : Digest) : Hash :=
  d.toList.flatMap fun b => [hexDigit (b.toNat / 16), hexDigit (b.toNat % 16)]

/-- Moved content with its hash. -/
structure Blob where
  hash : Hash
  data : Bytes

def contains (raw text : Bytes) : Bool :=
  match raw with
  | [] => text.isEmpty
  | b :: rest => text.isPrefixOf (b :: rest) || contains rest text

section
variable (sum : Bytes → Digest)

def hashOf (data : Bytes) : Hash := encodeToString (sum data)

/-- The blobs and the `seen` set of a `compactor`. -/
structure Compactor where
  blobs : List Blob := []
  seen : List Hash := []

/-- The bytes `compactor.reference` returns. -/
def referenceText (hash : Hash) : Bytes := referenceStart ++ hash ++ referenceEnd

/-- What `compactor.reference` records. -/
def Compactor.record (c : Compactor) (data : Bytes) : Compactor :=
  let hash := hashOf sum data
  if c.seen.contains hash then c
  else { blobs := c.blobs ++ [⟨hash, data⟩], seen := hash :: c.seen }

def Compactor.reference (c : Compactor) (data : Bytes) : Bytes × Compactor :=
  (referenceText (hashOf sum data), c.record sum data)

/-- The element's own hash, or the length of the run, ends the run. -/
def runBoundary (element : Bytes) (length : Nat) : Bool :=
  if length ≥ maxRunElements then true
  else (sum element)[0].toNat % runBoundaryModulus == 0

/-! ## Scanning -/

/-- `skipSpace`: the white space in front and what follows it. -/
def skipSpace (s : Bytes) : Bytes × Bytes := (s.takeWhile Json.isSpace, s.dropWhile Json.isSpace)

/-- The bytes that end a number, `true`, `false` or `null`. -/
def endsPrimitive (b : UInt8) : Bool :=
  b == comma || b == closeBrace || b == closeBracket || Json.isSpace b

def primitiveEnd (s : Bytes) : Bytes × Bytes :=
  (s.takeWhile fun b => !endsPrimitive b, s.dropWhile fun b => !endsPrimitive b)

/-- `stringLiteralEnd`: the bytes behind an opening quote up to the closing one, and what follows.
A backslash takes the next byte with it. -/
def stringLiteralEnd : Bytes → Option (Bytes × Bytes)
  | [] => none
  | b :: s =>
    if b = backslash then
      match s with
      | [] => none
      | e :: s => (stringLiteralEnd s).map fun (body, rest) => (b :: e :: body, rest)
    else if b = quote then some ([b], s)
    else (stringLiteralEnd s).map fun (body, rest) => (b :: body, rest)

/-- `memberValue`: a member's key and colon with the white space around them, and what follows. -/
def memberValue (s : Bytes) : Option (Bytes × Bytes) :=
  match s with
  | [] => none
  | b :: s =>
    if b ≠ quote then none
    else do
      let (key, s) ← stringLiteralEnd s
      match skipSpace s with
      | (_, []) => none
      | (before, b' :: s) =>
        if b' ≠ colon then none
        else
          let (after, s) := skipSpace s
          some (b :: key ++ before ++ b' :: after, s)

/-- `separator`: what follows a value up to the next value or key, or up to the closing byte
(then `true`), and the rest. -/
def separator (closing : UInt8) (s : Bytes) : Option (Bool × Bytes × Bytes) :=
  match skipSpace s with
  | (_, []) => none
  | (before, b :: s) =>
    if b = comma then
      let (after, s) := skipSpace s
      some (false, before ++ b :: after, s)
    else if b = closing then some (true, before ++ [b], s)
    else none

/-! ## Runs of array elements -/

/-- An element with the separator before it. -/
structure ArrayElement where
  gap : Bytes
  compacted : Bytes

/-- `runSpan`: the first gap stays outside. -/
def runSpan : List ArrayElement → Bytes
  | [] => []
  | e :: es => e.compacted ++ es.flatMap fun e => e.gap ++ e.compacted

def runGap (run : List ArrayElement) : Bytes := (run.head?.map ArrayElement.gap).getD []

namespace Compactor

/-- What `foldRuns` does with the closed runs, one after the other. -/
def foldClosed : List (List ArrayElement) → Compactor →
    List ArrayElement × Bool × Compactor
  | [], c => ([], false, c)
  | run :: runs, c =>
    if (runSpan run).length < minBlobBytes then
      let (folded, changed, c) := foldClosed runs c
      (run ++ folded, changed, c)
    else
      let (ref, c) := c.reference sum (runSpan run)
      let (folded, _, c) := foldClosed runs c
      ({ gap := runGap run, compacted := ref } :: folded, true, c)

/-- `compactor.foldRuns`: the open run at the end stays as it is. -/
def foldRuns (c : Compactor) (elements : List ArrayElement) :
    List ArrayElement × Bool × Compactor :=
  let (runs, rest) := Runs.cut (fun e n => runBoundary sum e.compacted n) [] elements
  let (folded, changed, c) := foldClosed sum runs c
  (folded ++ rest, changed, c)

/-- The loop of `compactor.array` over the levels. -/
def foldLevels : Nat → List ArrayElement → Compactor → List ArrayElement × Compactor
  | 0, elements, c => (elements, c)
  | n + 1, elements, c =>
    let (folded, changed, c) := c.foldRuns sum elements
    if changed then foldLevels n folded c else (elements, c)

/-! ## The walker -/

end Compactor

mutual

/-- `compactor.value`, `compactor.object` and `compactor.array`: the compacted bytes of the value
in front, what follows it, and the compactor afterwards. -/
def value : Nat → Bytes → Compactor → Option (Bytes × Bytes × Compactor)
  | 0, _, _ => none
  | _ + 1, [], _ => none
  | fuel + 1, b :: s, c =>
    if b = quote then do
      let (body, rest) ← stringLiteralEnd s
      let literal := b :: body
      if literal.length ≥ minBlobBytes then
        let (ref, c) := c.reference sum literal
        some (ref, rest, c)
      else some (literal, rest, c)
    else if b = openBrace then
      match skipSpace s with
      | (_, []) => none
      | (gap, b' :: s) =>
        if b' = closeBrace then some (b :: gap ++ [b'], s, c)
        else members fuel gap (b' :: s) c |>.map fun (out, rest, c) => (b :: out, rest, c)
    else if b = openBracket then
      match skipSpace s with
      | (_, []) => none
      | (gap, b' :: s) =>
        if b' = closeBracket then some (b :: gap ++ [b'], s, c)
        else arrayElements fuel gap (b' :: s) c |>.map fun (elements, closing, rest, c) =>
          let (elements, c) := Compactor.foldLevels sum maxRunLevels elements c
          (b :: elements.flatMap (fun e => e.gap ++ e.compacted) ++ closing, rest, c)
    else
      match primitiveEnd (b :: s) with
      | ([], _) => none
      | (text, rest) => some (text, rest, c)

/-- The loop of `compactor.object`, from the bytes in front of a member on: the members, compacted,
and the closing brace. -/
def members : Nat → Bytes → Bytes → Compactor → Option (Bytes × Bytes × Compactor)
  | 0, _, _, _ => none
  | fuel + 1, gap, s, c => do
    let (key, s) ← memberValue s
    let (compacted, s, c) ← value fuel s c
    let (closed, between, s) ← separator closeBrace s
    if closed then some (gap ++ key ++ compacted ++ between, s, c)
    else
      let (out, rest, c) ← members fuel between s c
      some (gap ++ key ++ compacted ++ out, rest, c)

/-- The loop of `compactor.arrayElements`, from the gap in front of an element on: the elements,
what closes the array, and the rest. -/
def arrayElements : Nat → Bytes → Bytes → Compactor →
    Option (List ArrayElement × Bytes × Bytes × Compactor)
  | 0, _, _, _ => none
  | fuel + 1, gap, s, c => do
    let (compacted, s, c) ← value fuel s c
    let (closed, between, s) ← separator closeBracket s
    if closed then some ([⟨gap, compacted⟩], between, s, c)
    else
      let (elements, closing, rest, c) ← arrayElements fuel between s c
      some (⟨gap, compacted⟩ :: elements, closing, rest, c)

end

/-- Fuel enough for the walker on `raw`. -/
def compactFuel (raw : Bytes) : Nat := 2 * raw.length + 1

/-- `Compact`. A document that is invalid, short or carries the marker is left as it is. -/
def compact (valid : Bytes → Bool) (raw : Bytes) : Bytes × List Blob :=
  if raw.length < minBlobBytes || contains raw markerText || !valid raw then (raw, [])
  else
    let (before, s) := skipSpace raw
    match value sum (compactFuel raw) s {} with
    | none => (raw, [])
    | some (body, rest, c) =>
      if (skipSpace rest).2 ≠ [] then (raw, [])
      else if c.blobs.isEmpty then (raw, [])
      else (envelopeStart ++ before ++ body ++ rest ++ envelopeSuffix, c.blobs)

end

end Peen.ContentBlob
