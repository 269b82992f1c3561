import Peen.ContentBlob.Compact

/-!
# Expanding a document

`Expand` replaces the references of a compacted document by the blobs they name, layer by layer,
at most `maxExpandDepth` times.
-/

namespace Peen.ContentBlob

def isCompacted (raw : Bytes) : Bool :=
  envelopeStart.isPrefixOf raw && envelopeSuffix.isSuffixOf raw

def envelopeBody (raw : Bytes) : Bytes :=
  (raw.drop envelopeStart.length).take (raw.length - envelopeSuffix.length - envelopeStart.length)

/-! ## References -/

/-- The reference in front of `s`: its hash and what follows. -/
def referenceHere (s : Bytes) : Option (Hash × Bytes) :=
  if referenceStart.isPrefixOf s then
    let s := s.drop referenceStart.length
    let rest := s.drop hashLength
    if referenceEnd.isPrefixOf rest then
      some (s.take hashLength, rest.drop referenceEnd.length)
    else none
  else none

/-- `nextReference`: the bytes in front of the first reference, its hash and what follows. -/
def nextReference : Bytes → Option (Bytes × Hash × Bytes)
  | [] => none
  | b :: s =>
    match referenceHere (b :: s) with
    | some (hash, rest) => some ([], hash, rest)
    | none => (nextReference s).map fun (before, hash, rest) => (b :: before, hash, rest)

/-- The references `referencesIn` and `splice` walk through, each with the bytes in front of it,
and the bytes behind the last one. A reference has bytes, so as many steps as the body has bytes
are enough. -/
def pieces : Nat → Bytes → List (Bytes × Hash) × Bytes
  | 0, body => ([], body)
  | fuel + 1, body =>
    match nextReference body with
    | none => ([], body)
    | some (before, hash, rest) =>
      let (ps, tail) := pieces fuel rest
      ((before, hash) :: ps, tail)

def referencesIn (body : Bytes) : List Hash :=
  ((pieces body.length body).1.map Prod.snd).eraseDups

abbrev Found := List (Hash × Bytes)

/-- `splice`. A hash that is not found contributes no bytes. -/
def splice (body : Bytes) (blobs : Found) : Bytes :=
  let (ps, tail) := pieces body.length body
  ps.flatMap (fun p => p.1 ++ (blobs.lookup p.2).getD []) ++ tail

/-! ## Expand -/

def hashString (h : Hash) : String := String.ofList (h.map fun b => Char.ofNat b.toNat)

/-- A fetch of blobs by their hashes, over a state. -/
abbrev FetchFunc (σ : Type) := List Hash → σ → Except Err Found × σ

/-- What `Expand` answers when the last layer still holds references. -/
def tooDeep : Err :=
  ⟨.validationFailed, "compacted document nests references deeper than " ++ toString maxExpandDepth⟩

section
variable {σ : Type}

/-- The loop of `Expand`. -/
def expandLayers (fetch : FetchFunc σ) : Nat → Bytes → σ → Except Err Bytes × σ
  | 0, _, s => (.error tooDeep, s)
  | n + 1, body, s =>
    let hashes := referencesIn body
    if hashes.isEmpty then (.ok body, s)
    else
      match fetch hashes s with
      | (.error e, s) => (.error ⟨e.kind, "fetch content blobs: " ++ e.message⟩, s)
      | (.ok blobs, s) =>
        match hashes.find? fun h => (blobs.lookup h).isNone with
        | some h => (.error ⟨.notFound, "content blob " ++ hashString h⟩, s)
        | none => expandLayers fetch n (splice body blobs) s

/-- `Expand`. A fetch function may keep a state of its own, which is threaded. -/
def expand (raw : Bytes) (fetch : FetchFunc σ) (s : σ) : Except Err Bytes × σ :=
  if !isCompacted raw then (.ok raw, s)
  else if (referencesIn (envelopeBody raw)).isEmpty then
    (.error ⟨.validationFailed, "compacted document holds no blob references"⟩, s)
  else expandLayers fetch maxExpandDepth (envelopeBody raw) s

end

def validBlob (sum : Bytes → Digest) (valid : Bytes → Bool) (hash : Hash) (data : Bytes) : Bool :=
  !data.isEmpty && hashOf sum data == hash && valid (openBracket :: data ++ [closeBracket])

def fetchFrom (blobs : List Blob) : FetchFunc Unit := fun hashes s =>
  (.ok (hashes.filterMap fun h =>
    (blobs.find? fun b => b.hash == h).map fun b => (h, b.data)), s)

end Peen.ContentBlob
