import Peen.Base

/-!
# Context and prompt snapshots

A turn runs with a resolved context and an effective prompt, kept as rows under a hash that all
sessions share. Requests are modelled as decoded.
-/

namespace Peen.Snapshots

open List

structure ContextSnapshot where
  hash : String
  manifestJSON : String
  resolvedContent : String
  createdAt : Nat := 0

structure PromptSnapshot where
  hash : String
  effectivePrompt : String
  createdAt : Nat := 0

structure Turn where
  id : UUID
  sessionID : UUID
  running : Bool := true
  contextSnapshotHash : Option String := none
  promptSnapshotHash : Option String := none

structure Tables where
  sessions : List UUID := []
  turns : List Turn := []
  contextSnapshots : List ContextSnapshot := []
  promptSnapshots : List PromptSnapshot := []

/-- What the two tables share. -/
structure SnapshotKind (σ : Type) where
  name : String
  hash : σ → String
  createdAt : σ → Nat
  setCreatedAt : Nat → σ → σ
  check : σ → Except Err Unit
  /-- The hash a turn names. -/
  reference : Turn → Option String
  hash_setCreatedAt : ∀ now snapshot, hash (setCreatedAt now snapshot) = hash snapshot

variable {σ : Type}

/-- The kind of context snapshots; `json.Valid` is a parameter. -/
def contextKind (jsonValid : String → Bool) : SnapshotKind ContextSnapshot where
  name := "context"
  hash := ContextSnapshot.hash
  createdAt := ContextSnapshot.createdAt
  setCreatedAt now snapshot := { snapshot with createdAt := now }
  check snapshot :=
    if jsonValid snapshot.manifestJSON then .ok ()
    else .error ⟨.validationFailed, "invalid context snapshot manifest JSON"⟩
  reference := Turn.contextSnapshotHash
  hash_setCreatedAt _ _ := rfl

def promptKind : SnapshotKind PromptSnapshot where
  name := "prompt"
  hash := PromptSnapshot.hash
  createdAt := PromptSnapshot.createdAt
  setCreatedAt now snapshot := { snapshot with createdAt := now }
  check _ := .ok ()
  reference := Turn.promptSnapshotHash
  hash_setCreatedAt _ _ := rfl

section
variable (k : SnapshotKind σ)

namespace SnapshotKind

section
variable (now : Nat) (rows : List σ) (snapshot : σ)

/-- The row a snapshot is saved as: without a creation time it gets the store's. -/
def stamp : σ :=
  if k.createdAt snapshot = 0 then k.setCreatedAt now snapshot else snapshot

def find (rows : List σ) (hash : String) : Option σ :=
  rows.find? fun row => k.hash row == hash

/-- `Create` on a table keyed by hash, where a duplicate key is success. -/
def insert : List σ :=
  match k.find rows (k.hash snapshot) with
  | some _ => rows
  | none => rows ++ [snapshot]

/-- What `SaveContextSnapshot` and `SavePromptSnapshot` check. -/
def checkSave : Except Err Unit := do
  if k.hash snapshot = "" then
    throw ⟨.requiredFieldNotSet, k.name ++ " snapshot hash"⟩
  k.check snapshot

/-- `SaveContextSnapshot` and `SavePromptSnapshot` on their table. -/
def save : Except Err (List σ) := do
  k.checkSave snapshot
  return k.insert rows (k.stamp now snapshot)

end

/-- `assertContextSnapshotReference` and `assertPromptSnapshotReference`. -/
def referenced (turns : List Turn) (sessionID : UUID)
    (hash : String) : Bool :=
  turns.any fun turn => turn.sessionID == sessionID && k.reference turn == some hash

/-- `GetContextSnapshot` and `GetPromptSnapshot`. -/
def get (sessions : List UUID) (turns : List Turn)
    (rows : List σ) (sessionID : UUID) (hash : String) : Except Err σ := do
  if !sessions.contains sessionID then throw ⟨.notFound, "query session"⟩
  if !k.referenced turns sessionID hash then
    throw ⟨.notFound, "find session " ++ k.name ++ " snapshot reference"⟩
  match k.find rows hash with
  | none => throw ⟨.notFound, "get " ++ k.name ++ " snapshot"⟩
  | some row => return row

end SnapshotKind

/-- Whether `finishTurn` updates this turn. -/
def Turn.matches (turn : Turn) (sessionID turnID : UUID) : Bool :=
  turn.id == turnID && turn.sessionID == sessionID && turn.running

/-- The turn with the hashes `finishTurn` is given. -/
def Turn.finish (turn : Turn) (contextHash promptHash : Option String) : Turn :=
  { turn with running := false, contextSnapshotHash := contextHash.or turn.contextSnapshotHash,
              promptSnapshotHash := promptHash.or turn.promptSnapshotHash }

def SnapshotKind.keyExists (rows : List σ) (hash : Option String) : Bool :=
  hash.all fun hash => (k.find rows hash).isSome

end

/-- Of the end of a turn, what concerns its snapshots. -/
def Tables.finishTurn (jsonValid : String → Bool) (db : Tables) (sessionID turnID : UUID)
    (contextHash promptHash : Option String) : Except Err Tables := do
  if !db.turns.any (·.matches sessionID turnID) then
    throw ⟨.invalidState, "turn is no longer running"⟩
  if !(contextKind jsonValid).keyExists db.contextSnapshots contextHash ||
      !promptKind.keyExists db.promptSnapshots promptHash then
    throw ⟨.storage, "finish turn"⟩
  return { db with turns := db.turns.map fun turn =>
    if turn.matches sessionID turnID then turn.finish contextHash promptHash else turn }

/-! ## What a table answers -/

section
variable {k : SnapshotKind σ} {hash : String}

namespace SnapshotKind

theorem hash_of_find (h : k.find rows hash = some row) : k.hash row = hash := by
  simpa using find?_some h

theorem find_insert_of_some (h : k.find rows hash = some row) (snapshot : σ) :
    k.find (k.insert rows snapshot) hash = some row := by
  unfold insert
  split
  · exact h
  · unfold find at h ⊢
    rw [find?_append, h]
    rfl

theorem find_insert_new (h : k.find rows (k.hash snapshot) = none) :
    k.find (k.insert rows snapshot) (k.hash snapshot) = some snapshot := by
  unfold insert
  rw [h]
  unfold find at h ⊢
  rw [find?_append, h, Option.none_or, find?_singleton]
  simp

theorem find_insert_cases (h : k.find (k.insert rows snapshot) hash = some row) :
    k.find rows hash = some row ∨
      (row = snapshot ∧ k.hash snapshot = hash ∧ k.find rows hash = none) := by
  cases hold : k.find rows hash with
  | some first =>
    rw [k.find_insert_of_some hold snapshot] at h
    exact .inl h
  | none =>
    unfold insert at h
    split at h
    · rw [hold] at h
      cases h
    · unfold find at h hold
      rw [find?_append, hold, Option.none_or] at h
      have hmem : row = snapshot := mem_singleton.1 (mem_of_find?_eq_some h)
      refine .inr ⟨hmem, ?_, rfl⟩
      have hhash := find?_some h
      rw [hmem] at hhash
      exact eq_of_beq hhash

end SnapshotKind

end

end Peen.Snapshots
