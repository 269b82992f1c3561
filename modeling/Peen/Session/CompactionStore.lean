import Peen.Session.Transcript

/-!
# Storing a compaction

What the store checks when a root compaction activity completes with a compaction, and what it then
writes.
-/

namespace Peen.Sessions

section
variable (input : CompactionInput)

def invalidCompactionIdentity (activityID : UUID) : Bool :=
  (input.id != UUID.nil && input.id != activityID) || input.fromMessageID == UUID.nil ||
    input.toMessageID == UUID.nil

def invalidCompactionMetadata : Bool :=
  isBlank input.summary || isBlank input.modelID || isBlank input.promptHash ||
    input.sourceMessageCount < 1 || input.inputTokenCount < 0 || input.summaryTokenCount < 0

def directBounds : CompactionInput :=
  { input with
    directFromSequence :=
      if input.directFromSequence = 0 then input.fromSequence else input.directFromSequence
    directToSequence :=
      if input.directToSequence = 0 then input.toSequence else input.directToSequence }

def normalizeCompactionInput : Except Err CompactionInput :=
  if input.fromSequence ≤ 0 ∨ input.toSequence < input.fromSequence then
    .error ⟨.validationFailed, "invalid compaction sequence bounds"⟩
  else
    let input := directBounds input
    if input.directFromSequence < input.fromSequence ∨
        input.directToSequence < input.directFromSequence ∨
        input.directToSequence > input.toSequence then
      .error ⟨.validationFailed, "invalid direct compaction sequence bounds"⟩
    else .ok input

end

def validateActivityCompaction (cfg : Config) (input : CompactionInput) (activityID : UUID) :
    Except Err CompactionInput :=
  if invalidCompactionIdentity input activityID || invalidCompactionMetadata input then
    .error ⟨.validationFailed, "invalid compaction completion"⟩
  else if (cfg.encodeCompaction input).utf8ByteSize > cfg.maxStoredMessageBytes then
    .error ⟨.validationFailed, "compaction exceeds stored message limit"⟩
  else normalizeCompactionInput { input with id := activityID }

def compactionRecord (cfg : Config) (input : CompactionInput) : Compaction where
  id := input.id
  sessionID := cfg.sessionID
  fromMessageID := input.fromMessageID
  toMessageID := input.toMessageID
  fromSequence := input.fromSequence
  toSequence := input.toSequence
  summary := input.summary
  sourceMessageCount := input.sourceMessageCount
  inputTokenCount := input.inputTokenCount
  summaryTokenCount := input.summaryTokenCount
  modelID := input.modelID
  promptHash := input.promptHash
  supersedesCompactionID := input.supersedesCompactionID

def invalidCompactionPredecessor (head : Compaction) (input : CompactionInput) : Bool :=
  input.supersedesCompactionID != some head.id || input.fromMessageID != head.fromMessageID ||
    input.fromSequence != head.fromSequence || input.directFromSequence ≤ head.toSequence ||
    input.directToSequence != input.toSequence

def invalidCompactionBounds (messages : List Message) (input : CompactionInput)
    (priorCount : Int) : Bool :=
  messages.head?.map (·.sequence) != some input.directFromSequence ||
    messages.getLast?.map (·.sequence) != some input.directToSequence ||
    messages.getLast?.map (·.id) != some input.toMessageID ||
    (messages.length : Int) != input.sourceMessageCount - priorCount

namespace Tables

section
variable (messages : List Message) (s : Tables) (compaction : Compaction) (ids : List UUID)
  (m : Message) (input : CompactionInput) (priorCount : Int)

/-- The turn at an end has completed. -/
def validateCompactionBoundaryTurn : Except Err Unit :=
  match s.turn? m.turnID with
  | none => .error ⟨.notFound, "read compaction boundary turn"⟩
  | some turn =>
    if turn.state ≠ .completed ∨ m.incomplete then
      .error ⟨.conflict, "compaction boundary is unfinished"⟩
    else .ok ()

def validateCompactionBoundary (messageID : UUID) (sequence : Int) : Except Err Unit :=
  match s.messages.find? (·.id == messageID) with
  | none => .error ⟨.validationFailed, "compaction boundary is missing from this session"⟩
  | some m =>
    if m.sequence ≠ sequence then
      .error ⟨.validationFailed, "compaction boundary sequence differs"⟩
    else s.validateCompactionBoundaryTurn m

/-- `validateCompactionChain`: the count and the end of the chain's head. -/
def validateCompactionChain : Except Err (Int × Int) :=
  match s.activeHead with
  | none =>
    if input.supersedesCompactionID ≠ none ∨ input.directFromSequence ≠ input.fromSequence ∨
        input.directToSequence ≠ input.toSequence then
      .error ⟨.conflict, "compaction predecessor is missing"⟩
    else .ok (0, 0)
  | some head =>
    if invalidCompactionPredecessor head input then
      .error ⟨.conflict, "compaction predecessor changed"⟩
    else .ok (head.sourceMessageCount, head.toSequence)

def validateCompactionPrefix (afterSequence beforeSequence : Int) : Except Err Unit :=
  if s.countCompletedHistoryBefore afterSequence beforeSequence ≠ 0 then
    .error ⟨.conflict, "compaction skips completed history"⟩
  else .ok ()

def readDirectCompactionMessages : Except Err (List Message) :=
  let count : Int :=
    s.countCompletedHistoryRange input.directFromSequence input.directToSequence
  if count < 1 ∨ count ≠ input.sourceMessageCount - priorCount then
    .error ⟨.validationFailed, "compaction source count differs"⟩
  else .ok (s.completedHistoryRange input.directFromSequence input.directToSequence)

def validateCompactionMessage : Except Err Unit :=
  if m.compactionID ≠ none then
    .error ⟨.conflict, "compaction message is already replaced"⟩
  else
    match s.turn? m.turnID with
    | none => .error ⟨.notFound, "read compacted message turn"⟩
    | some turn =>
      if turn.state = .running then
        .error ⟨.conflict, "compaction message turn is still running"⟩
      else .ok ()

def validatedCompactionIDs (s : Tables) : List Message → Except Err (List UUID)
  | [] => .ok []
  | m :: messages => do
    let _ ← s.validateCompactionMessage m
    let ids ← s.validatedCompactionIDs messages
    .ok (m.id :: ids)

/-- The check of `validateCompactionHistory` on the first compaction of a chain. -/
def checkFirstMessage : Except Err Unit :=
  if priorCount = 0 ∧ messages.head?.map (·.id) ≠ some input.fromMessageID then
    .error ⟨.validationFailed, "compaction first message differs"⟩
  else .ok ()

/-- The check of `validateCompactionHistory` on the bounds. -/
def checkBounds : Except Err Unit :=
  if invalidCompactionBounds messages input priorCount then
    .error ⟨.validationFailed, "compaction history bounds or count differ"⟩
  else .ok ()

/-- Nothing is skipped, and the count is right. -/
def validateCompactionHistory : Except Err (List UUID) := do
  let _ ← s.validateCompactionBoundary input.fromMessageID input.fromSequence
  let _ ← s.validateCompactionBoundary input.toMessageID input.toSequence
  let (priorCount, afterSequence) ← s.validateCompactionChain input
  let _ ← s.validateCompactionPrefix afterSequence input.directFromSequence
  let messages ← s.readDirectCompactionMessages input priorCount
  let _ ← checkBounds messages input priorCount
  let _ ← checkFirstMessage messages input priorCount
  s.validatedCompactionIDs messages

/-- `INSERT INTO compactions`, with the primary key and the key of the superseded row. -/
def insertCompaction : Except Err Tables :=
  if s.compactions.any fun c => c.id == compaction.id ||
      (compaction.supersedesCompactionID.isSome &&
        c.supersedesCompactionID == compaction.supersedesCompactionID) then
    .error ⟨.storage, "create compaction"⟩
  else .ok { s with compactions := s.compactions ++ [compaction] }

/-- `UPDATE messages SET compaction_id = ? WHERE id IN ? AND compaction_id IS NULL`. -/
def assignCompaction (compactionID : UUID) : Tables :=
  { s with messages := s.messages.map fun m =>
      if ids.contains m.id && m.compactionID == none then
        { m with compactionID := some compactionID }
      else m }

/-- `createCompactionForMessages`. A batch that assigns fewer rows than it names fails, so all
batches together assign as many rows as there are ids. -/
def createCompactionForMessages : Except Err Tables :=
  if ids = [] then
    .error ⟨.invalidState, "compaction has no unassigned completed messages"⟩
  else do
    let s ← s.insertCompaction compaction
    if s.messages.countP (fun m => ids.contains m.id && m.compactionID == none) ≠ ids.length then
      .error ⟨.conflict, "compaction source assignments changed"⟩
    else .ok (s.assignCompaction ids compaction.id)

/-- `Store.createCompaction`: the messages that get the id are the whole ones of the range that have
none. -/
def createCompactionRow : Except Err Tables :=
  let messages := s.completedHistoryRange input.directFromSequence input.directToSequence
  s.createCompactionForMessages compaction
    ((messages.filter fun m => m.compactionID == none && !m.incomplete).map (·.id))

end

/-- `Store.CreateCompaction`, which checks no chain. -/
def createCompaction (cfg : Config) (s : Tables) (input : CompactionInput) (newID : UUID) :
    Except Err (Compaction × Tables) := do
  let normalized ← normalizeCompactionInput input
  let compaction := compactionRecord cfg
    { normalized with id := if normalized.id = UUID.nil then newID else normalized.id }
  let s ← s.createCompactionRow compaction normalized
  .ok (compaction, s)

/-- The part of `Store.saveActivityCompaction` that writes the row of a root. -/
def saveActivityCompaction (cfg : Config) (s : Tables) (activityID : UUID)
    (input : CompactionInput) : Except Err Tables := do
  let normalized ← validateActivityCompaction cfg input activityID
  let ids ← s.validateCompactionHistory normalized
  s.createCompactionForMessages (compactionRecord cfg normalized) ids

end Tables

end Peen.Sessions
