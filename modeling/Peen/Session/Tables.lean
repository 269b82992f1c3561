import Mathlib.Data.List.Sort
import Peen.Session.ExecutionActivity
import Peen.Session.Message

/-!
# The tables of a session

The rows the store keeps for one session. Every statement names the session, so those of others are
not here; an insert that meets an id of theirs fails. Times, the feed's events and the notices are
left out.
-/

namespace Peen.Sessions

open Executions

/-! ## Rows -/

inductive TurnState where
  | running
  | completed
  | failed
  | cancelled
  | interrupted
  deriving DecidableEq

/-- `models.Turn`. The worker generation is a text, empty when there is none. -/
structure Turn where
  id : UUID
  requestID : UUID
  workspace : String
  state : TurnState
  cancelRequested : Bool
  workerGenerationID : String
  stopRevision : Nat
  deriving DecidableEq

/-- `models.ExecutionTurnLease`: the stored holder of a root execution's turn. -/
structure ExecutionTurnLease where
  executionID : UUID
  turnID : UUID
  leaseID : UUID
  ownerGenerationID : UUID
  controlRevision : Nat
  workerGenerationID : Option UUID
  deriving DecidableEq

inductive InboxMessageState where
  | queued
  | delivered
  | deferred
  | forwarded
  deriving DecidableEq

structure ExecutionInboxPart where
  content : String
  skillName : String
  skillIsNote : Bool
  deriving DecidableEq

/-- `models.ExecutionInboxMessage`. The columns that hold JSON are kept as what they encode. -/
structure ExecutionInboxMessage where
  id : UUID
  executionID : UUID
  turnID : UUID
  requestID : UUID
  sourceEventID : Option UUID
  sequence : Nat
  workingDirectory : String
  message : String
  parts : List ExecutionInboxPart
  images : List StoredImage
  state : InboxMessageState
  deliveredActivityID : Option UUID
  forwardedExecutionID : Option UUID
  stopRevision : Nat
  deriving DecidableEq

/-- `models.AgentRunMessage`: a row of the transcript of a child agent. -/
structure AgentRunMessage where
  agentRunID : UUID
  role : MessageRole
  content : String
  images : List StoredImage
  deriving DecidableEq

/-- The newest `models.WorkerGeneration`: whether it is starting or ready. -/
structure WorkerGeneration where
  id : UUID
  active : Bool
  deriving DecidableEq

/-- The rows of one session, each table in the order of insertion. -/
structure Tables where
  messageCount : Int
  stopRevision : Nat
  worker : Option WorkerGeneration
  turns : List Turn
  messages : List Message
  compactions : List Compaction
  turnLeases : List ExecutionTurnLease
  inbox : List ExecutionInboxMessage
  agentRunMessages : List AgentRunMessage
  executions : Store
  deriving DecidableEq

def Tables.empty : Tables := ⟨0, 0, none, [], [], [], [], [], [], ⟨[], [], []⟩⟩

/-! ## Requests -/

/-- The right to write to a turn. -/
structure Lease where
  id : UUID
  turnID : UUID
  deriving DecidableEq

/-- The text a request gives for `tool_calls_json`. -/
inductive ToolCallsText where
  | empty
  | invalid
  /-- JSON that is no list of calls. -/
  | other
  | calls (list : List ToolCall)
  deriving DecidableEq

/-- What `json.Unmarshal` reads from the column; an empty text is stored as `[]`. -/
def ToolCallsText.decode : ToolCallsText → Option (List ToolCall)
  | .empty => some []
  | .calls list => some list
  | .invalid | .other => none

structure MessageInput where
  id : UUID
  role : MessageRole
  content : String
  thinking : String
  providerReasoningJSON : String
  toolCallsJSON : ToolCallsText
  toolCallID : String
  isError : Bool
  incomplete : Bool
  images : Option (List StoredImage)

def MessageInput.plain (role : MessageRole) (content : String) : MessageInput where
  id := UUID.nil
  role := role
  content := content
  thinking := ""
  providerReasoningJSON := ""
  toolCallsJSON := .empty
  toolCallID := ""
  isError := false
  incomplete := false
  images := some []

structure StartTurnInput where
  requestID : UUID
  workspace : String
  messages : List MessageInput
  expectedStopRevision : Option Int
  workerGenerationID : String

/-- `FinalizeTurnInput`, with the text `renderTurnEndMessage` renders for it. -/
structure FinalizeTurnInput where
  state : TurnState
  messages : List MessageInput
  endMessage : String

/-- `TurnEnd`, with the text `renderTurnEndMessage` renders for it. -/
structure TurnEnd where
  state : TurnState
  endMessage : String

/-- The session, the limits of the store, and what it takes from libraries. -/
structure Config extends Executions.Config where
  sessionID : UUID
  /-- `json.Marshal` of a compaction. -/
  encodeCompaction : CompactionInput → String
  /-- `json.Marshal` of a projection's messages. -/
  encodeMessages : List MessageInput → String
  /-- `json.Marshal` of the parts of an inbox message. -/
  encodeParts : List ExecutionInboxPart → String
  /-- `uuid.NewSHA1`. -/
  newSHA1 : UUID → String → UUID
  /-- `UUID.String`. -/
  uuidText : UUID → String
  /-- `uuid.Parse`. -/
  parseUUID : String → Option UUID
  /-- The field `execution.context.inboxIds` of a saved input; `none` when it cannot be decoded. -/
  inboxIDs : String → Option (List UUID)

def isTerminalState : TurnState → Bool
  | .completed | .failed | .cancelled | .interrupted => true
  | .running => false

def isMessageRole : MessageRole → Bool
  | .system | .user | .assistant | .tool => true
  | .unknown _ => false

def roleText : MessageRole → String
  | .system => "system"
  | .user => "user"
  | .assistant => "assistant"
  | .tool => "tool"
  | .unknown text => text

namespace Tables

/-! ## Turns -/

section
variable (s : Tables)

def turn? (turnID : UUID) : Option Turn := s.turns.find? (·.id == turnID)

def updateTurn (turnID : UUID) (f : Turn → Turn) : Tables :=
  { s with turns := s.turns.map fun t => if t.id == turnID then f t else t }

/-- `INSERT INTO turns`. -/
def createTurn (turn : Turn) : Except Err Tables :=
  if s.turns.any (·.id == turn.id) then .error ⟨.storage, "create running turn"⟩
  else .ok { s with turns := s.turns ++ [turn] }

def findRunningTurn (turnID : UUID) : Except Err Turn :=
  match s.turns.find? fun t => t.id == turnID && t.state == .running with
  | none => .error ⟨.invalidState, "turn is not running"⟩
  | some turn => .ok turn

/-! ## Reads of the history -/

/-- The join of a message with its turn, where the turn is not running. -/
def hasEnded (m : Message) : Bool :=
  s.turns.any fun t => t.id == m.turnID && t.state != .running

/-- `ORDER BY sequence`; sequences are unique. -/
def sortBySequence (l : List Message) : List Message :=
  l.insertionSort fun a b => a.sequence ≤ b.sequence

/-- The query `CompletedHistory`. -/
def completedHistoryAfter (afterSequence : Int) : List Message :=
  sortBySequence (s.messages.filter fun m => s.hasEnded m && afterSequence < m.sequence)

def completedHistoryRange (fromSequence toSequence : Int) : List Message :=
  sortBySequence (s.messages.filter fun m =>
    s.hasEnded m && (fromSequence ≤ m.sequence && m.sequence ≤ toSequence))

def countCompletedHistoryRange (fromSequence toSequence : Int) : Nat :=
  s.messages.countP fun m => s.hasEnded m && (fromSequence ≤ m.sequence && m.sequence ≤ toSequence)

def countCompletedHistoryBefore (afterSequence beforeSequence : Int) : Nat :=
  s.messages.countP fun m =>
    s.hasEnded m && (afterSequence < m.sequence && m.sequence < beforeSequence)

def unsuperseded : List Compaction :=
  s.compactions.filter fun c => !s.compactions.any fun newer =>
    newer.supersedesCompactionID == some c.id

/-- The newest compaction that none supersedes. -/
def activeHead : Option Compaction :=
  (s.unsuperseded.insertionSort fun a b =>
    b.toSequence < a.toSequence ∨ b.toSequence = a.toSequence ∧ b.id ≤ a.id).head?

/-- `CompletedHistory`: ended turns behind the active compaction. -/
def completedHistory : History :=
  let afterSequence := match s.activeHead with
    | none => 0
    | some head => head.toSequence
  ⟨s.activeHead, s.completedHistoryAfter afterSequence⟩

end

end Tables

end Peen.Sessions
