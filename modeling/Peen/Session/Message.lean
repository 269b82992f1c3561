import Peen.Base

/-!
# Stored messages

The rows of the table `messages`, as the transcript, the replayed history and compaction read them.
-/

namespace Peen

/-- `models.MessageRole`; a row may hold a role that does not exist. -/
inductive MessageRole where
  | system
  | user
  | assistant
  | tool
  | unknown (text : String)
  deriving DecidableEq

/-- `elelem.ToolCall`, which `tool_calls_json` lists. -/
structure ToolCall where
  id : String
  name : String
  arguments : String
  deriving DecidableEq

/-- `StoredImage`, which `images_json` lists. -/
structure StoredImage where
  mediaType : String
  sizeBytes : Nat
  blob : String
  deriving DecidableEq

/-- A row of `messages`. JSON columns are what is read from them; a text that is refused is none. -/
structure Message where
  id : UUID
  sessionID : UUID
  turnID : UUID
  sequence : Int
  role : MessageRole
  content : String
  thinking : String
  providerReasoningJSON : String
  toolCallsJSON : Option (List ToolCall)
  toolCallID : String
  compactionID : Option UUID
  isError : Bool
  incomplete : Bool
  imagesJSON : Option (List StoredImage)
  deriving DecidableEq

structure Compaction where
  id : UUID
  sessionID : UUID
  fromMessageID : UUID
  toMessageID : UUID
  fromSequence : Int
  toSequence : Int
  summary : String
  sourceMessageCount : Int
  inputTokenCount : Int
  summaryTokenCount : Int
  modelID : String
  promptHash : String
  supersedesCompactionID : Option UUID
  deriving DecidableEq

/-- The row a compaction asks for. -/
structure CompactionInput where
  id : UUID
  fromMessageID : UUID
  toMessageID : UUID
  fromSequence : Int
  toSequence : Int
  directFromSequence : Int
  directToSequence : Int
  summary : String
  sourceMessageCount : Int
  inputTokenCount : Int
  summaryTokenCount : Int
  modelID : String
  promptHash : String
  supersedesCompactionID : Option UUID
  deriving DecidableEq

/-- `History`: the active summary, and the rows it does not cover. -/
structure History where
  compaction : Option Compaction
  messages : List Message

end Peen
