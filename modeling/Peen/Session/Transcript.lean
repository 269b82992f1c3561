import Peen.Session.Tables

/-!
# Turns and their transcript

How a turn is admitted, how its messages are written, how it ends and how it is resumed.
-/

namespace Peen.Sessions

/-! ## Writing messages -/

def checkStoredMessageSize (cfg : Config) (input : MessageInput) : Except Err Unit :=
  if input.content.utf8ByteSize ≤ cfg.maxStoredMessageBytes then .ok ()
  else .error ⟨.validationFailed, "message content is " ++ toString input.content.utf8ByteSize ++
    " bytes, over the " ++ toString cfg.maxStoredMessageBytes ++ " byte limit"⟩

/-- The checks of `Store.newMessage`. -/
def checkMessage (cfg : Config) (input : MessageInput) : Except Err Unit :=
  if isMessageRole input.role = false then
    .error ⟨.validationFailed, "invalid message role \"" ++ roleText input.role ++ "\""⟩
  else if input.toolCallsJSON = .invalid then
    .error ⟨.validationFailed, "invalid message tool calls JSON"⟩
  else checkStoredMessageSize cfg input

/-- The row `Store.newMessage` makes. -/
def messageRow (cfg : Config) (turnID : UUID) (sequence : Int) (newID : UUID)
    (input : MessageInput) : Message where
  id := if input.id = UUID.nil then newID else input.id
  sessionID := cfg.sessionID
  turnID := turnID
  sequence := sequence
  role := input.role
  content := input.content
  thinking := input.thinking
  providerReasoningJSON := input.providerReasoningJSON
  toolCallsJSON := input.toolCallsJSON.decode
  toolCallID := input.toolCallID
  compactionID := none
  isError := input.isError
  incomplete := input.incomplete
  imagesJSON := input.images

/-- The loop of `Store.appendMessages`: `newID` gives the ids `s.newID` returns, in order. -/
def newMessages (cfg : Config) (turnID : UUID) :
    (newID : Nat → UUID) → (currentCount : Int) → List MessageInput → Except Err (List Message)
  | _, _, [] => .ok []
  | newID, currentCount, input :: inputs => do
    let _ ← checkMessage cfg input
    let messages ← newMessages cfg turnID (fun i => newID (i + 1)) (currentCount + 1) inputs
    .ok (messageRow cfg turnID (currentCount + 1) (newID 0) input :: messages)

namespace Tables

section
variable (cfg : Config) (s : Tables) (expected : Option Int) (turnID : UUID) (newID : Nat → UUID)
  (inputs : List MessageInput)

/-- `INSERT INTO messages`, with the primary key and the key (session, sequence). -/
def createMessages (rows : List Message) : Except Err Tables :=
  if (rows.map (·.id)).Nodup ∧ ∀ row ∈ rows, ∀ m ∈ s.messages,
      m.id ≠ row.id ∧ m.sequence ≠ row.sequence then
    .ok { s with messages := s.messages ++ rows }
  else .error ⟨.storage, "append transcript messages"⟩

/-- `Store.appendMessages`, and the update of the session's message count. -/
def appendMessages : Except Err Tables := do
  let rows ← newMessages cfg turnID newID s.messageCount inputs
  let s ← s.createMessages rows
  .ok { s with messageCount := s.messageCount + rows.length }

/-- Messages of a running turn get the next sequences. -/
def appendTranscript : Except Err Tables := do
  let _ ← s.findRunningTurn turnID
  appendMessages cfg s turnID newID inputs

/-! ## Opening a turn -/

def validateStopRevision (current : Nat) : Except Err Unit :=
  match expected with
  | none => .ok ()
  | some revision =>
    if revision < 0 then .error ⟨.validationFailed, "negative admission stop revision"⟩
    else if revision ≠ current then
      .error ⟨.conflict, "session stopped after request acceptance"⟩
    else .ok ()

def admissionStopRevision : Except Err Nat := do
  let _ ← validateStopRevision expected s.stopRevision
  .ok s.stopRevision

def newTurn (input : StartTurnInput) (revision : Nat) : Turn where
  id := turnID
  requestID := input.requestID
  workspace := input.workspace
  state := .running
  cancelRequested := false
  workerGenerationID := input.workerGenerationID
  stopRevision := revision

/-- `Store.admitTurn`. The opening notices are outside the tables. -/
def admitTurn (input : StartTurnInput) (newID : Nat → UUID) : Except Err Tables := do
  let revision ← s.admissionStopRevision input.expectedStopRevision
  let s ← s.createTurn (newTurn turnID input revision)
  appendTranscript cfg s turnID newID input.messages

/-! ## Ending a turn -/

def markIncomplete (p : Message → Bool) : Tables :=
  { s with messages := s.messages.map fun m =>
      if m.turnID == turnID && p m then { m with incomplete := true } else m }

/-- `Store.appendTurnEndMessage`, and the part of `Store.recordTurnEndNotice` that skips it for a
completed turn. -/
def appendTurnEndMessage (turnID newID : UUID) (state : TurnState) (text : String) :
    Except Err Tables :=
  if state = .completed then .ok s
  else appendMessages cfg s turnID (fun _ => newID) [.plain .system text]

/-- The turn's state, and a message that tells how it ended. -/
def finishTurn (turnID newID : UUID) (input : FinalizeTurnInput) : Except Err Tables :=
  match s.findRunningTurn turnID with
  | .error _ => .error ⟨.invalidState, "turn is no longer running"⟩
  | .ok _ => appendTurnEndMessage cfg (s.updateTurn turnID fun t => { t with state := input.state })
      turnID newID input.state input.endMessage

/-- `Store.markUnfinishedMessages`: what the user and the system said arrived whole. -/
def markUnfinishedMessages (state : TurnState) : Tables :=
  if state = .completed then s
  else s.markIncomplete turnID fun m => m.role != .user && m.role != .system

/-- `Store.runFinalizeTurnTransaction`: the messages get the ids `newID` gives from the second one
on, the end message the first one. -/
def finalizeTurn (input : FinalizeTurnInput) (newID : Nat → UUID) : Except Err Tables := do
  let s ← appendTranscript cfg s turnID (fun i => newID (i + 1)) input.messages
  let s ← finishTurn cfg s turnID (newID 0) input
  .ok (s.markUnfinishedMessages turnID input.state)

/-- `Store.endRunningTurn`: whether the turn was still running. -/
def endRunningTurn (turnID newID : UUID) (ending : TurnEnd) : Except Err (Bool × Tables) :=
  match s.findRunningTurn turnID with
  | .error _ => .ok (false, s)
  | .ok _ => do
    let s := s.updateTurn turnID fun t => { t with state := ending.state }
    let s := s.markIncomplete turnID fun _ => true
    let s ← appendTurnEndMessage cfg s turnID newID ending.state ending.endMessage
    .ok (true, s)

/-- The loop of `Store.RecoverInterrupted`, over the running turns. -/
def interruptTurns (cfg : Config) (newID : UUID → UUID) (endMessage : UUID → String) :
    List Turn → Tables → Except Err Tables
  | [], s => .ok s
  | turn :: turns, s => do
    let (_, s) ← endRunningTurn cfg s turn.id (newID turn.id) ⟨.interrupted, endMessage turn.id⟩
    interruptTurns cfg newID endMessage turns s

/-! ## Resuming a turn -/

def turnEndResumedLead : String :=
  "Peen later resumed this turn, and its work " ++
    "continued after this message. What was true when it stopped:\n\n"

def markTurnEndMessagesResumed : Tables :=
  { s with messages := s.messages.map fun m =>
      if m.turnID == turnID && m.role == .system &&
          !turnEndResumedLead.toList.isPrefixOf m.content.toList then
        { m with content := turnEndResumedLead ++ m.content }
      else m }

def workerLeaseReference (generationID : UUID) : String :=
  if generationID = UUID.nil then "" else cfg.uuidText generationID

/-- The turn runs again, with the rows it has. -/
def restoreRootTurnRow (turn : Turn) (generationID : UUID) : Tables :=
  let s := if turn.state ≠ .running then s.markTurnEndMessagesResumed turn.id else s
  s.updateTurn turn.id fun t =>
    { t with state := .running, stopRevision := s.stopRevision, cancelRequested := false,
             workerGenerationID := workerLeaseReference cfg generationID }

end

end Tables

end Peen.Sessions
