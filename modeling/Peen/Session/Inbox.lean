import Peen.Session.TurnHolder

/-!
# Inboxes of executions

A message sent to an execution is accepted once, by its request: the row keeps what was sent, and a
repeated request with the same input is answered by it.
-/

namespace Peen.Sessions

open Executions

/-! ## Acceptance -/

/-- `AcceptExecutionMessageInput`; the source event is nil where there is none. -/
structure AcceptExecutionMessageInput where
  expectedStopRevision : Option Int
  requestID : UUID
  sourceEventID : UUID
  workingDirectory : String
  message : String
  parts : List ExecutionInboxPart
  images : List StoredImage
  capacity : Int
  resumeNotice : String

def validateExecutionInboxInput (cfg : Config) (input : AcceptExecutionMessageInput) :
    Except Err Unit :=
  if input.requestID = UUID.nil ∨ input.capacity ≤ 0 ∨ isBlank input.workingDirectory ∨
      isBlank input.message ∨ cfg.maxStoredMessageBytes < input.message.utf8ByteSize ∨
      cfg.maxStoredMessageBytes < input.resumeNotice.utf8ByteSize then
    .error ⟨.validationFailed, "accepted inbox identity or message"⟩
  else if input.parts.any fun part => isBlank part.skillName || part.content == "" then
    .error ⟨.validationFailed, "accepted inbox skill part"⟩
  else if cfg.maxStoredMessageBytes < (cfg.encodeParts input.parts).utf8ByteSize then
    .error ⟨.validationFailed, "accepted inbox skills exceed storage limit"⟩
  else .ok ()

def sameOptionalID (saved : Option UUID) (requested : UUID) : Bool :=
  match saved with
  | none => requested == UUID.nil
  | some id => id == requested

/-- The columns a repeated request is compared in. -/
def sameInboxInput (row : ExecutionInboxMessage) (executionID : UUID)
    (input : AcceptExecutionMessageInput) : Bool :=
  row.executionID == executionID && row.message == input.message &&
    row.workingDirectory == input.workingDirectory && row.parts == input.parts &&
    row.images == input.images && sameOptionalID row.sourceEventID input.sourceEventID

def isDeferred (row : ExecutionInboxMessage) : Bool :=
  row.state == .deferred || row.state == .forwarded

/-- The mode is read off the row's state. -/
def validateInboxReplay (existing : ExecutionInboxMessage) (executionID : UUID)
    (input : AcceptExecutionMessageInput) (state : InboxMessageState) : Except Err Unit :=
  if isDeferred existing ≠ (state == .deferred) ∨
      sameInboxInput existing executionID input = false then
    .error ⟨.conflict, "accepted inbox input or delivery mode differs"⟩
  else .ok ()

/-- `validateInboxAdmission`. `boundary` answers `validateDeferredBoundary`. -/
def validateInboxAdmission (execution : Execution) (state : InboxMessageState)
    (boundary : Except Err Unit) : Except Err Unit :=
  if execution.state = .paused ∨ isExecutionTerminal execution.state then
    .error ⟨.invalidState, "execution cannot accept another inbox message"⟩
  else if state = .deferred then boundary
  else .ok ()

/-- The check of `Store.acceptExecutionMessage` on the execution. -/
def validateInboxExecution (execution : Execution) (lease : Lease) : Except Err Unit :=
  if execution.kind ≠ .root ∨ execution.rootTurnID ≠ lease.turnID then
    .error ⟨.conflict, "accepted inbox belongs to another root turn"⟩
  else .ok ()

def inboxRow (id executionID turnID : UUID) (input : AcceptExecutionMessageInput)
    (sequence : Nat) (state : InboxMessageState) (revision : Nat) : ExecutionInboxMessage where
  id := id
  executionID := executionID
  turnID := turnID
  requestID := input.requestID
  sourceEventID := if input.sourceEventID = UUID.nil then none else some input.sourceEventID
  sequence := sequence
  workingDirectory := input.workingDirectory
  message := input.message
  parts := input.parts
  images := input.images
  state := state
  deliveredActivityID := none
  forwardedExecutionID := none
  stopRevision := revision

namespace Tables

section
variable (s : Tables)

section
variable (execution : Execution) (requestID : UUID) (executionID : UUID) (state : InboxMessageState)
  (refusal : String)

/-- `findInboxRequest`. -/
def inboxRequest? : Option ExecutionInboxMessage :=
  s.inbox.find? (·.requestID == requestID)

def findInboxRequest : Except Err ExecutionInboxMessage :=
  match s.inboxRequest? requestID with
  | none => .error ⟨.notFound, "find inbox request"⟩
  | some row => .ok row

def updateInbox (id : UUID) (f : ExecutionInboxMessage → ExecutionInboxMessage) :
    Tables :=
  { s with inbox := s.inbox.map fun r => if r.id == id then f r else r }

def inboxOf : List ExecutionInboxMessage :=
  s.inbox.filter (·.executionID == executionID)

def queuedSlots : Nat :=
  (((s.inboxOf executionID).filter (·.state == state)).map fun row => 1 + row.parts.length).sum

/-- The largest sequence of an execution's rows, 0 when it has none. -/
def latestInboxSequence : Nat :=
  (s.inboxOf executionID).foldl (fun n row => max n row.sequence) 0

def nextInboxSequence : Except Err Nat :=
  if s.latestInboxSequence executionID = maxInt64 then
    .error ⟨.invalidState, "inbox sequence exceeds integer capacity"⟩
  else .ok (s.latestInboxSequence executionID + 1)

/-- `INSERT INTO execution_inbox_messages`, with its keys: the id, the request, and the sequence in
its execution. -/
def createInboxMessage (row : ExecutionInboxMessage) : Except Err Tables :=
  if s.inbox.any fun r => r.id == row.id || r.requestID == row.requestID ||
      (r.executionID == row.executionID && r.sequence == row.sequence) then
    .error ⟨.storage, "save accepted inbox message"⟩
  else .ok { s with inbox := s.inbox ++ [row] }

/-- The check of the capacity of an inbox, refused with this text. -/
def checkInboxCapacity (input : AcceptExecutionMessageInput) (state : InboxMessageState)
    (refusal : String) : Except Err Unit :=
  if (s.queuedSlots executionID state : Int) > input.capacity - 1 - input.parts.length then
    .error ⟨.conflict, refusal⟩
  else .ok ()

/-- The check that an execution can count another event, refused with this text. -/
def checkEventCount : Except Err Unit :=
  if execution.eventCount = maxInt64 then .error ⟨.invalidState, refusal⟩ else .ok ()

/-- `Store.insertInboxMessage`. Its events need the turn to run. -/
def insertInboxMessage (lease : Lease) (input : AcceptExecutionMessageInput)
    (state : InboxMessageState) (newID : UUID) : Except Err (ExecutionInboxMessage × Tables) := do
  let revision ← s.admissionStopRevision input.expectedStopRevision
  let _ ← s.checkInboxCapacity execution.id input state "execution inbox capacity is exhausted"
  let sequence ← s.nextInboxSequence execution.id
  let row := inboxRow newID execution.id lease.turnID input sequence state revision
  let s ← s.createInboxMessage row
  let _ ← s.findRunningTurn lease.turnID
  .ok (row, s)

end

end

section
variable (cfg : Config)

section
variable (s : Tables) (active : Option ActiveTurn) (turnLease : Lease) (modelLease : ActivityLease)
  (boundary : Except Err Unit) (run : Except Err Unit) (executionID : UUID) (execution : Execution)
  (agentRunID : UUID) (activity : ExecutionActivity) (lease : Lease) (row : ExecutionInboxMessage)
  (requestIDs : List UUID) (input : AcceptExecutionMessageInput) (state : InboxMessageState)
  (newID : UUID)

/-- A new request gets a row, a repeated one its own. -/
def acceptExecutionMessage : Except Err (ExecutionInboxMessage × Tables) := do
  let execution ← s.executions.findExecution cfg.sessionID executionID
  let _ ← validateInboxExecution execution lease
  match s.inboxRequest? input.requestID with
  | some existing => do
    let _ ← validateInboxReplay existing executionID input state
    .ok (existing, s)
  | none => do
    let _ ← validateInboxAdmission execution state boundary
    s.insertInboxMessage execution lease input state newID

/-- `Store.acceptExecutionInbox`: `AcceptExecutionMessage` accepts a queued message,
`DeferExecutionMessage` a deferred one. -/
def acceptExecutionInbox : Except Err (ExecutionInboxMessage × Tables) := do
  let _ ← validateExecutionInboxInput cfg input
  let _ ← holdLease active lease
  acceptExecutionMessage cfg s boundary executionID lease input state newID

/-! ## Children -/

def insertChildInboxMessage : Except Err (ExecutionInboxMessage × Tables) := do
  let _ ← checkEventCount execution "child inbox event sequence is exhausted"
  let _ ← s.checkInboxCapacity execution.id input .queued "child inbox capacity is exhausted"
  let sequence ← s.nextInboxSequence execution.id
  let row := inboxRow newID execution.id execution.rootTurnID input sequence .queued 0
  let s ← s.createInboxMessage row
  let (_, executions) ← s.executions.appendExecutionEvent execution .inboxQueued
    (.inbox row.id row.requestID none execution.agentRunID)
  .ok (row, { s with executions := executions })

def resumeNoticeIdentity : String := "resumeNotice"

def resumeNotice (input : AcceptExecutionMessageInput) : AcceptExecutionMessageInput where
  expectedStopRevision := none
  requestID := cfg.newSHA1 input.requestID resumeNoticeIdentity
  sourceEventID := UUID.nil
  workingDirectory := input.workingDirectory
  message := input.resumeNotice
  parts := []
  images := []
  capacity := input.capacity
  resumeNotice := ""

/-- The part of `Store.resumeChildWithMessage` that queues the notice. -/
def queueResumeNotice : Except Err (Execution × Tables) :=
  if isBlank input.resumeNotice then .ok (execution, s)
  else do
    let (_, s) ← s.insertChildInboxMessage execution (resumeNotice cfg input) newID
    .ok ({ execution with eventCount := execution.eventCount + 1 }, s)

def resumeChildWithMessage (noticeID newID : UUID) : Except Err (ExecutionInboxMessage × Tables) := do
  let (_, executions) ← s.executions.changeExecutionSubtree cfg.sessionID execution.id .resume ""
    (.request input.requestID)
  let s := { s with executions := executions }
  let execution ← s.executions.findExecution cfg.sessionID execution.id
  let (execution, s) ← queueResumeNotice cfg s execution input noticeID
  s.insertChildInboxMessage execution input newID

/-- The check of `Store.acceptChildInboxMessage` on the execution. -/
def validateChildInboxExecution : Except Err Unit :=
  if execution.kind ≠ .child ∨ execution.agentRunID = none then
    .error ⟨.conflict, "inbox execution is not a child"⟩
  else .ok ()

def acceptChildInboxMessage (noticeID newID : UUID) : Except Err (ExecutionInboxMessage × Tables) := do
  let execution ← s.executions.findExecution cfg.sessionID executionID
  let _ ← validateChildInboxExecution execution
  match s.inboxRequest? input.requestID with
  | some existing =>
    if sameInboxInput existing executionID input then .ok (existing, s)
    else .error ⟨.conflict, "child inbox request changed"⟩
  | none =>
    if isExecutionTerminal execution.state then
      .error ⟨.conflict, "child execution has finished"⟩
    else if execution.state = .paused then
      resumeChildWithMessage cfg s execution input noticeID newID
    else s.insertChildInboxMessage execution input newID

def acceptChildExecutionMessage (noticeID newID : UUID) :
    Except Err (ExecutionInboxMessage × Tables) := do
  let _ ← validateExecutionInboxInput cfg input
  acceptChildInboxMessage cfg s executionID input noticeID newID

/-- The row a child's report or a broadcast notice adds to an inbox, past its capacity
(`recordExecutionChildReport`, `queueChildNotice`). The rest of their transactions is outside the
tables. -/
def queueReport (executionID requestID sourceEventID : UUID) (text : String) (newID : UUID) :
    Except Err Tables := do
  let execution ← s.executions.findExecution cfg.sessionID executionID
  let _ ← checkEventCount execution "parent report event sequence is exhausted"
  let sequence ← s.nextInboxSequence execution.id
  let input : AcceptExecutionMessageInput :=
    ⟨none, requestID, sourceEventID, execution.workingDirectory, text, [], [], 0, ""⟩
  let row := inboxRow newID execution.id execution.rootTurnID input sequence .queued 0
  let s ← s.createInboxMessage row
  let (_, executions) ← s.executions.appendExecutionEvent execution .inboxQueued
    (.inbox row.id row.requestID none execution.agentRunID)
  .ok { s with executions := executions }

/-! ## Delivery -/

def canDeliverExecutionInbox (execution : Execution) (lease : Lease) : Bool :=
  activity.kind == .model && activity.state == .running && execution.kind == .root &&
    execution.state != .paused && !isExecutionTerminal execution.state &&
    execution.rootTurnID == lease.turnID

def canDeliverChildInbox (execution : Execution) : Bool :=
  activity.kind == .model && activity.state == .running && execution.kind == .child &&
    execution.agentRunID.isSome && execution.state != .paused &&
    !isExecutionTerminal execution.state

def validateInboxDeliveryIDs : Except Err Unit :=
  match cfg.inboxIDs activity.inputJSON with
  | none => .error ⟨.encoding, "decode saved inbox model input"⟩
  | some saved =>
    if requestIDs ≠ saved then
      .error ⟨.conflict, "delivery IDs differ from the saved model request"⟩
    else if requestIDs.Nodup ∧ UUID.nil ∉ requestIDs then .ok ()
    else .error ⟨.validationFailed, "duplicate or missing inbox delivery identity"⟩

/-- The messages a row enters the transcript as. -/
def inboxTranscriptMessages : List MessageInput :=
  { MessageInput.plain .user row.message with images := some row.images } ::
    row.parts.map fun part => .plain .user part.content

/-- `Save` of a delivered row. A row handed to another execution cannot be delivered. -/
def saveDelivered (activityID : UUID) : Except Err Tables :=
  if row.forwardedExecutionID.isSome then .error ⟨.storage, "save inbox delivery identity"⟩
  else .ok (s.updateInbox row.id fun r =>
    { r with state := .delivered, deliveredActivityID := some activityID })

/-- `Store.deliverInboxRow`: the messages it leaves to append. -/
def deliverInboxRow : Except Err (List MessageInput × Tables) :=
  if row.executionID ≠ execution.id then
    .error ⟨.conflict, "inbox request belongs to another execution"⟩
  else if row.state = .delivered then
    if row.deliveredActivityID ≠ some activity.id then
      .error ⟨.conflict, "inbox request was delivered by another model activity"⟩
    else .ok ([], s)
  else do
    let s ← s.saveDelivered row activity.id
    .ok (inboxTranscriptMessages row, s)

/-- The loop of `Store.deliverExecutionMessages`. -/
def deliverInboxRows (execution : Execution) (activity : ExecutionActivity) :
    List UUID → Tables → Except Err (List MessageInput × Tables)
  | [], s => .ok ([], s)
  | requestID :: requestIDs, s => do
    let row ← s.findInboxRequest requestID
    let (messages, s) ← s.deliverInboxRow execution activity row
    let (rest, s) ← deliverInboxRows execution activity requestIDs s
    .ok (messages ++ rest, s)

/-- The check that an activity may deliver, refused with this text. -/
def checkDelivery (deliverable : Bool) (refusal : String) : Except Err Unit :=
  if deliverable then .ok () else .error ⟨.invalidState, refusal⟩

/-- Deliver the rows the model activity's saved input names. -/
def deliverExecutionMessages (newID : Nat → UUID) : Except Err Tables := do
  let (activity, execution) ← s.executions.activityForLease cfg.sessionID modelLease
  let _ ← checkDelivery (canDeliverExecutionInbox activity execution turnLease)
    "model activity cannot deliver this inbox"
  let _ ← validateInboxDeliveryIDs cfg activity requestIDs
  let _ ← s.findRunningTurn turnLease.turnID
  let (messages, s) ← deliverInboxRows execution activity requestIDs s
  appendTranscript cfg s turnLease.turnID newID messages

/-- `DeliverExecutionMessages`. -/
def deliverMessages (newID : Nat → UUID) : Except Err Tables := do
  let _ ← holdLease active turnLease
  deliverExecutionMessages cfg s turnLease modelLease requestIDs newID

/-- The row `createAgentRunMessages` adds for a message. -/
def agentRunMessage (message : MessageInput) : AgentRunMessage :=
  ⟨agentRunID, message.role, message.content, message.images.getD []⟩

/-- `Store.deliverChildInboxRow`. `run` answers whether the agent run is there. -/
def deliverChildInboxRow : Except Err (Execution × Tables) :=
  if row.executionID ≠ execution.id then
    .error ⟨.conflict, "child inbox request belongs to another execution"⟩
  else if row.state = .delivered then
    if row.deliveredActivityID ≠ some activity.id then
      .error ⟨.conflict, "child request was delivered by another model activity"⟩
    else .ok (execution, s)
  else do
    let _ ← run
    let s := { s with agentRunMessages := s.agentRunMessages ++
      (inboxTranscriptMessages row).map (agentRunMessage agentRunID) }
    let s ← s.saveDelivered row activity.id
    let _ ← checkEventCount execution "child delivery event sequence is exhausted"
    let (execution, executions) ← s.executions.appendExecutionEvent execution .inboxDelivered
      (.inbox row.id row.requestID (some activity.id) (some agentRunID))
    .ok (execution, { s with executions := executions })

/-- The loop of `Store.deliverChildInboxMessages`. -/
def deliverChildInboxRows (run : Except Err Unit) (agentRunID : UUID)
    (activity : ExecutionActivity) : Execution → List UUID → Tables → Except Err Tables
  | _, [], s => .ok s
  | execution, requestID :: requestIDs, s => do
    let row ← s.findInboxRequest requestID
    let (execution, s) ← s.deliverChildInboxRow run execution agentRunID activity row
    deliverChildInboxRows run agentRunID activity execution requestIDs s

/-- The same, to the transcript of a child's agent. -/
def deliverChildExecutionMessages (lease : ActivityLease) (requestIDs : List UUID) :
    Except Err Tables := do
  let (activity, execution) ← s.executions.activityForLease cfg.sessionID lease
  let _ ← checkDelivery (canDeliverChildInbox activity execution)
    "child model activity cannot deliver this inbox"
  let _ ← validateInboxDeliveryIDs cfg activity requestIDs
  deliverChildInboxRows run (execution.agentRunID.getD UUID.nil) activity execution requestIDs s

end

end

end Tables

end Peen.Sessions
