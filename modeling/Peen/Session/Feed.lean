import Peen.Base
import Peen.Lib.Keyed

/-!
# The session feed

A session's feed is one sequence shared by three tables: `events`, `agent_run_events` and
`session_notices`.
-/

namespace Peen

open Keyed

def maximumFeedLimit : Nat := 200

def feedEventTypeNoticeCreated : String := "notice.created"

inductive FeedKind where
  | event
  | agentRunEvent
  | notice
  deriving DecidableEq

/-! ## The tables -/

/-- A session's head in the feed. -/
structure Session where
  id : UUID
  feedSequence : Nat

structure Event where
  id : UUID
  sessionID : UUID
  turnID : UUID
  feedSequence : Nat
  requestID : UUID
  eventType : String
  payloadJSON : String
  createdAt : Nat

structure AgentRunEvent where
  id : UUID
  sessionID : UUID
  agentRunID : UUID
  feedSequence : Nat
  eventType : String
  payloadJSON : String
  createdAt : Nat

structure SessionNotice where
  id : UUID
  sessionID : UUID
  feedSequence : Nat
  type : String
  source : String
  summary : String
  dataJSON : String
  createdAt : Nat
  deriving DecidableEq

structure AgentRun where
  id : UUID
  sessionID : UUID
  parentTurnID : UUID
  parentAgentRunID : Option UUID

/-- The tables the feed is spread over. -/
structure FeedTables where
  sessions : List Session
  events : List Event
  agentRunEvents : List AgentRunEvent
  notices : List SessionNotice
  agentRuns : List AgentRun

structure FeedItem where
  sessionID : UUID
  sequence : Nat
  id : UUID
  kind : FeedKind
  eventType : String
  requestID : UUID := UUID.nil
  turnID : UUID := UUID.nil
  agentRunID : UUID := UUID.nil
  parentTurnID : UUID := UUID.nil
  parentAgentRunID : Option UUID := none
  payloadJSON : String := ""
  notice : Option SessionNotice := none
  createdAt : Nat
  deriving DecidableEq

structure FeedPage where
  items : List FeedItem
  nextCursor : Nat
  hasMore : Bool
  head : Nat

/-! ## Writing -/

/-- `feedCollector`: the first feed sequence allocated for each session, in the order of the
sessions' first allocations. -/
abbrev FeedCollector := List (UUID × Nat)

/-- `feedCollector.record`: only the first allocation of a session is kept. -/
def FeedCollector.record (c : FeedCollector) (sessionID : UUID) (first : Nat) : FeedCollector :=
  if c.any (·.1 == sessionID) then c else c ++ [(sessionID, first)]

section
variable (db : FeedTables)

def FeedTables.findSession (sessionID : UUID) : Option Session :=
  db.sessions.find? (·.id == sessionID)

/-- The update of `sessions` an allocation makes. -/
def FeedTables.addFeedSequence (tx : FeedTables) (sessionID : UUID) (count : Nat) : FeedTables :=
  { tx with sessions := tx.sessions.map fun (s : Session) =>
      if s.id = sessionID then { s with feedSequence := s.feedSequence + count } else s }

/-- `allocateFeedSequences`: reserves `count` consecutive sequences and returns the first one.
The collector is the one `ctx` carries, `none` outside `feedTransaction`. -/
def allocateFeedSequences (collector : Option FeedCollector) (tx : FeedTables) (sessionID : UUID)
    (count : Nat) : Except Err (Nat × FeedTables × Option FeedCollector) :=
  if count = 0 then
    .ok (0, tx, collector)
  else match collector with
    | none => .error ⟨.validationFailed, "feed sequence allocated outside a feed transaction"⟩
    | some c =>
      let tx := tx.addFeedSequence sessionID count
      match tx.findSession sessionID with
      | none => .error ⟨.notFound, "session for feed sequence allocation"⟩
      | some session =>
        let first := session.feedSequence - count + 1
        .ok (first, tx, some (c.record sessionID first))

/-- One allocation and the rows inserted under it. `first` is the sequence of the first row; the
rows after it take the next ones, as `buildEventRows` and `createChildProjectionEvents` do. A run
takes no sequence: its row is only where an item's parents are read. -/
inductive FeedWrite where
  | events (sessionID : UUID) (rows : List Event)
  | agentRunEvents (sessionID : UUID) (rows : List AgentRunEvent)
  | notice (sessionID : UUID) (row : SessionNotice)
  | agentRun (row : AgentRun)

def FeedWrite.sessionID : FeedWrite → UUID
  | .events s _ => s
  | .agentRunEvents s _ => s
  | .notice s _ => s
  | .agentRun row => row.sessionID

def FeedWrite.count : FeedWrite → Nat
  | .events _ rows => rows.length
  | .agentRunEvents _ rows => rows.length
  | .notice _ _ => 1
  | .agentRun _ => 0

/-- The insert of a write whose allocation returned `first`. -/
def FeedWrite.insert (tx : FeedTables) (first : Nat) : FeedWrite → FeedTables
  | .events s rows =>
    let rows := rows.mapIdx fun i r => { r with sessionID := s, feedSequence := first + i }
    { tx with events := tx.events ++ rows }
  | .agentRunEvents s rows =>
    let rows := rows.mapIdx fun i r => { r with sessionID := s, feedSequence := first + i }
    { tx with agentRunEvents := tx.agentRunEvents ++ rows }
  | .notice s row =>
    { tx with notices := tx.notices ++ [{ row with sessionID := s, feedSequence := first }] }
  | .agentRun row => { tx with agentRuns := tx.agentRuns ++ [row] }

def writeFeed : List FeedWrite → FeedTables → FeedCollector →
    Except Err (FeedTables × FeedCollector)
  | [], tx, c => .ok (tx, c)
  | w :: ws, tx, c =>
    match allocateFeedSequences (some c) tx w.sessionID w.count with
    | .error e => .error e
    | .ok (first, tx, c) => writeFeed ws (w.insert tx first) (c.getD [])

/-- `feedTransaction`: the tables after the commit and, for every session whose feed gained rows,
the first sequence to signal. An error rolls everything back. -/
def feedTransaction (body : List FeedWrite) :
    Except Err (FeedTables × FeedCollector) :=
  writeFeed body db []

/-! ## Reading -/

/-- The three `listFeed…Items` queries: the session's rows after the cursor, in feed order, one
more than the page holds, as items. -/
def listFeedItems {ρ : Type} (session : ρ → UUID) (sequence : ρ → Nat) (item : ρ → FeedItem)
    (rows : List ρ) (sessionID : UUID) (cursor limit : Nat) : List FeedItem :=
  (first sequence (limit + 1)
    (rows.filter fun r => session r = sessionID && cursor < sequence r)).map item

def Event.item (r : Event) : FeedItem :=
  { sessionID := r.sessionID, sequence := r.feedSequence, id := r.id, kind := .event,
    eventType := r.eventType, requestID := r.requestID, turnID := r.turnID,
    payloadJSON := r.payloadJSON, createdAt := r.createdAt }

def AgentRunEvent.item (r : AgentRunEvent) : FeedItem :=
  { sessionID := r.sessionID, sequence := r.feedSequence, id := r.id, kind := .agentRunEvent,
    eventType := r.eventType, agentRunID := r.agentRunID, payloadJSON := r.payloadJSON,
    createdAt := r.createdAt }

def SessionNotice.item (r : SessionNotice) : FeedItem :=
  { sessionID := r.sessionID, sequence := r.feedSequence, id := r.id, kind := .notice,
    eventType := feedEventTypeNoticeCreated, notice := some r, createdAt := r.createdAt }

def listFeedEventItems : UUID → Nat → Nat → List FeedItem :=
  listFeedItems Event.sessionID Event.feedSequence Event.item db.events

def listFeedAgentRunEventItems : UUID → Nat → Nat → List FeedItem :=
  listFeedItems AgentRunEvent.sessionID AgentRunEvent.feedSequence AgentRunEvent.item
    db.agentRunEvents

def listFeedNoticeItems : UUID → Nat → Nat → List FeedItem :=
  listFeedItems SessionNotice.sessionID SessionNotice.feedSequence SessionNotice.item db.notices

def mergeFeedCandidates (events agentRunEvents notices : List FeedItem) (limit : Nat) :
    List FeedItem × Bool :=
  let merged := sort FeedItem.sequence (events ++ agentRunEvents ++ notices)
  if merged.length ≤ limit then (merged, false) else (merged.take limit, true)

/-- The parents `attachFeedAgentRunParents` adds to one item. -/
def attachParent (agentRuns : List AgentRun) (sessionID : UUID) (it : FeedItem) : FeedItem :=
  if it.kind = .agentRunEvent then
    match agentRuns.find? fun r => r.sessionID = sessionID && r.id = it.agentRunID with
    | none => it
    | some r => { it with parentTurnID := r.parentTurnID, parentAgentRunID := r.parentAgentRunID }
  else it

def attachFeedAgentRunParents (sessionID : UUID) (items : List FeedItem) :
    List FeedItem :=
  items.map (attachParent db.agentRuns sessionID)

def normalizeFeedPage (cursor limit : Int) : Except Err (Nat × Nat) :=
  if cursor < 0 then .error ⟨.validationFailed, "feed cursor"⟩
  else if limit < 1 ∨ limit > maximumFeedLimit then .error ⟨.validationFailed, "feed limit"⟩
  else .ok (cursor.toNat, limit.toNat)

/-- The arguments of one `ListFeed` call after `normalizeFeedPage`, and the head it read. -/
structure FeedQuery where
  sessionID : UUID
  cursor : Nat
  limit : Nat
  head : Nat

/-- A call between two of its queries: a commit may land at each gap. -/
inductive FeedCall where
  | readSession (q : FeedQuery)
  | readEvents (q : FeedQuery) (events : List FeedItem)
  | readAgentRunEvents (q : FeedQuery) (events agentRunEvents : List FeedItem)
  | readNotices (q : FeedQuery) (events agentRunEvents notices : List FeedItem)

def FeedCall.query : FeedCall → FeedQuery
  | .readSession q => q
  | .readEvents q _ => q
  | .readAgentRunEvents q _ _ => q
  | .readNotices q _ _ _ => q

/-- `ListFeed` up to its first query: the arguments are checked and the session is read. -/
def FeedCall.start (sessionID : UUID) (cursor limit : Int) :
    Except Err FeedCall :=
  match normalizeFeedPage cursor limit with
  | .error e => .error e
  | .ok (cursor, limit) =>
    match db.findSession sessionID with
    | none => .error ⟨.notFound, "find session for feed listing"⟩
    | some session => .ok (.readSession ⟨sessionID, cursor, limit, session.feedSequence⟩)

/-- The next table query of a call, on the tables as they are committed now. -/
def FeedCall.read : FeedCall → Option FeedCall
  | .readSession q =>
    some (.readEvents q (listFeedEventItems db q.sessionID q.cursor q.limit))
  | .readEvents q events =>
    some (.readAgentRunEvents q events (listFeedAgentRunEventItems db q.sessionID q.cursor q.limit))
  | .readAgentRunEvents q events agentRunEvents =>
    some (.readNotices q events agentRunEvents
      (listFeedNoticeItems db q.sessionID q.cursor q.limit))
  | .readNotices .. => none

def FeedCall.page : FeedCall → Option FeedPage
  | .readNotices q events agentRunEvents notices =>
    let (items, hasMore) := mergeFeedCandidates events agentRunEvents notices q.limit
    let items := attachFeedAgentRunParents db q.sessionID items
    some { items, hasMore, head := q.head,
           nextCursor := (items.getLast?.map FeedItem.sequence).getD q.cursor }
  | _ => none

/-- The call run on one state of the store. -/
def listFeed (sessionID : UUID) (cursor limit : Int) : Except Err FeedPage :=
  match FeedCall.start db sessionID cursor limit with
  | .error e => .error e
  | .ok call =>
    match call.read db >>= (·.read db) >>= (·.read db) >>= (·.page db) with
    | none => .error ⟨.storage, "list feed"⟩
    | some page => .ok page

end

end Peen
