import Peen.Session.FeedPage
import Peen.Lib.Run

/-!
# The feed pump

`FeedPump` carries committed feed rows to the live sink.
-/

namespace Peen

open Keyed Lts

def feedPumpPageLimit : Nat := maximumFeedLimit

def eventTypeUserMessageCreated : String := "userMessage.created"

structure FeedPumpSession where
  lastPublished : Nat := 0
  initialized : Bool := false
  running : Bool := false
  dirty : Bool := false

/-- Where the goroutine stands. Whatever else happens may happen there. -/
inductive PumpPC where
  /-- At the top of `run`'s loop. -/
  | loop
  /-- In `runOnce`, about to read the cursor. -/
  | runOnce
  /-- About to call `ListFeed`. -/
  | listFeed (cursor : Nat)
  /-- Inside `ListFeed`; the marks are history. -/
  | listing (call : FeedCall) (marks : FeedMarks)
  /-- `ListFeed` returned; about to call `deliver`. -/
  | deliver (page : FeedPage)
  /-- About to take the lock that ends `runOnce`. -/
  | delivered (page : FeedPage)

/-- One post-commit signal. `last` is history: the head the commit left. -/
structure FeedSignal where
  sessionID : UUID
  first : Nat
  last : Nat
  deriving DecidableEq

/-- What belongs to one session: its entry in `sessions` and its goroutines. The rest is history:
the cursor the first signal set, the signals whose call returned and the rows handed to the
sink. -/
structure PumpEntry where
  state : Option FeedPumpSession := none
  goroutines : List PumpPC := []
  start : Nat := 0
  returned : List FeedSignal := []
  handed : List FeedItem := []

/-- The start position: the first signal a session receives sets its cursor to `first - 1`. -/
def FeedPumpSession.setStart (st : FeedPumpSession) (first : Nat) : FeedPumpSession :=
  if st.initialized then st else { st with initialized := true, lastPublished := first - 1 }

def PumpEntry.signal (e : PumpEntry) (sig : FeedSignal) : PumpEntry :=
  let found := e.state.getD {}
  let start := if found.initialized then e.start else sig.first - 1
  let state := found.setStart sig.first
  let e := { e with start, returned := e.returned ++ [sig] }
  if state.running then
    { e with state := some { state with dirty := true } }
  else
    { e with state := some { state with running := true }, goroutines := e.goroutines ++ [.loop] }

/-- `markStopped` and the end of goroutine `i`. -/
def PumpEntry.stop (e : PumpEntry) (i : Nat) : PumpEntry :=
  { e with state := e.state.map fun st => { st with running := false },
           goroutines := e.goroutines.eraseIdx i }

def PumpEntry.goto (e : PumpEntry) (i : Nat) (pc : PumpPC) : PumpEntry :=
  { e with goroutines := e.goroutines.set i pc }

/-- The critical section that ends `runOnce`. -/
def PumpEntry.finish (e : PumpEntry) (i : Nat) (page : FeedPage) (st : FeedPumpSession) :
    PumpEntry :=
  let st := { st with lastPublished := page.nextCursor }
  if page.hasMore then
    { e with state := some st }.goto i .loop
  else if st.dirty then
    { e with state := some { st with dirty := false } }.goto i .loop
  else
    { e with state := some st }.stop i

/-- The next step of goroutine `i` of a session. -/
def PumpEntry.advance (db : FeedTables) (ctxDone sink : Bool) (sessionID : UUID) (e : PumpEntry)
    (i : Nat) : Option PumpEntry := do
  let st ← e.state
  match ← e.goroutines[i]? with
  | .loop => some (if ctxDone then e.stop i else e.goto i .runOnce)
  | .runOnce => some (e.goto i (.listFeed st.lastPublished))
  | .listFeed cursor =>
    match FeedCall.start db sessionID cursor feedPumpPageLimit with
    | .error _ => some (e.stop i)
    | .ok call => some (e.goto i (.listing call fun _ => 0))
  | .listing call marks =>
    match call.read db, call.page db with
    | some call', _ => some (e.goto i (.listing call' (call.mark db marks)))
    | none, some page => some (e.goto i (.deliver page))
    | none, none => none
  | .deliver page =>
    let handed := if sink then e.handed ++ page.items else e.handed
    some ({ e with handed }.goto i (.delivered page))
  | .delivered page => some (e.finish i page st)

abbrev AdmissionKey := UUID × UUID

/-- The pump and what it works on: the store's tables, the signals of commits that have not
reached it yet, and the admission watches with the calls they made. -/
structure FeedPump where
  db : FeedTables
  ctxDone : Bool := false
  sink : Bool := false
  sessions : UUID → PumpEntry := fun _ => {}
  pending : List FeedSignal := []
  admissionWatches : AdmissionKey → Option Nat := fun _ => none
  admitted : List Nat := []

/-- `reportAdmissions`: a recorded user message releases its watch, once. -/
def reportAdmissions (sessionID : UUID) : List FeedItem → (AdmissionKey → Option Nat) → List Nat →
    (AdmissionKey → Option Nat) × List Nat
  | [], watches, admitted => (watches, admitted)
  | it :: items, watches, admitted =>
    if it.kind = .event ∧ it.eventType = eventTypeUserMessageCreated then
      let key := (sessionID, it.requestID)
      reportAdmissions sessionID items (Function.update watches key none)
        (admitted ++ (watches key).toList)
    else reportAdmissions sessionID items watches admitted

/-- A pump just installed over a store, with its sink registered. -/
def FeedPump.installed (db : FeedTables) : FeedPump := { db, sink := true }

/-- What can happen around a pump. Actions of a goroutine name its session and its place among the
session's goroutines. -/
inductive PumpAction where
  /-- A writing transaction; its signals are then on their way. -/
  | commit (body : List FeedWrite)
  /-- The `i`-th signal on its way reaches `Signal`. -/
  | signal (i : Nat)
  /-- A goroutine takes its next step. -/
  | advance (sessionID : UUID) (i : Nat)
  /-- A goroutine's `ListFeed` returns an error. -/
  | readFails (sessionID : UUID) (i : Nat)
  /-- The sink panics under a goroutine. -/
  | panics (sessionID : UUID) (i : Nat)
  /-- The service context ends. -/
  | cancel
  /-- `SetSink`. -/
  | setSink
  /-- `WatchAdmission`. -/
  | watchAdmission (key : AdmissionKey) (watch : Nat)
  /-- The stop function `WatchAdmission` returned. -/
  | stopWatch (key : AdmissionKey) (watch : Nat)

def FeedPump.setEntry (s : FeedPump) (sid : UUID) (e : PumpEntry) : FeedPump :=
  { s with sessions := Function.update s.sessions sid e }

/-- The admissions the next step of goroutine `i` reports: those of the page it delivers. -/
def FeedPump.report (s : FeedPump) (sid : UUID) (i : Nat) : FeedPump :=
  match (s.sessions sid).goroutines[i]? with
  | some (.deliver page) =>
    let (admissionWatches, admitted) :=
      reportAdmissions sid page.items s.admissionWatches s.admitted
    { s with admissionWatches, admitted }
  | _ => s

/-- A critical section of a signal or of a goroutine, a commit, or a query of `ListFeed`. -/
def FeedPump.step (s : FeedPump) : PumpAction → Option FeedPump
  | .commit body =>
    match feedTransaction s.db body with
    | .error _ => some s
    | .ok (db, c) =>
      let signals := c.map fun p => FeedSignal.mk p.1 p.2 (db.feedHead p.1)
      some { s with db, pending := s.pending ++ signals }
  | .signal i => do
    let sig ← s.pending[i]?
    some ({ s with pending := s.pending.eraseIdx i }.setEntry sig.sessionID
      ((s.sessions sig.sessionID).signal sig))
  | .advance sid i => do
    let e ← (s.sessions sid).advance s.db s.ctxDone s.sink sid i
    some ((s.report sid i).setEntry sid e)
  | .readFails sid i =>
    match (s.sessions sid).goroutines[i]? with
    | some (.listFeed _) | some (.listing _ _) => some (s.setEntry sid ((s.sessions sid).stop i))
    | _ => none
  | .panics sid i =>
    match (s.sessions sid).goroutines[i]? with
    | some (.deliver page) =>
      if s.sink && !page.items.isEmpty then
        some ((s.report sid i).setEntry sid ((s.sessions sid).stop i))
      else none
    | _ => none
  | .cancel => some { s with ctxDone := true }
  | .setSink => some { s with sink := true }
  | .watchAdmission key watch =>
    some { s with admissionWatches := Function.update s.admissionWatches key (some watch) }
  | .stopWatch key watch =>
    if s.admissionWatches key = some watch then
      some { s with admissionWatches := Function.update s.admissionWatches key none }
    else some s

end Peen
