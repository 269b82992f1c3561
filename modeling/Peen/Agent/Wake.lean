import Peen.Agent.WakeLimit
import Peen.Lib.Tasks
import Peen.Session.Tables

/-!
# Waking an idle session

An event for a session is stored as a pending notice, and `considerWake` decides whether it starts a
turn.
-/

namespace Peen.Wake

open Sessions

inductive Delivery where
  | queue
  | wake
  | unset
  deriving DecidableEq

structure Notice where
  id : UUID
  delivery : Delivery
  deriving DecidableEq

/-- What `wakeHandler` found: an error, no handler, or one with its delivery. -/
inductive Lookup where
  | failed
  | absent
  | found (delivery : Delivery)

def wakeRequested (notice : Notice) (handler : Delivery) : Bool :=
  match handler with
  | .wake => true
  | .queue => false
  | .unset => notice.delivery = .wake

/-! ## The limiter -/

/-- `wakeLimiter`, for one session; `allow` is that of `WakeLimit`. -/
structure WakeLimiter where
  seen : List Int := []
  inFlight : Bool := false
  recheck : Bool := false

namespace WakeLimiter

section
variable (l : WakeLimiter)

def deferRecheck : Bool × WakeLimiter :=
  if !l.inFlight then (false, l) else (true, { l with recheck := true })

def claim : Bool × WakeLimiter :=
  if l.inFlight then (false, l) else (true, { l with inFlight := true })

def release : Bool × WakeLimiter :=
  (l.recheck, { l with inFlight := false, recheck := false })

theorem deferRecheck_eq : l.deferRecheck = if l.inFlight then (true, { l with recheck := true }) else (false, l) := by
  unfold deferRecheck
  cases l.inFlight with
  | false | true => rfl

end

end WakeLimiter

/-! ## The goroutines -/

/-- Where a goroutine stands. `rest` are the notices `wakeFirstPending` still has to try; a
publisher has none. -/
inductive Task where
  /-- In `considerWake`, before its claim. -/
  | claim (notice : Notice) (rest : List Notice)
  /-- With the claim, before `IsActive`. -/
  | check (notice : Notice) (rest : List Notice)
  /-- With the claim and after an idle answer, before the handler and the rate limit. -/
  | lookup (notice : Notice) (rest : List Notice)
  /-- Before the deferred release of a decision that starts no turn. -/
  | release (rest : List Notice)
  /-- In the goroutine of a wake turn; whether its turn has opened. -/
  | wake (opened : Bool)
  /-- In that goroutine, before the deferred release. -/
  | returned
  /-- Before `pendingSessionNotices`. -/
  | recheck
  /-- Before `handleSessionIdle`'s `deferRecheck`, for a turn that ended in this state. -/
  | idle (state : TurnState)
  deriving DecidableEq

/-- One session. A turn is named by the number of turns started before it. The history: how many
claims were taken, the claims during which the end of a turn arrived and no re-check has run since
they were released, the last turn that ended, and for each decision its notice and the turn that was
running when it was made. -/
structure World where
  limiter : WakeLimiter := {}
  active : Option Nat := none
  turns : Nat := 0
  pending : List Notice := []
  tasks : List Task := []
  claims : Nat := 0
  owed : List Nat := []
  ended : Option (Nat × TurnState) := none
  decided : List (UUID × Option Nat) := []

/-- Whether `handleSessionIdle` looks at the notices after a turn that ended like this. -/
def rechecks (state : TurnState) : Bool := state = .completed || state = .failed

namespace World

section
variable (w : World)

section
variable (i : Nat) (notice : Notice) (rest : List Notice)

def goOn (new : List Task) : World :=
  { w with tasks := Tasks.replace w.tasks i new }

/-- `wakeFirstPending`'s loop after a decision that started nothing. -/
def next : List Task :=
  match rest with
  | [] => []
  | notice :: rest => [.claim notice rest]

/-- `considerWake` decides about a notice, while this turn runs. -/
def decide : World :=
  { w with decided := w.decided ++ [(notice.id, w.active)] }

/-- The end of a turn arrives; a claim that is held will have to be followed by a re-check. -/
def owe : World :=
  if w.limiter.inFlight then { w with owed := w.owed ++ [w.claims] } else w

/-- A re-check reads the pending notices. It serves every claim that is released. -/
def serve : World :=
  { w with owed := w.owed.filter fun claim => w.limiter.inFlight && claim == w.claims }

def startTurn : World :=
  { w with active := some w.turns, turns := w.turns + 1 }

/-- `considerWake`: the claim. -/
def runClaim : World :=
  let (free, limiter) := w.limiter.claim
  if free then { w with limiter, claims := w.claims + 1 }.goOn i [.check notice rest]
  else (w.decide notice).goOn i (next rest)

/-- `wakeHandlerFor`: whether the session is busy. -/
def runCheck : World :=
  if w.active.isSome then (w.decide notice).goOn i [.release rest]
  else (w.decide notice).goOn i [.lookup notice rest]

end

end

/-- `wakeHandlerFor` and `startWakeTurn`: the handler and the rate limit. -/
def runLookup (limit : Int) (w : World) (i : Nat) (notice : Notice) (rest : List Notice)
    (result : Lookup) (now : Int) : World :=
  match result with
  | .failed | .absent => w.goOn i [.release rest]
  | .found handler =>
    if !wakeRequested notice handler then w.goOn i [.release rest]
    else
      let (allowed, seen) := WakeLimit.allowOwn limit w.limiter.seen now
      let w := { w with limiter := { w.limiter with seen } }
      w.goOn i [if allowed then .wake false else .release rest]

/-- `considerWake`'s deferred release; what it reports is dropped. -/
def runRelease (w : World) (i : Nat) (rest : List Notice) : World :=
  { w with limiter := w.limiter.release.2 }.goOn i (next rest)

/-- `startWakeTurn`'s deferred release. -/
def runReturned (w : World) (i : Nat) : World :=
  let (recheck, limiter) := w.limiter.release
  { w with limiter }.goOn i (if recheck then [.recheck] else [])

/-- `recheckIdleWake`, and `handleSessionIdle` after its `deferRecheck`. -/
def runRecheck (w : World) (i : Nat) : World := w.serve.goOn i (next w.pending)

/-- `handleSessionIdle`. -/
def runIdle (w : World) (i : Nat) (state : TurnState) : World :=
  if !rechecks state then w.goOn i []
  else
    let (deferred, limiter) := w.limiter.deferRecheck
    if deferred then { w.owe with limiter }.goOn i [] else w.goOn i [.recheck]

end World

/-- What may happen to a session at any moment. The runtime is not closing, and pending notices can
be read. -/
inductive Call where
  /-- A notice was stored and its publisher goes on to `considerWake`. -/
  | publish (notice : Notice)
  /-- `considerWake` on a notice that is pending. -/
  | consider (notice : Notice)
  /-- A message opens a turn. -/
  | startTurn
  /-- The running turn delivers what it read of the pending notices, and these are left. -/
  | deliver (left : List Notice)
  /-- The running turn ends and releases the lease. -/
  | endTurn (state : TurnState)
  /-- A goroutine does its next thing. -/
  | run (i : Nat)
  /-- A decision learns what its handler and the clock say. -/
  | lookup (i : Nat) (result : Lookup) (now : Int)
  /-- A wake turn opens. -/
  | wakeOpens (i : Nat)
  /-- A wake turn's runner returns, or panics. -/
  | wakeReturns (i : Nat)

def step (limit : Int) (w : World) : Call → Option World
  | .publish notice =>
    some { w with pending := w.pending ++ [notice], tasks := w.tasks ++ [.claim notice []] }
  | .consider notice =>
    if notice ∈ w.pending then some { w with tasks := w.tasks ++ [.claim notice []] } else none
  | .startTurn => if w.active.isSome then none else some w.startTurn
  | .deliver left =>
    if w.active.isSome ∧ left.Sublist w.pending then some { w with pending := left } else none
  | .endTurn state =>
    match w.active with
    | none => none
    | some turn =>
      let w := if rechecks state then w.owe else w
      some { w with active := none, ended := some (turn, state),
                    tasks := w.tasks ++ [.idle state] }
  | .run i =>
    match w.tasks[i]? with
    | some (.claim notice rest) => some (w.runClaim i notice rest)
    | some (.check notice rest) => some (w.runCheck i notice rest)
    | some (.release rest) => some (w.runRelease i rest)
    | some .returned => some (w.runReturned i)
    | some .recheck => some (w.runRecheck i)
    | some (.idle state) => some (w.runIdle i state)
    | some (.lookup _ _) | some (.wake _) | none => none
  | .lookup i result now =>
    match w.tasks[i]? with
    | some (.lookup notice rest) => some (w.runLookup limit i notice rest result now)
    | _ => none
  | .wakeOpens i =>
    match w.tasks[i]? with
    | some (.wake false) =>
      if w.active.isSome then none else some (w.startTurn.goOn i [.wake true])
    | _ => none
  | .wakeReturns i =>
    match w.tasks[i]? with
    | some (.wake _) => some (w.goOn i [.returned])
    | _ => none

end Peen.Wake
