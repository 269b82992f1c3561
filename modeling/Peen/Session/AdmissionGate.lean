import Peen.Base
import Peen.Lib.Run

/-!
# The admission gate

`AdmissionGate` admits the messages of a session one at a time, each ticket when it comes to the
front of its line. `Acquire` is `Reserve`, `Wait` and, when that fails, `Release`. A context may end
at any time.
-/

namespace Peen.Admission

/-- A context that `BindContext` made. -/
abbrev ContextID := Nat

/-- `AdmissionTicket`. A channel is known by whether it is closed, `releaseOnce` by whether it ran. -/
structure AdmissionTicket where
  sessionID : UUID
  admitted : Bool
  stopped : Bool
  cancellations : List ContextID
  preparing : Bool
  released : Bool

/-- `AdmissionGate`, with the tickets it gave out, numbered in the order they were reserved. A line
that is not in the map is empty; closing a channel twice panics. -/
structure AdmissionGate where
  count : Nat
  ticket : Nat → AdmissionTicket
  lines : UUID → List Nat
  panicked : Bool

namespace AdmissionGate

section
variable (g : AdmissionGate) (sessionID : UUID) (t : Nat)

def setTicket (ticket : AdmissionTicket) : AdmissionGate :=
  { g with ticket := fun k => if k = t then ticket else g.ticket k }

def setLine (line : List Nat) : AdmissionGate :=
  { g with lines := fun k => if k = sessionID then line else g.lines k }

def closeAdmitted : AdmissionGate :=
  { g.setTicket t { g.ticket t with admitted := true } with
    panicked := g.panicked || (g.ticket t).admitted }

/-- `AdmissionGate.Reserve`. The ticket is the one the gate counted last. -/
def reserve : AdmissionGate :=
  let t := g.count
  let line := g.lines sessionID ++ [t]
  let g := ({ g with count := t + 1 }.setTicket t
    ⟨sessionID, false, false, [], false, false⟩).setLine sessionID line
  if line.length = 1 then g.closeAdmitted t else g

def leave : AdmissionGate :=
  let ticket := g.ticket t
  let line := g.lines ticket.sessionID
  let g := g.setTicket t { ticket with cancellations := [], preparing := false }
  if t ∉ line then g
  else
    let position := line.idxOf t
    let line := line.eraseIdx position
    let g := g.setLine ticket.sessionID line
    match line with
    | [] => g
    | front :: _ => if position = 0 then g.closeAdmitted front else g

/-- `Release`: the ticket leaves its line and the next one is admitted. -/
def release : AdmissionGate :=
  if (g.ticket t).released then g
  else
    let g := g.leave t
    g.setTicket t { g.ticket t with released := true }

/-- What the loop of `CancelPending` found: the tickets it keeps in line, how many it stopped, and the
contexts to cancel. -/
structure Cancellation where
  retained : List Nat
  count : Nat
  cancellations : List ContextID

/-- The loop of `CancelPending`. -/
def cancelTickets (g : AdmissionGate) : List Nat → AdmissionGate × Cancellation
  | [] => (g, ⟨[], 0, []⟩)
  | t :: line =>
    let ticket := g.ticket t
    let (g, rest) := (g.setTicket t { ticket with stopped := true, cancellations := [] }).cancelTickets
      line
    (g, ⟨if ticket.preparing then t :: rest.retained else rest.retained,
      (if ticket.stopped then 0 else 1) + rest.count, ticket.cancellations ++ rest.cancellations⟩)

/-- `AdmissionGate.CancelPending` as far as it holds the lock. -/
def cancelPending : AdmissionGate × Cancellation :=
  let (g, result) := g.cancelTickets (g.lines sessionID)
  (g.setLine sessionID result.retained, result)

/-- `AdmissionTicket.BindContext` of a new context; whether the context is cancelled at once. -/
def bindContext (context : ContextID) : AdmissionGate × Bool :=
  let ticket := g.ticket t
  if ticket.stopped then (g, true)
  else
    (g.setTicket t { ticket with
      preparing := true, cancellations := ticket.cancellations ++ [context] }, false)

end

end AdmissionGate

/-! ## Calls -/

/-- Where a call of `Wait` stands: each section under the lock, and each read of a channel, is a
step. -/
inductive WaitPlace where
  | waiting
  | rechecking
  deriving DecidableEq

/-- A call of `Wait`. A context that `BindContext` did not make is none. -/
structure WaitCall where
  ticket : Nat
  context : Option ContextID
  place : WaitPlace
  deriving DecidableEq

/-- What a `select` in `Wait` can take. -/
inductive WaitCase where
  | admitted
  | stopped
  | done

/-- The gate, the calls of `Wait`, the tickets whose `Wait` returned no error, in the order it did, and
the contexts the gate bound, has cancelled and still has to cancel. -/
structure World where
  gate : AdmissionGate
  waits : List WaitCall
  returned : List Nat
  contexts : Nat
  cancelled : List ContextID
  cancelling : List ContextID

/-- `ctx.Err()` gives an error: the gate cancelled the context, or it ended otherwise. -/
def World.ended (w : World) (context : Option ContextID) (otherwise : Bool) : Bool :=
  otherwise || match context with
    | none => false
    | some c => w.cancelled.contains c

def World.checkCancellation (w : World) (t : Nat) (context : Option ContextID) (otherwise : Bool) :
    Bool :=
  w.ended context otherwise || (w.gate.ticket t).stopped

/-- What can happen. A flag says that the context of the call ends on its own. -/
inductive Action where
  | reserve (sessionID : UUID)
  | bindContext (t : Nat)
  | wait (t : Nat) (context : Option ContextID) (ended : Bool)
  | select (call : WaitCall) (case : WaitCase) (ended : Bool)
  | recheck (call : WaitCall) (ended : Bool)
  | release (t : Nat)
  | cancelPending (sessionID : UUID)
  | cancelBound (context : ContextID)

/-- `Wait` up to its `select`. -/
def World.wait (w : World) (t : Nat) (context : Option ContextID) (ended : Bool) : World :=
  if w.checkCancellation t context ended then w
  else { w with waits := ⟨t, context, .waiting⟩ :: w.waits }

/-- The `select` of `Wait`. -/
def World.select (w : World) (call : WaitCall) (case : WaitCase) (ended : Bool) : Option World :=
  let rest := w.waits.erase call
  match case with
  | .admitted =>
    if (w.gate.ticket call.ticket).admitted then
      some { w with waits := { call with place := .rechecking } :: rest }
    else none
  | .stopped => if (w.gate.ticket call.ticket).stopped then some { w with waits := rest } else none
  | .done => if w.ended call.context ended then some { w with waits := rest } else none

/-- The second check of `Wait`, and its return. -/
def World.recheck (w : World) (call : WaitCall) (ended : Bool) : World :=
  let w := { w with waits := w.waits.erase call }
  if w.checkCancellation call.ticket call.context ended then w
  else { w with returned := w.returned ++ [call.ticket] }

def step (w : World) : Action → Option World
  | .reserve sessionID => some { w with gate := w.gate.reserve sessionID }
  | .bindContext t =>
    if t < w.gate.count then
      let (gate, cancelled) := w.gate.bindContext t w.contexts
      some { w with
        gate := gate
        contexts := w.contexts + 1
        cancelled := if cancelled then w.contexts :: w.cancelled else w.cancelled }
    else none
  | .wait t context ended => if t < w.gate.count then some (w.wait t context ended) else none
  | .select call case ended =>
    if call ∈ w.waits ∧ call.place = .waiting then w.select call case ended else none
  | .recheck call ended =>
    if call ∈ w.waits ∧ call.place = .rechecking then some (w.recheck call ended) else none
  | .release t => if t < w.gate.count then some { w with gate := w.gate.release t } else none
  | .cancelPending sessionID =>
    let (gate, result) := w.gate.cancelPending sessionID
    some { w with gate := gate, cancelling := w.cancelling ++ result.cancellations }
  | .cancelBound context =>
    if context ∈ w.cancelling then
      some { w with cancelling := w.cancelling.erase context, cancelled := context :: w.cancelled }
    else none

/-- `NewAdmissionGate`, and no calls. -/
def initial : World :=
  ⟨⟨0, fun _ => ⟨UUID.nil, false, false, [], false, false⟩, fun _ => [], false⟩, [], [], 0, [], []⟩

end Peen.Admission
