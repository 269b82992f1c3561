import Peen.Lib.Run
import Peen.Lib.Tasks

/-!
# The event stream of a turn

`runtimeTurn.record` makes an event durable and hands it to the sink.
-/

namespace Peen.TurnStream

/-- The part of an `Event` the stream looks at: which record it is, and whether it is a stream
delta. -/
structure Event where
  id : Nat
  delta : Bool := false
  deriving DecidableEq

/-- A call of `record` before its next section. -/
inductive Call where
  /-- Before `holdStreamDelta`. -/
  | hold (event : Event)
  /-- Before `publishHeldDeltas` takes `sinkMutex`. -/
  | publishHeld (event : Event)
  /-- Before the `drainOutbox` of `publishHeldDeltas`. -/
  | drainHeld (event : Event)
  /-- Before `record` takes `sinkMutex`. -/
  | append (event : Event)
  /-- Before the `drainOutbox` that ends `record`. -/
  | drain

/-- A call that holds `sinkMutex` in `flushUnpublished`. It goes on as another call afterwards. -/
inductive Flush where
  /-- Before the checkpoint. -/
  | checkpoint (after : Call)
  /-- After it, before the move to the outbox. -/
  | move (after : Call)

/-- A call that drains. `after` is the event `record` goes on with, if this was its first drain. -/
inductive Drain where
  /-- Before the next event of its batch, or after the last. -/
  | publish (batch : List Event) (after : Option Event)
  /-- The sink has the event. -/
  | inSink (rest : List Event) (after : Option Event)
  /-- The sink refused one. -/
  | refused (rest : List Event)

/-- `runtimeTurn`. The history: what became durable, what the sink was handed, what a refusal
discarded, and whether there was one. -/
structure World where
  events : List Event := []
  checkpointedEvents : Nat := 0
  unpublished : List Event := []
  outbox : List Event := []
  calls : List Call := []
  locked : Option Flush := none
  draining : Option Drain := none
  durable : List Event := []
  handed : List Event := []
  dropped : List Event := []
  refused : Bool := false

namespace World

section
variable (w : World)

section
variable (i : Nat) (after : Option Event) (event : Event)

def goOn (new : List Call) : World :=
  { w with calls := Tasks.replace w.calls i new }

def append : World :=
  { w with events := w.events ++ [event], unpublished := w.unpublished ++ [event] }

def holdStreamDelta (recent : Bool) : World :=
  if !event.delta || !recent then w.goOn i [.publishHeld event]
  else (w.append event).goOn i []

def publishHeldDeltas : World :=
  if w.unpublished.isEmpty then w.goOn i [.append event]
  else { w with locked := some (.checkpoint (.drainHeld event)) }.goOn i []

/-- The event is recorded; its checkpoint is next. -/
def record : World :=
  { w.append event with locked := some (.checkpoint .drain) }.goOn i []

/-- `pendingTranscript`'s events. -/
def pendingEvents : List Event := w.events.drop w.checkpointedEvents

/-- The checkpoint that makes the pending events durable. -/
def checkpoint : World :=
  { w with durable := w.durable ++ w.pendingEvents, checkpointedEvents := w.events.length }

/-- The end of `flushUnpublished`. -/
def moveToOutbox : World :=
  { w with outbox := w.outbox ++ w.unpublished, unpublished := [] }

/-- What a call does after its drain: `record` goes on, or returns. -/
def resume : List Call :=
  match after with
  | some event => [.append event]
  | none => []

/-- The start of `drainOutbox`: somebody else may be draining, or nothing is left. -/
def drainOutbox : World :=
  if w.draining.isSome || w.outbox.isEmpty then w.goOn i (resume after)
  else { w with draining := some (.publish w.outbox after), outbox := [] }.goOn i []

end

/-- The drainer's next step outside the sink: the next event of the batch, the next batch, or the
end. -/
def drainNext : Drain → World
  | .publish (event :: rest) after =>
    { w with draining := some (.inSink rest after), handed := w.handed ++ [event] }
  | .publish [] after =>
    if w.outbox.isEmpty then { w with draining := none, calls := w.calls ++ resume after }
    else { w with draining := some (.publish w.outbox after), outbox := [] }
  | .refused rest =>
    { w with draining := none, outbox := [], dropped := w.dropped ++ (rest ++ w.outbox) }
  | .inSink _ _ => w

end

end World

/-- A step is a section under a lock. Held deltas, failing checkpoints and refused events are open;
the turn has a store and a sink. -/
inductive Step where
  /-- Somebody calls `record`, the sink included. -/
  | record (event : Event)
  /-- A call does its next thing; the flag says whether the last write was recent. -/
  | run (i : Nat) (recent : Bool)
  /-- The call that holds `sinkMutex` writes its checkpoint, or fails to. -/
  | checkpoint (success : Bool)
  /-- It moves what it wrote to the outbox and unlocks. -/
  | move
  /-- The drainer goes on. -/
  | drain
  /-- The sink returns. -/
  | sinkReturns (accepted : Bool)

/-- One step, if it is possible. Taking `sinkMutex` waits until it is free. -/
def step (w : World) : Step → Option World
  | .record event => some { w with calls := w.calls ++ [.hold event] }
  | .run i recent =>
    match w.calls[i]? with
    | some (.hold event) =>
      if w.locked.isSome then none else some (w.holdStreamDelta i event recent)
    | some (.publishHeld event) =>
      if w.locked.isSome then none else some (w.publishHeldDeltas i event)
    | some (.append event) => if w.locked.isSome then none else some (w.record i event)
    | some (.drainHeld event) => some (w.drainOutbox i (some event))
    | some .drain => some (w.drainOutbox i none)
    | none => none
  | .checkpoint success =>
    match w.locked with
    | some (.checkpoint after) =>
      if success then some { w.checkpoint with locked := some (.move after) }
      else some { w with locked := none }
    | _ => none
  | .move =>
    match w.locked with
    | some (.move after) =>
      some { w.moveToOutbox with locked := none, calls := w.calls ++ [after] }
    | _ => none
  | .drain =>
    match w.draining with
    | some (.inSink _ _) | none => none
    | some drain => some (w.drainNext drain)
  | .sinkReturns accepted =>
    match w.draining with
    | some (.inSink rest after) =>
      if accepted then some { w with draining := some (.publish rest after) }
      else some { w with draining := some (.refused rest), refused := true }
    | _ => none

end Peen.TurnStream
