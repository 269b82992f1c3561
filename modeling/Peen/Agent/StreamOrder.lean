import Peen.Agent.TurnStream

/-!
# What the sink of a turn sees

The events that became durable are, in order, those the stream is done with, those of the batch under
way, the outbox, and between a checkpoint and its move those it wrote (`Inv.flow`).
-/

namespace Peen.TurnStream

open Lts Tasks World
open List hiding after

section
variable {w : World} {i : Nat}

/-- The calls that will drain the outbox, or find somebody who does. -/
def Call.drains : Call → Bool
  | .drainHeld _ | .drain => true
  | .hold _ | .publishHeld _ | .append _ => false

/-- What each step does, with what it needs. -/
inductive Takes (w : World) : Step → World → Prop where
  | record (event : Event) : Takes w (.record event) { w with calls := w.calls ++ [.hold event] }
  | goesOn {i : Nat} {recent : Bool} {old new : Call} : w.calls[i]? = some old →
      old.drains = false → Takes w (.run i recent) (w.goOn i [new])
  | held {i : Nat} {recent : Bool} {event : Event} : w.calls[i]? = some (.hold event) →
      w.locked = none → Takes w (.run i recent) ((w.append event).goOn i [])
  | flushHeld {i : Nat} {recent : Bool} {event : Event} :
      w.calls[i]? = some (.publishHeld event) → w.locked = none →
      Takes w (.run i recent)
        ({ w with locked := some (.checkpoint (.drainHeld event)) }.goOn i [])
  | append {i : Nat} {recent : Bool} {event : Event} : w.calls[i]? = some (.append event) →
      w.locked = none →
      Takes w (.run i recent)
        ({ w.append event with locked := some (.checkpoint .drain) }.goOn i [])
  | drainOutbox {i : Nat} {recent : Bool} {old : Call} (after : Option Event) :
      w.calls[i]? = some old → Takes w (.run i recent) (w.drainOutbox i after)
  | checkpoint {after : Call} : w.locked = some (.checkpoint after) →
      Takes w (.checkpoint true) { w.checkpoint with locked := some (.move after) }
  | checkpointFails {after : Call} : w.locked = some (.checkpoint after) →
      Takes w (.checkpoint false) { w with locked := none }
  | move {after : Call} : w.locked = some (.move after) →
      Takes w .move { w.moveToOutbox with locked := none, calls := w.calls ++ [after] }
  | hand {event : Event} {rest : List Event} {after : Option Event} :
      w.draining = some (.publish (event :: rest) after) →
      Takes w .drain
        { w with draining := some (.inSink rest after), handed := w.handed ++ [event] }
  | takeBatch {after : Option Event} : w.draining = some (.publish [] after) →
      Takes w .drain { w with draining := some (.publish w.outbox after), outbox := [] }
  | drained {after : Option Event} : w.draining = some (.publish [] after) → w.outbox = [] →
      Takes w .drain { w with draining := none, calls := w.calls ++ resume after }
  | discard {rest : List Event} : w.draining = some (.refused rest) →
      Takes w .drain
        { w with draining := none, outbox := [], dropped := w.dropped ++ (rest ++ w.outbox) }
  | accepted {rest : List Event} {after : Option Event} :
      w.draining = some (.inSink rest after) →
      Takes w (.sinkReturns true) { w with draining := some (.publish rest after) }
  | refused {rest : List Event} {after : Option Event} :
      w.draining = some (.inSink rest after) →
      Takes w (.sinkReturns false) { w with draining := some (.refused rest), refused := true }

theorem takes_of_run (hs : step w (.run i recent) = some w') : Takes w (.run i recent) w' := by
  simp only [step] at hs
  split at hs
  · next event hi =>
    split at hs
    · cases hs
    · next hl =>
      cases hs
      unfold holdStreamDelta
      split
      · exact .goesOn hi rfl
      · exact .held hi (Option.not_isSome_iff_eq_none.1 hl)
  · next event hi =>
    split at hs
    · cases hs
    · next hl =>
      cases hs
      unfold publishHeldDeltas
      split
      · exact .goesOn hi rfl
      · exact .flushHeld hi (Option.not_isSome_iff_eq_none.1 hl)
  · next event hi =>
    split at hs
    · cases hs
    · next hl =>
      cases hs
      exact .append hi (Option.not_isSome_iff_eq_none.1 hl)
  · next event hi =>
    cases hs
    exact .drainOutbox _ hi
  · next hi =>
    cases hs
    exact .drainOutbox _ hi
  · cases hs

theorem takes_of_step (hs : step w a = some w') : Takes w a w' := by
  cases a with
  | record event =>
    cases hs
    exact .record event
  | run => exact takes_of_run hs
  | checkpoint success =>
    simp only [step] at hs
    split at hs
    · next after hl =>
      cases success with
      | true =>
        cases hs
        exact .checkpoint hl
      | false =>
        cases hs
        exact .checkpointFails hl
    · cases hs
  | move =>
    simp only [step] at hs
    split at hs
    · next after hl =>
      cases hs
      exact .move hl
    · cases hs
  | drain =>
    simp only [step] at hs
    split at hs
    · cases hs
    · cases hs
    · next drain hne hd =>
      cases hs
      match drain, hd with
      | .publish (event :: rest) after, hd => exact .hand hd
      | .publish [] after, hd =>
        show Takes w .drain (if w.outbox.isEmpty then _ else _)
        split
        · next he => exact .drained hd (isEmpty_iff.1 he)
        · exact .takeBatch hd
      | .refused rest, hd => exact .discard hd
      | .inSink rest after, hd => exact absurd rfl (hne rest after)
  | sinkReturns accepted =>
    simp only [step] at hs
    split at hs
    · next rest after hd =>
      cases accepted with
      | true =>
        cases hs
        exact .accepted hd
      | false =>
        cases hs
        exact .refused hd
    · cases hs

/-! ## The flow of the events -/

/-- The events of the batch under way that the sink has not been handed. -/
def batchOf : Option Drain → List Event
  | none => []
  | some (.publish batch _) => batch
  | some (.inSink rest _) => rest
  | some (.refused rest) => rest

def Flush.wrote : Flush → Bool
  | .checkpoint _ => false
  | .move _ => true

def World.written (w : World) : List Event :=
  if w.locked.any Flush.wrote then w.unpublished else []

def World.unwritten (w : World) : List Event :=
  if w.locked.any Flush.wrote then [] else w.unpublished

def Flush.after : Flush → Call
  | .checkpoint after | .move after => after

/-- What became durable, in order: what the stream is done with, the batch, the outbox, and what a
checkpoint wrote. -/
structure Inv (w : World) : Prop where
  le : w.checkpointedEvents ≤ w.events.length
  pending : w.pendingEvents = w.unwritten
  flow : ∃ passed, w.durable = passed ++ (batchOf w.draining ++ (w.outbox ++ w.written)) ∧
    w.handed.Sublist passed ∧ (w.dropped = [] → w.handed = passed)
  unrefused : w.refused = false → w.dropped = [] ∧ ∀ rest, w.draining ≠ some (.refused rest)
  flushes : ∀ flush, w.locked = some flush → flush.after.drains = true
  served : w.outbox ≠ [] → w.draining.isSome = true ∨ ∃ call ∈ w.calls, call.drains = true

def opened (start : List Event) : World :=
  { events := start, checkpointedEvents := start.length }

theorem inv_opened (start : List Event) : Inv (opened start) where
  le := Nat.le_refl _
  pending := drop_length
  flow := ⟨[], rfl, .slnil, fun _ => rfl⟩
  unrefused := fun _ => ⟨rfl, nofun⟩
  flushes := nofun
  served := fun h => absurd rfl h

section
variable (h : Inv w)
include h

namespace Inv

theorem goOn (hi : w.calls[i]? = some old)
    (hnew : old.drains = true → w.outbox ≠ [] → w.draining.isSome = true ∨
      ∃ call ∈ new, call.drains = true) : Inv (w.goOn i new) := by
  refine ⟨h.le, h.pending, h.flow, h.unrefused, h.flushes, fun hne => ?_⟩
  rcases h.served hne with hd | ⟨call, hc, hdrains⟩
  · exact .inl hd
  · rcases mem_replace hi hc with rfl | hc
    · refine (hnew hdrains hne).imp_right fun ⟨call, hc, hd⟩ => ?_
      exact ⟨call, mem_replace_new hc, hd⟩
    · exact .inr ⟨call, hc, hdrains⟩

theorem addCall (call : Call) : Inv { w with calls := w.calls ++ [call] } := by
  refine ⟨h.le, h.pending, h.flow, h.unrefused, h.flushes, fun hne => ?_⟩
  refine (h.served hne).imp_right fun ⟨c, hc, hd⟩ => ?_
  exact ⟨c, mem_append_left _ hc, hd⟩

theorem append (hfree : w.locked = none) (event : Event) : Inv (w.append event) := by
  have hunwritten : w.unwritten = w.unpublished := by rw [unwritten, hfree]; rfl
  have hwrt : w.written = [] := by rw [written, hfree]; rfl
  refine ⟨?_, ?_, ?_, h.unrefused, h.flushes, h.served⟩
  · show _ ≤ (w.events ++ [event]).length
    rw [length_append]
    exact Nat.le_add_right_of_le h.le
  · have hpend := h.pending
    rw [hunwritten] at hpend
    show (w.events ++ [event]).drop w.checkpointedEvents = (w.append event).unwritten
    rw [drop_append_of_le_length h.le, unwritten]
    show _ = if w.locked.any Flush.wrote then [] else w.unpublished ++ [event]
    rw [hfree]
    exact congrArg (· ++ [event]) hpend
  · obtain ⟨passed, hflow, hrest⟩ := h.flow
    refine ⟨passed, ?_, hrest⟩
    rw [hwrt] at hflow
    show w.durable = passed ++ (batchOf w.draining ++ (w.outbox ++ (w.append event).written))
    rw [written]
    show _ = passed ++ (batchOf w.draining ++ (w.outbox ++
      if w.locked.any Flush.wrote then w.unpublished ++ [event] else []))
    rw [hfree]
    exact hflow

theorem lock (hfree : w.locked = none) {after : Call}
    (haft : after.drains = true) : Inv { w with locked := some (.checkpoint after) } := by
  have hpend := h.pending
  have hflow := h.flow
  unfold unwritten at hpend
  unfold written at hflow
  rw [hfree] at hpend hflow
  refine ⟨h.le, hpend, hflow, h.unrefused, ?_, h.served⟩
  rintro flush hf
  cases hf
  exact haft

theorem checkpointFails (hl : w.locked = some (.checkpoint after)) :
    Inv { w with locked := none } := by
  have hpend := h.pending
  have hflow := h.flow
  unfold unwritten at hpend
  unfold written at hflow
  rw [hl] at hpend hflow
  exact ⟨h.le, hpend, hflow, h.unrefused, nofun, h.served⟩

theorem checkpoint (hl : w.locked = some (.checkpoint after)) :
    Inv { w.checkpoint with locked := some (.move after) } := by
  have hpend := h.pending
  unfold unwritten at hpend
  rw [hl] at hpend
  obtain ⟨passed, hflow, hrest⟩ := h.flow
  unfold written at hflow
  rw [hl] at hflow
  refine ⟨Nat.le_refl _, drop_length, ⟨passed, ?_, hrest⟩, h.unrefused, ?_, h.served⟩
  · show w.durable ++ w.pendingEvents =
      passed ++ (batchOf w.draining ++ (w.outbox ++ w.unpublished))
    rw [hflow, hpend]
    simp [Flush.wrote]
  · have hdrains : after.drains = true := h.flushes _ hl
    rintro flush hf
    cases hf
    exact hdrains

theorem move (hl : w.locked = some (.move after)) :
    Inv { w.moveToOutbox with locked := none, calls := w.calls ++ [after] } := by
  have hpend := h.pending
  unfold unwritten at hpend
  rw [hl] at hpend
  obtain ⟨passed, hflow, hrest⟩ := h.flow
  unfold written at hflow
  rw [hl] at hflow
  refine ⟨h.le, hpend, ⟨passed, ?_, hrest⟩, h.unrefused, nofun, ?_⟩
  · show w.durable = passed ++ (batchOf w.draining ++ ((w.outbox ++ w.unpublished) ++ []))
    rw [hflow, append_nil]
    rfl
  · exact fun _ => .inr ⟨after, mem_concat_self, h.flushes _ hl⟩

theorem takeBatch (hbatch : batchOf w.draining = []) (after : Option Event) :
    Inv { w with draining := some (.publish w.outbox after), outbox := [] } := by
  obtain ⟨passed, hflow, hrest⟩ := h.flow
  rw [hbatch] at hflow
  exact ⟨h.le, h.pending, ⟨passed, hflow, hrest⟩,
    fun hr => ⟨(h.unrefused hr).1, nofun⟩, h.flushes, fun hne => absurd rfl hne⟩

theorem hand (hd : w.draining = some (.publish (event :: rest) after)) :
    Inv { w with draining := some (.inSink rest after), handed := w.handed ++ [event] } := by
  obtain ⟨passed, hflow, hsub, hall⟩ := h.flow
  rw [hd] at hflow
  refine ⟨h.le, h.pending, ⟨passed ++ [event], ?_, hsub.append_right _, fun hdrop => ?_⟩,
    fun hr => ⟨(h.unrefused hr).1, nofun⟩, h.flushes, fun _ => .inl rfl⟩
  · rw [append_assoc]
    exact hflow
  · rw [← hall hdrop]

theorem sinkReturns (hd : w.draining = some (.inSink rest after)) :
    Inv { w with draining := some (.publish rest after) } ∧
      Inv { w with draining := some (.refused rest), refused := true } := by
  have hflow := h.flow
  rw [hd] at hflow
  refine ⟨⟨h.le, h.pending, hflow, ?_, h.flushes, fun _ => .inl rfl⟩,
    ⟨h.le, h.pending, hflow, nofun, h.flushes, fun _ => .inl rfl⟩⟩
  exact fun hr => ⟨(h.unrefused hr).1, nofun⟩

theorem drained (hbatch : batchOf w.draining = []) (hem : w.outbox = [])
    (more : List Call) : Inv { w with draining := none, calls := w.calls ++ more } := by
  have hflow := h.flow
  rw [hbatch] at hflow
  exact ⟨h.le, h.pending, hflow, fun hr => ⟨(h.unrefused hr).1, nofun⟩,
    h.flushes, fun hne => absurd hem hne⟩

theorem discard (hd : w.draining = some (.refused rest)) :
    Inv { w with draining := none, outbox := [], dropped := w.dropped ++ (rest ++ w.outbox) } := by
  obtain ⟨passed, hflow, hsub, hall⟩ := h.flow
  rw [hd] at hflow
  refine ⟨h.le, h.pending, ⟨passed ++ (rest ++ w.outbox), ?_, ?_, fun hdrop => ?_⟩, ?_, h.flushes,
    fun hne => absurd rfl hne⟩
  · show w.durable = passed ++ (rest ++ w.outbox) ++ ([] ++ ([] ++ w.written))
    rw [hflow]
    simp only [batchOf, nil_append, append_assoc]
  · exact hsub.trans (sublist_append_left _ _)
  · obtain ⟨hdrop, hnone⟩ := append_eq_nil_iff.1 hdrop
    show w.handed = passed ++ (rest ++ w.outbox)
    rw [hnone, append_nil]
    exact hall hdrop
  · intro hr
    exact absurd hd ((h.unrefused hr).2 rest)

theorem drainOutbox (hi : w.calls[i]? = some old) (after : Option Event) :
    Inv (w.drainOutbox i after) := by
  unfold World.drainOutbox
  split
  · next hc =>
    refine h.goOn hi fun _ hne => ?_
    rcases Bool.or_eq_true_iff.1 hc with hd | he
    · exact .inl hd
    · exact absurd (isEmpty_iff.1 he) hne
  · next hc =>
    have hnone : w.draining = none := by
      rw [Bool.or_eq_true, not_or] at hc
      exact Option.not_isSome_iff_eq_none.1 hc.1
    have hbatch : batchOf w.draining = [] := by rw [hnone]; rfl
    exact (h.takeBatch hbatch after).goOn hi fun _ hne => absurd rfl hne

theorem takes (ht : Takes w a w') : Inv w' := by
  cases ht with
  | record event => exact h.addCall _
  | goesOn hi hold =>
    refine h.goOn hi fun hd => ?_
    rw [hold] at hd
    cases hd
  | held hi hfree => exact (h.append hfree _).goOn hi nofun
  | flushHeld hi hfree => exact (h.lock hfree rfl).goOn hi nofun
  | append hi hfree => exact ((h.append hfree _).lock hfree rfl).goOn hi nofun
  | drainOutbox after hi => exact h.drainOutbox hi after
  | checkpoint hl => exact h.checkpoint hl
  | checkpointFails hl => exact h.checkpointFails hl
  | move hl => exact h.move hl
  | hand hd => exact h.hand hd
  | takeBatch hd => exact h.takeBatch (by rw [hd]; rfl) _
  | drained hd he => exact h.drained (by rw [hd]; rfl) he _
  | discard hd => exact h.discard hd
  | accepted hd => exact (h.sinkReturns hd).1
  | refused hd => exact (h.sinkReturns hd).2

/-! ## Runs -/

end Inv

def AtRest (w : World) : Prop := w.calls = [] ∧ w.locked = none ∧ w.draining = none

instance (w : World) : Decidable (AtRest w) := inferInstanceAs (Decidable (_ ∧ _ ∧ _))

/-- No call moves events to the outbox after a refusal that discarded durable ones. -/
def NotAfterDrop (w : World) : Step → Prop
  | .move => w.dropped = []
  | _ => True

instance : ∀ (w : World) (a : Step), Decidable (NotAfterDrop w a)
  | w, .move => inferInstanceAs (Decidable (w.dropped = []))
  | _, .record _ | _, .run _ _ | _, .checkpoint _ | _, .drain | _, .sinkReturns _ => .isTrue trivial

/-- After a loss nothing waits for the sink. -/
def Silent (w : World) : Prop := w.dropped ≠ [] → batchOf w.draining = [] ∧ w.outbox = []

theorem Inv.handed_sublist : w.handed.Sublist w.durable := by
  obtain ⟨passed, hflow, hsub, -⟩ := h.flow
  rw [hflow]
  exact hsub.trans (sublist_append_left _ _)

theorem Inv.handed_isPrefix (hdrop : w.dropped = []) : w.handed <+: w.durable := by
  obtain ⟨passed, hflow, -, hall⟩ := h.flow
  rw [hflow, hall hdrop]
  exact prefix_append _ _

theorem Inv.handed_all (hrest : AtRest w) (href : w.refused = false) : w.handed = w.durable := by
  obtain ⟨hcl, hlocked, hdraining⟩ := hrest
  obtain ⟨passed, hflow, -, hall⟩ := h.flow
  have houtbox : w.outbox = [] := by
    by_contra hne
    rcases h.served hne with hd | ⟨call, hc, -⟩
    · rw [hdraining] at hd
      cases hd
    · rw [hcl] at hc
      exact absurd hc not_mem_nil
  have hwrt : w.written = [] := by rw [written, hlocked]; rfl
  rw [hflow, hdraining, houtbox, hwrt, hall (h.unrefused href).1]
  exact (append_nil _).symm

end

/-- Nothing comes to wait for the sink as long as nothing is moved to the outbox. -/
theorem Silent.takes (h : Silent w) (hc : NotAfterDrop w a) (ht : Takes w a w') : Silent w' := by
  cases ht with
  | move _ => exact fun hdrop => absurd hc hdrop
  | hand hd =>
    intro hdrop
    have hbatch := (h hdrop).1
    rw [hd] at hbatch
    cases hbatch
  | drainOutbox =>
    unfold World.drainOutbox
    split
    · exact h
    · exact fun hdrop => ⟨(h hdrop).2, rfl⟩
  | takeBatch _ => exact fun hdrop => ⟨(h hdrop).2, rfl⟩
  | drained _ _ => exact fun hdrop => ⟨rfl, (h hdrop).2⟩
  | discard _ => exact fun _ => ⟨rfl, rfl⟩
  | accepted hd | refused hd =>
    intro hdrop
    have hwaiting := h hdrop
    rw [hd] at hwaiting
    exact hwaiting
  | record _ | goesOn _ _ | held _ _ | flushHeld _ _ | append _ _ | checkpoint _
  | checkpointFails _ => exact h

/-- What became durable stays so, and only the drainer of a batch hands anything over. -/
theorem Takes.handed_durable (ht : Takes w a w') :
    w.durable <+: w'.durable ∧ (w'.handed = w.handed ∨
      (w'.dropped = w.dropped ∧ (Silent w → w.dropped = []))) := by
  have hsame : w.durable <+: w.durable := prefix_refl _
  cases ht with
  | hand hd =>
    refine ⟨hsame, .inr ⟨rfl, fun hsilent => by_contra fun hdrop => ?_⟩⟩
    have hbatch := (hsilent hdrop).1
    rw [hd] at hbatch
    cases hbatch
  | checkpoint _ => exact ⟨prefix_append _ _, .inl rfl⟩
  | drainOutbox =>
    unfold World.drainOutbox
    split <;> exact ⟨hsame, .inl rfl⟩
  | record _ => exact ⟨hsame, .inl rfl⟩
  | goesOn _ _ | held _ _ | flushHeld _ _ | append _ _ => exact ⟨hsame, .inl rfl⟩
  | checkpointFails _ | move _ | takeBatch _ | drained _ _ | discard _ | accepted _ | refused _ =>
    exact ⟨hsame, .inl rfl⟩

/-- **The stream has no holes while no call goes on after a loss.** In every run of `record` calls on a
turn: what the sink was handed is a sublist of what became durable, so no event is handed
over early or twice; whenever no call is in progress and the sink has refused nothing, it was handed
everything that became durable; and if no call moves events to the outbox after a refusal that
discarded durable ones, what the sink was handed is in every state a prefix of what became durable. -/
theorem stream_has_no_holes (start : List Event) (steps : List Step) :
    Always step (fun w => w.handed.Sublist w.durable ∧
      (AtRest w → w.refused = false → w.handed = w.durable)) (opened start) steps ∧
    (Along step NotAfterDrop (opened start) steps →
      Always step (fun w => w.handed <+: w.durable) (opened start) steps) := by
  have hinv : Always step Inv (opened start) steps :=
    Always.of_step (fun _ _ _ h hs => h.takes (takes_of_step hs)) (inv_opened start)
  refine ⟨hinv.mono fun w h => ⟨h.handed_sublist, h.handed_all⟩, fun hsteps => ?_⟩
  have hrun : Always step (fun w => Inv w ∧ Silent w ∧ w.handed <+: w.durable) (opened start)
      steps := by
    refine always_of_along (fun w a w' h hc hs => ?_)
      ⟨inv_opened start, fun hdrop => absurd rfl hdrop, nil_prefix⟩ hsteps
    obtain ⟨hinv, hsilent, hpre⟩ := h
    have ht := takes_of_step hs
    have hinv' := hinv.takes ht
    refine ⟨hinv', hsilent.takes hc ht, ?_⟩
    obtain ⟨hdurable, hsame | ⟨hdropped, hnone⟩⟩ := ht.handed_durable
    · rw [hsame]
      exact hpre.trans hdurable
    · exact hinv'.handed_isPrefix (hdropped.trans (hnone hsilent))
  exact hrun.mono fun w h => h.2.2

/-- A call of `record` for an event with nothing held, up to the start of its drain. -/
def recordSteps (event : Event) : List Step :=
  [.record event, .run 0 false, .run 0 false, .run 0 false, .checkpoint true, .move, .run 0 false]

/-- A delta is held, and the next event publishes it before itself. -/
def heldSteps : List Step :=
  [.record ⟨1, true⟩, .run 0 true, .record ⟨2, false⟩, .run 0 false, .run 0 false,
    .checkpoint true, .move, .run 0 false, .drain, .sinkReturns true, .drain, .run 0 false,
    .checkpoint true, .move, .run 0 false, .drain, .sinkReturns true, .drain]

/-- The sink takes both events. -/
theorem stream_has_no_holes_held :
    (exec step (opened []) heldSteps).map (fun w => w.handed.map Event.id) = some [1, 2] ∧
    Along step NotAfterDrop (opened []) heldSteps ∧
    Always step (fun w => w.handed <+: w.durable) (opened []) heldSteps := by
  have halong : Along step NotAfterDrop (opened []) heldSteps := by decide +kernel
  exact ⟨by decide +kernel, halong, (stream_has_no_holes [] heldSteps).2 halong⟩

/-- The second event becomes durable while the sink has the first. -/
def refusedSteps : List Step :=
  recordSteps ⟨1, false⟩ ++ [.drain] ++ recordSteps ⟨2, false⟩ ++ [.sinkReturns false, .drain] ++
    recordSteps ⟨3, false⟩ ++ [.drain]

/-- Nothing remembers a refusal. The sink refuses the first event, so the second is discarded; the
third is recorded and handed over. -/
theorem hole_after_refusal : (exec step (opened []) refusedSteps).map
      (fun w => (w.durable.map Event.id, w.handed.map Event.id)) = some ([1, 2, 3], [1, 3]) ∧
    ¬ Always step (fun w => w.handed <+: w.durable) (opened []) refusedSteps := by
  decide +kernel

end

end Peen.TurnStream
