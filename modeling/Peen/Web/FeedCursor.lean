import Mathlib.Data.List.Basic

/-!
# The web client's feed cursor

`FeedCursor` follows one session's feed in the browser. The reducer behind `applyFrame` does not
throw.
-/

namespace Peen.Web

open List

def feedResyncThreshold : Int := 5000

def feedSequenceNone : Int := 0

/-! ## Frames and pages -/

/-- The metadata of an event: a frame that is not part of the feed carries no sequence. -/
structure EventMetadata where
  sessionId : Option String := none
  requestId : Option String := none
  sequence : Option Int := none
  deriving DecidableEq

/-- `ServerEvent`, and `FeedEnvelope` before it is validated. -/
structure ServerEvent (δ : Type) where
  id : String
  type : String
  data : δ
  metadata : EventMetadata
  timestamp : Int
  deriving DecidableEq

/-- `InvalidFrame`: what is known of an envelope that breaks the contract. -/
structure InvalidFrame where
  sequence : Option Int
  sessionId : Option String
  type : String
  deriving DecidableEq

inductive IncomingFrame (δ : Type) where
  | valid (event : ServerEvent δ)
  | invalid (invalid : InvalidFrame)
  deriving DecidableEq

/-- `FeedFrame`: one stored row of the feed, its creation time in milliseconds. -/
structure FeedFrame (δ : Type) where
  sequence : Int
  id : String
  type : String
  sessionId : String
  requestId : Option String
  data : δ
  createdAt : Int

structure FeedPage (δ : Type) where
  items : List (FeedFrame δ)
  nextCursor : Int
  hasMore : Bool
  head : Int

/-- What a frame is to the cursor. -/
inductive FeedDecision where
  | ack
  | apply
  | duplicate
  | gap

variable {δ : Type}

def sequenceOf : IncomingFrame δ → Option Int
  | .valid event => event.metadata.sequence
  | .invalid frame => frame.sequence

def feedFrameToEvent (frame : FeedFrame δ) : ServerEvent δ where
  id := frame.id
  type := frame.type
  data := frame.data
  metadata :=
    { sessionId := some frame.sessionId, requestId := frame.requestId,
      sequence := some frame.sequence }
  timestamp := frame.createdAt / 1000

/-- `classifyServerEvent`; the contract's validator is a parameter. -/
def classifyServerEvent (validateServerEvent : ServerEvent δ → Bool) (candidate : ServerEvent δ) :
    IncomingFrame δ :=
  if validateServerEvent candidate then .valid candidate
  else .invalid
    { sequence := candidate.metadata.sequence, sessionId := candidate.metadata.sessionId,
      type := candidate.type }

theorem sequenceOf_classifyServerEvent (validate : ServerEvent δ → Bool) (item : FeedFrame δ) :
    sequenceOf (classifyServerEvent validate (feedFrameToEvent item)) = some item.sequence := by
  unfold classifyServerEvent
  split <;> rfl

/-! ## The cursor -/

/-- What the cursor did: a frame handed to `applyFrame`, a move of `lastSequence` onto a frame, a
call of `onResync` or of `onCatchUpError`. -/
inductive Effect (δ : Type) where
  | apply (event : ServerEvent δ)
  | move (frame : IncomingFrame δ) (sequence : Int)
  | resync
  | catchUpError

/-- How a catch-up ended. -/
inductive Outcome where
  | complete
  | resync
  | failed
  deriving DecidableEq

/-- A catch-up between two of its awaits; frames are accepted meanwhile. -/
inductive CatchUp (δ : Type) where
  /-- `fetchPage(cursor)` was called and the server has not read the page. -/
  | fetching (cursor : Int)
  /-- The page was read, its response is on the way. -/
  | reading (page : FeedPage δ)
  /-- `runCatchUp` returned and `startCatchUp` has not cleared `catchingUp`. -/
  | returned (outcome : Outcome)

/-- `FeedCursor`. The outcome of the last catch-up that ended and the log are history. -/
structure FeedCursor (δ : Type) where
  lastSequence : Int := feedSequenceNone
  primed : Bool := false
  buffer : List (IncomingFrame δ) := []
  catchingUp : Option (CatchUp δ) := none
  outcome : Option Outcome := none
  log : List (Effect δ) := []

namespace FeedCursor

def applyIfValid (c : FeedCursor δ) : IncomingFrame δ → FeedCursor δ
  | .valid event => { c with log := c.log ++ [.apply event] }
  | .invalid _ => c

/-- `this.lastSequence = sequence`, for a frame that carries it. -/
def moveOnto (c : FeedCursor δ) (frame : IncomingFrame δ) (sequence : Int) : FeedCursor δ :=
  { c with lastSequence := sequence, log := c.log ++ [.move frame sequence] }

/-- The loop of `drainBuffer`; every round takes one frame out of the buffer. -/
def drainLoop : Nat → FeedCursor δ → FeedCursor δ
  | 0, c => c
  | fuel + 1, c =>
    match c.buffer.findIdx? fun frame => sequenceOf frame == some (c.lastSequence + 1) with
    | none => c
    | some index =>
      match c.buffer[index]? with
      | none => c
      | some next =>
        let c := { c with buffer := c.buffer.eraseIdx index }
        drainLoop fuel ((c.applyIfValid next).moveOnto next ((sequenceOf next).getD c.lastSequence))

section
variable (c : FeedCursor δ)

/-- The filter that ends `drainBuffer`. -/
def dropPassed : FeedCursor δ :=
  { c with buffer :=
      c.buffer.filter fun frame => c.lastSequence < (sequenceOf frame).getD feedSequenceNone }

def drainBuffer : FeedCursor δ := (drainLoop c.buffer.length c).dropPassed

def startCatchUp : FeedCursor δ :=
  match c.catchingUp with
  | some _ => c
  | none => { c with catchingUp := some (.fetching c.lastSequence) }

def accept (frame : IncomingFrame δ) : FeedCursor δ × FeedDecision :=
  match sequenceOf frame with
  | none => (c.applyIfValid frame, .ack)
  | some sequence =>
    if !c.primed then ({ c with buffer := c.buffer ++ [frame] }, .gap)
    else if sequence ≤ c.lastSequence then (c, .duplicate)
    else if sequence = c.lastSequence + 1 then
      (((c.applyIfValid frame).moveOnto frame sequence).drainBuffer, .apply)
    else ({ c with buffer := c.buffer ++ [frame] }.startCatchUp, .gap)

def openFrom (fromSequence : Int) : FeedCursor δ :=
  { c with lastSequence := fromSequence, primed := true }.startCatchUp

def catchUp : FeedCursor δ := if !c.primed then c else c.startCatchUp

/-- The end of `runCatchUp`. -/
def settle (outcome : Outcome) : FeedCursor δ :=
  { c with catchingUp := some (.returned outcome) }

end

section
variable (validate : ServerEvent δ → Bool) (c : FeedCursor δ)

/-- One item of a page in `runCatchUp`. -/
def replayItem (item : FeedFrame δ) : FeedCursor δ :=
  if item.sequence ≤ c.lastSequence then c
  else
    let frame := classifyServerEvent validate (feedFrameToEvent item)
    (c.applyIfValid frame).moveOnto frame item.sequence

/-- `runCatchUp` from a page's arrival to its next `await` or its end. -/
def takePage (resyncThreshold : Int) (c : FeedCursor δ) (page : FeedPage δ) : FeedCursor δ :=
  if page.head - c.lastSequence > resyncThreshold then
    ({ c with buffer := [], log := c.log ++ [.resync] } : FeedCursor δ).settle .resync
  else
    let c := page.items.foldl (replayItem validate) c
    if page.hasMore then { c with catchingUp := some (.fetching page.nextCursor) }
    else c.drainBuffer.settle .complete

/-- `runCatchUp` when `fetchPage` rejects. -/
def failCatchUp : FeedCursor δ :=
  ({ c with log := c.log ++ [.catchUpError] } : FeedCursor δ).settle .failed

/-- The `finally` of `startCatchUp`. -/
def clear (outcome : Outcome) : FeedCursor δ :=
  { c with catchingUp := none, outcome := some outcome }

end

/-! ## Taking frames in order -/

section
variable {c c' : FeedCursor δ} {frame : IncomingFrame δ} {n : Int}

/-- The log of a cursor opened at `n` that stands at a position: the position moved one sequence at
a time, onto a frame that carries it, a valid frame was handed to the reducer right before the move
onto it, and besides these only frames without a sequence were. -/
inductive InOrder (n : Int) : List (Effect δ) → Int → Prop where
  | opened : InOrder n [] n
  | ack {log last event} : InOrder n log last → event.metadata.sequence = none →
      InOrder n (log ++ [.apply event]) last
  | valid {log last event} : InOrder n log last → event.metadata.sequence = some (last + 1) →
      InOrder n (log ++ [.apply event] ++ [.move (.valid event) (last + 1)]) (last + 1)
  | invalid {log last frame} : InOrder n log last → frame.sequence = some (last + 1) →
      InOrder n (log ++ [.move (.invalid frame) (last + 1)]) (last + 1)
  | resync {log last} : InOrder n log last → InOrder n (log ++ [.resync]) last
  | catchUpError {log last} : InOrder n log last → InOrder n (log ++ [.catchUpError]) last

/-- Taking frames: the position only grows, the log stays in order, and nothing but the buffer
changes besides. -/
structure Advances (c c' : FeedCursor δ) : Prop where
  grows : c.lastSequence ≤ c'.lastSequence
  inOrder : ∀ n, InOrder n c.log c.lastSequence → InOrder n c'.log c'.lastSequence
  primed : c'.primed = c.primed
  catchingUp : c'.catchingUp = c.catchingUp
  outcome : c'.outcome = c.outcome

theorem Advances.refl (c : FeedCursor δ) : Advances c c :=
  ⟨Int.le_refl _, fun _ h => h, rfl, rfl, rfl⟩

theorem Advances.trans (h : Advances c c') (h' : Advances c' d) : Advances c d where
  grows := Int.le_trans h.grows h'.grows
  inOrder := fun n hn => h'.inOrder n (h.inOrder n hn)
  primed := h'.primed.trans h.primed
  catchingUp := h'.catchingUp.trans h.catchingUp
  outcome := h'.outcome.trans h.outcome

theorem Advances.setBuffer (h : Advances c c') (buffer buffer' : List (IncomingFrame δ)) :
    Advances { c with buffer := buffer } { c' with buffer := buffer' } :=
  ⟨h.grows, h.inOrder, h.primed, h.catchingUp, h.outcome⟩

theorem advances_take (hs : sequenceOf frame = some (c.lastSequence + 1)) :
    Advances c ((c.applyIfValid frame).moveOnto frame (c.lastSequence + 1)) := by
  cases frame with
  | valid event =>
    exact ⟨Int.le_add_one (Int.le_refl _), fun n hn => hn.valid hs, rfl, rfl, rfl⟩
  | invalid frame =>
    exact ⟨Int.le_add_one (Int.le_refl _), fun n hn => hn.invalid hs, rfl, rfl, rfl⟩

@[simp] theorem buffer_take (c : FeedCursor δ) (frame : IncomingFrame δ) (sequence : Int) :
    ((c.applyIfValid frame).moveOnto frame sequence).buffer = c.buffer := by
  cases frame with
  | valid | invalid => rfl

@[simp] theorem lastSequence_take (c : FeedCursor δ) (frame : IncomingFrame δ) (sequence : Int) :
    ((c.applyIfValid frame).moveOnto frame sequence).lastSequence = sequence := rfl

/-! ## Draining the buffer -/

section
variable (validate : ServerEvent δ → Bool) (fuel : Nat) (c : FeedCursor δ)

theorem drainLoop_succ :
    (drainLoop (fuel + 1) c = c ∧ ∀ frame ∈ c.buffer, sequenceOf frame ≠ some (c.lastSequence + 1))
    ∨ ∃ index next, c.buffer[index]? = some next ∧ sequenceOf next = some (c.lastSequence + 1) ∧
    drainLoop (fuel + 1) c = drainLoop fuel (({ c with buffer := c.buffer.eraseIdx index }.applyIfValid next).moveOnto next
          (c.lastSequence + 1)) := by
  cases hfind : c.buffer.findIdx? fun frame => sequenceOf frame == some (c.lastSequence + 1) with
  | none =>
    refine .inl ⟨by simp only [drainLoop, hfind], fun frame hf hs => ?_⟩
    have := findIdx?_eq_none_iff.1 hfind frame hf
    simp [hs] at this
  | some index =>
    obtain ⟨hlt, hs, -⟩ := findIdx?_eq_some_iff_getElem.1 hfind
    have hget : c.buffer[index]? = some c.buffer[index] := getElem?_eq_getElem hlt
    have hs : sequenceOf c.buffer[index] = some (c.lastSequence + 1) := by simpa using hs
    refine .inr ⟨index, c.buffer[index], hget, hs, ?_⟩
    simp only [drainLoop, hfind, hget, hs, Option.getD_some]

/-- What the drain's loop does: it takes frames in order until none in the buffer is next, and
takes out of the buffer only frames it has passed. -/
theorem drainLoop_spec (hfuel : c.buffer.length ≤ fuel) :
    Advances c (drainLoop fuel c) ∧
    (∀ frame ∈ (drainLoop fuel c).buffer, frame ∈ c.buffer ∧
      sequenceOf frame ≠ some ((drainLoop fuel c).lastSequence + 1)) ∧
    ∀ frame ∈ c.buffer, frame ∈ (drainLoop fuel c).buffer ∨
      ∃ s, sequenceOf frame = some s ∧ s ≤ (drainLoop fuel c).lastSequence := by
  induction fuel generalizing c with
  | zero =>
    have hnil : c.buffer = [] := eq_nil_of_length_eq_zero (Nat.le_zero.1 hfuel)
    refine ⟨.refl c, ?_, fun frame hf => .inl hf⟩
    intro frame hf
    rw [drainLoop, hnil] at hf
    exact absurd hf not_mem_nil
  | succ fuel ih =>
    rcases drainLoop_succ fuel c with ⟨he, hnone⟩ | ⟨index, next, hget, hs, he⟩
    · rw [he]
      exact ⟨.refl c, fun frame hf => ⟨hf, hnone frame hf⟩, fun frame hf => .inl hf⟩
    · rw [he]
      have htake := advances_take (c := { c with buffer := c.buffer.eraseIdx index }) hs
      generalize hd : ({ c with buffer := c.buffer.eraseIdx index }.applyIfValid next).moveOnto next
        (c.lastSequence + 1) = d at htake
      have hbuf : d.buffer = c.buffer.eraseIdx index := by rw [← hd, buffer_take]
      have hlast : d.lastSequence = c.lastSequence + 1 := by rw [← hd, lastSequence_take]
      obtain ⟨hlt, hnext⟩ := List.getElem?_eq_some_iff.1 hget
      have hlen : d.buffer.length ≤ fuel := by
        rw [hbuf, length_eraseIdx_of_lt hlt]
        omega
      obtain ⟨hadv, hleft, hkept⟩ := ih d hlen
      refine ⟨(htake.setBuffer c.buffer d.buffer).trans hadv, ?_, ?_⟩
      · intro frame hf
        obtain ⟨hmem, hne⟩ := hleft frame hf
        rw [hbuf] at hmem
        exact ⟨mem_of_mem_eraseIdx hmem, hne⟩
      · intro frame hf
        by_cases hnx : frame = next
        · refine .inr ⟨c.lastSequence + 1, hnx ▸ hs, ?_⟩
          rw [← hlast]
          exact hadv.grows
        · refine hkept frame ?_
          rw [hbuf]
          obtain ⟨i, hi⟩ := mem_iff_getElem?.1 hf
          refine mem_eraseIdx_iff_getElem?.2 ⟨i, ?_, hi⟩
          rintro rfl
          exact hnx (Option.some.inj (hi.symm.trans hget))

theorem advances_drainBuffer : Advances c c.drainBuffer :=
  (drainLoop_spec c.buffer.length c (Nat.le_refl _)).1.setBuffer c.buffer _

theorem mem_buffer_drainBuffer {s : Int} (hs : sequenceOf frame = some s) :
    frame ∈ c.drainBuffer.buffer ↔ frame ∈ c.buffer ∧ c.drainBuffer.lastSequence < s := by
  obtain ⟨-, hleft, hkept⟩ := drainLoop_spec c.buffer.length c (Nat.le_refl _)
  show frame ∈ filter _ _ ↔ frame ∈ c.buffer ∧ (drainLoop c.buffer.length c).lastSequence < s
  rw [mem_filter, hs]
  simp only [Option.getD_some, decide_eq_true_eq]
  refine and_congr_left fun hlt => ⟨fun hf => (hleft frame hf).1, fun hf => ?_⟩
  rcases hkept frame hf with hf | ⟨s', hs', hle⟩
  · exact hf
  · rw [hs] at hs'
    cases hs'
    exact absurd hle (Int.not_le.2 hlt)

theorem next_notMem_of_drainBuffer (hf : frame ∈ c.buffer) :
    sequenceOf frame ≠ some (c.drainBuffer.lastSequence + 1) := by
  show sequenceOf frame ≠ some ((drainLoop c.buffer.length c).lastSequence + 1)
  intro hs
  obtain ⟨-, hleft, hkept⟩ := drainLoop_spec c.buffer.length c (Nat.le_refl _)
  rcases hkept frame hf with hf | ⟨s, hs', hle⟩
  · exact (hleft frame hf).2 hs
  · rw [hs] at hs'
    cases hs'
    omega

/-! ## Replaying a page -/

/-- The rows right after a position, one sequence after the other. -/
def Consecutive : Int → List (FeedFrame δ) → Prop
  | _, [] => True
  | cursor, item :: items => item.sequence = cursor + 1 ∧ Consecutive (cursor + 1) items

instance decidableConsecutive : ∀ (cursor : Int) (items : List (FeedFrame δ)),
    Decidable (Consecutive cursor items)
  | _, [] => .isTrue trivial
  | cursor, item :: items =>
    have := decidableConsecutive (cursor + 1) items
    inferInstanceAs (Decidable (item.sequence = cursor + 1 ∧ Consecutive (cursor + 1) items))

theorem replayItem_spec (item : FeedFrame δ) (hle : item.sequence ≤ c.lastSequence + 1) :
    Advances c (c.replayItem validate item) ∧ (c.replayItem validate item).buffer = c.buffer ∧
    (c.replayItem validate item).lastSequence = max c.lastSequence item.sequence := by
  unfold replayItem
  split
  · next h => exact ⟨.refl c, rfl, by omega⟩
  · next h =>
    have hnext : item.sequence = c.lastSequence + 1 := by omega
    have hs := sequenceOf_classifyServerEvent validate item
    rw [hnext] at hs ⊢
    exact ⟨advances_take hs, buffer_take .., by rw [lastSequence_take]; omega⟩

/-- **Replaying a page.** Rows that follow a position the cursor has reached are taken in order, and
the cursor ends no earlier than the last of them and no later than it has to. -/
theorem replay_spec (items : List (FeedFrame δ)) (cursor : Int) (c : FeedCursor δ)
    (hc : Consecutive cursor items) (hle : cursor ≤ c.lastSequence) :
    Advances c (items.foldl (replayItem validate) c) ∧
    (items.foldl (replayItem validate) c).buffer = c.buffer ∧
    (items.foldl (replayItem validate) c).lastSequence =
    max c.lastSequence (cursor + items.length) := by
  induction items generalizing cursor c with
  | nil => exact ⟨.refl c, rfl, by simp only [foldl_nil, length_nil]; omega⟩
  | cons item items ih =>
    obtain ⟨hitem, hrest⟩ := hc
    obtain ⟨hadv, hbuf, hlast⟩ := replayItem_spec validate c item (by omega)
    obtain ⟨hadv', hbuf', hlast'⟩ := ih (cursor + 1) (c.replayItem validate item) hrest (by omega)
    refine ⟨hadv.trans hadv', hbuf'.trans hbuf, ?_⟩
    rw [foldl_cons, hlast', length_cons]
    omega

end

end

end FeedCursor

/-- The committed feed right after a cursor, as far as one page goes. -/
def FeedPage.Follows (page : FeedPage δ) (cursor : Int) : Prop :=
  FeedCursor.Consecutive cursor page.items ∧ page.nextCursor = cursor + page.items.length

instance (page : FeedPage δ) (cursor : Int) : Decidable (page.Follows cursor) :=
  inferInstanceAs (Decidable (_ ∧ _))

end Peen.Web
