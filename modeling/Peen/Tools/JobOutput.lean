import Mathlib.Logic.Function.Basic
import Peen.Base
import Peen.Tools.JobBuffer

/-!
# The way of a job's output to its store

A reader of each stream puts lines into a `jobOutputQueue`, and `relayJobStream` takes all that are
there and hands them to the store in batches.
-/

namespace Peen.Tools.JobOutput

open List Lts

abbrev Line := List UInt8

inductive JobStream
  | stdout | stderr
deriving DecidableEq

def jobOutputBatchLines : Nat := 10000

def jobOutputBatchBytes : Nat := 1048576

/-- The loop of `jobOutputBatchEnd`, behind `taken` lines with `size` bytes. -/
def batchEnd (taken size : Nat) : List Line → Nat
  | [] => taken
  | line :: rest =>
    if (taken = jobOutputBatchLines ∨ size + line.length > jobOutputBatchBytes) ∧ taken > 0 then
      taken
    else batchEnd (taken + 1) (size + line.length) rest

def jobOutputBatchEnd (held : List Line) : Nat := batchEnd 0 0 held

/-- Where a relay is: before the job's start is recorded, at the top of `take`, waiting for `ready`,
or in `recordOutputs` with the lines from `start` on. -/
inductive Place
  | unrecorded
  | taking
  | blocked
  | recording (held : List Line)
  | returned

@[simp] def Place.held : Place → List Line
  | .recording held => held
  | _ => []

/-- A stream: the lines it produced, its `jobOutputQueue`, whether the reader still has to signal,
its relay, and the job's buffer. -/
structure Relay where
  produced : List Line := []
  records : List Line := []
  closed : Bool := false
  ready : Bool := false
  signals : Bool := false
  place : Place := .unrecorded
  buffer : JobBuffer

structure Call where
  stream : JobStream
  records : List Line
  ok : Bool

/-- Both streams, which share the job's failure. -/
structure World where
  relay : JobStream → Relay
  recorded : Bool := false
  failed : Bool := false
  calls : List Call := []

def World.put (w : World) (s : JobStream) (r : Relay) : World :=
  { w with relay := Function.update w.relay s r }

/-- A call of `observeOutput`, and what is kept of its error. -/
def World.observeOutput (w : World) (s : JobStream) (records : List Line) (ok : Bool) : World :=
  { w with calls := w.calls ++ [⟨s, records, ok⟩], failed := !ok }

/-- `recordOutputBatch`, and the rest of the lines held. -/
def World.recordOutputBatch (w : World) (s : JobStream) (held : List Line) (ok : Bool) : World :=
  let n := jobOutputBatchEnd held
  let r := { w.relay s with
    place := if held.drop n = [] then .taking else .recording (held.drop n) }
  if w.failed then w.put s r
  else
    (w.observeOutput s (held.take n) ok).put s
      (if ok then { r with buffer := (held.take n).foldl JobBuffer.append r.buffer } else r)

/-- A section under a lock; the store's answers are open. -/
inductive Action
  | push (s : JobStream) (line : Line)
  | close (s : JobStream)
  | signal (s : JobStream)
  | start (ok : Bool)
  | enter (s : JobStream)
  | take (s : JobStream)
  | wake (s : JobStream)
  | record (s : JobStream) (ok : Bool)

def step (w : World) : Action → Option World
  | .push s line =>
    let r := w.relay s
    if r.closed ∨ r.signals then none
    else some (w.put s { r with
      produced := r.produced ++ [line], records := r.records ++ [line], signals := true })
  | .close s =>
    let r := w.relay s
    if r.closed ∨ r.signals then none else some (w.put s { r with closed := true, signals := true })
  | .signal s =>
    let r := w.relay s
    if r.signals then some (w.put s { r with ready := true, signals := false }) else none
  | .start ok =>
    if w.recorded then none else some { w with recorded := true, failed := w.failed || !ok }
  | .enter s =>
    match (w.relay s).place with
    | .unrecorded =>
      if w.recorded then some (w.put s { w.relay s with place := .taking }) else none
    | _ => none
  | .take s =>
    let r := w.relay s
    match r.place with
    | .taking => some (w.put s { r with
        records := []
        place := if r.records ≠ [] then .recording r.records
          else if r.closed then .returned else .blocked })
    | _ => none
  | .wake s =>
    let r := w.relay s
    match r.place with
    | .blocked =>
      if r.ready then some (w.put s { r with ready := false, place := .taking }) else none
    | _ => none
  | .record s ok =>
    match (w.relay s).place with
    | .recording held => some (w.recordOutputBatch s held ok)
    | _ => none

/-- The lines of a stream handed to the store. -/
def World.handed (w : World) (s : JobStream) : List Line :=
  (w.calls.filter (·.stream = s)).flatMap (·.records)

def World.stored (w : World) (s : JobStream) : List Line :=
  (w.calls.filter fun c => c.stream = s ∧ c.ok).flatMap (·.records)

def Bounded (batch : List Line) : Prop :=
  batch.length = 1 ∨
    batch.length ≤ jobOutputBatchLines ∧ (batch.map length).sum ≤ jobOutputBatchBytes

/-- What holds of a stream, with the lines of it that were handed to the store and those stored. -/
structure Kept (init : JobBuffer) (failed : Bool) (handed stored : List Line) (r : Relay) :
    Prop where
  start : handed <+: r.produced
  buffer : r.buffer = stored.foldl JobBuffer.append init
  whole : failed = false → handed ++ (r.place.held ++ r.records) = r.produced
  returned : r.place = .returned → r.closed = true ∧ r.records = []

/-- No call follows a failed one, and each stream is kept. -/
structure Inv (init : JobBuffer) (w : World) : Prop where
  bounded : ∀ c ∈ w.calls, Bounded c.records
  last : ∀ c ∈ w.calls.dropLast, c.ok = true
  all : w.failed = false → ∀ c ∈ w.calls, c.ok = true
  kept : ∀ s, Kept init w.failed (w.handed s) (w.stored s) (w.relay s)

/-- A relay that waits although it has something to do has a wake-up, or the reader is about to give
one. -/
def Relay.Woken (r : Relay) : Prop :=
  r.place = .blocked → r.records ≠ [] ∨ r.closed = true → r.ready = true ∨ r.signals = true

section
variable {w w' : World} {s : JobStream} {r r' : Relay} {held handed stored batch : List Line}
  {ok : Bool} {init : JobBuffer}

theorem bounded_batchEnd (held : List Line) (taken size : Nat) (front : List Line)
    (hlen : front.length = taken) (hsize : (front.map length).sum = size)
    (hfront : taken = 1 ∨ taken ≤ jobOutputBatchLines ∧ size ≤ jobOutputBatchBytes) :
    Bounded ((front ++ held).take (batchEnd taken size held)) := by
  induction held generalizing taken size front with
  | nil => rwa [batchEnd, append_nil, ← hlen, take_length, Bounded, hlen, hsize]
  | cons line rest ih =>
    rw [batchEnd]
    split
    · rwa [take_left' hlen, Bounded, hlen, hsize]
    next hmore =>
      have := ih (taken + 1) (size + line.length) (front ++ [line]) (by simp [hlen])
        (by simp [hsize]) (by unfold jobOutputBatchLines at *; omega)
      rwa [append_assoc] at this

theorem Kept.moves (h : Kept init failed handed stored r) (hbuffer : r'.buffer = r.buffer)
    (added : List Line) (hproduced : r'.produced = r.produced ++ added)
    (hheld : r'.place.held ++ r'.records = r.place.held ++ r.records ++ added)
    (hreturned : r'.place = .returned → r'.closed = true ∧ r'.records = []) :
    Kept init failed handed stored r' := by
  refine ⟨hproduced ▸ h.start.trans (prefix_append _ _), hbuffer ▸ h.buffer, fun hok => ?_,
    hreturned⟩
  simp only [hheld, hproduced, ← h.whole hok, append_assoc]

theorem forall_put {P : JobStream → Relay → Prop} (h : ∀ t, t ≠ s → P t (w.relay t)) (hs : P s r)
    (t : JobStream) : P t ((w.put s r).relay t) := by
  by_cases ht : t = s
  · subst ht
    simpa [World.put] using hs
  · simpa [World.put, ht] using h t ht

theorem Inv.put (h : Inv init w)
    (hs : Kept init w.failed (w.handed s) (w.stored s) (w.relay s) →
      Kept init w.failed (w.handed s) (w.stored s) r) : Inv init (w.put s r) :=
  ⟨h.bounded, h.last, h.all, forall_put (fun t _ => h.kept t) (hs (h.kept s))⟩

theorem Kept.fail (h : Kept init failed handed stored r) : Kept init true handed stored r :=
  ⟨h.start, h.buffer, nofun, h.returned⟩

theorem lines_observeOutput (t : JobStream) :
    ((w.observeOutput s batch ok).put s r).handed t = w.handed t ++ (if t = s then batch else []) ∧
    ((w.observeOutput s batch ok).put s r).stored t =
      w.stored t ++ if t = s ∧ ok then batch else [] := by
  by_cases ht : t = s <;> cases ok <;>
    simp [World.handed, World.stored, World.put, World.observeOutput, ht, Ne.symm]

theorem Inv.observeOutput (h : Inv init w) (hfailed : w.failed = false) (hbounded : Bounded batch)
    (hs : Kept init (!ok) (w.handed s ++ batch) (w.stored s ++ if ok then batch else []) r) :
    Inv init ((w.observeOutput s batch ok).put s r) := by
  refine ⟨fun c hc => ?_, fun c hc => ?_, fun hok c hc => ?_, forall_put (fun t ht => ?_) ?_⟩
  · rcases mem_snoc.1 hc with hc | rfl
    · exact h.bounded c hc
    · exact hbounded
  · rw [World.put, World.observeOutput, dropLast_concat] at hc
    exact h.all hfailed c hc
  · rcases mem_snoc.1 hc with hc | rfl
    · exact h.all hfailed c hc
    · exact (Bool.not_eq_false' _).mp hok
  · rw [(lines_observeOutput t).1, (lines_observeOutput t).2, if_neg ht, if_neg (mt And.left ht),
      append_nil, append_nil]
    cases ok
    · exact (h.kept t).fail
    · have hk := h.kept t
      rwa [hfailed] at hk
  · show Kept init (!ok) _ _ r
    rw [(lines_observeOutput s).1, (lines_observeOutput s).2]
    simpa using hs

theorem Inv.recordOutputBatch (h : Inv init w) (hplace : (w.relay s).place = .recording held)
    (ok : Bool) : Inv init (w.recordOutputBatch s held ok) := by
  have hheld : ∀ rest : List Line,
      (if rest = [] then Place.taking else .recording rest).held = rest ∧
      (if rest = [] then Place.taking else .recording rest) ≠ .returned := by
    intro rest
    split
    next hrest => exact ⟨hrest.symm, nofun⟩
    next => exact ⟨rfl, nofun⟩
  unfold World.recordOutputBatch
  split
  next hfailed =>
    exact h.put fun hk => ⟨hk.start, hk.buffer, fun hok => absurd hok (by simp [hfailed]),
      fun hret => absurd hret (hheld _).2⟩
  next hfailed =>
    have hfailed : w.failed = false := Bool.not_eq_true _ ▸ hfailed
    have hk := h.kept s
    have hwhole := hk.whole hfailed
    rw [hplace, Place.held, ← take_append_drop (jobOutputBatchEnd held) held] at hwhole
    have hstart : w.handed s ++ held.take (jobOutputBatchEnd held) <+: (w.relay s).produced :=
      ⟨held.drop (jobOutputBatchEnd held) ++ (w.relay s).records, by
        rw [← hwhole]
        simp only [append_assoc]⟩
    refine h.observeOutput hfailed (bounded_batchEnd held 0 0 [] rfl rfl (by simp)) ?_
    cases ok
    · exact ⟨hstart, by simpa using hk.buffer, nofun, fun hret => absurd hret (hheld _).2⟩
    · refine ⟨hstart, ?_, fun _ => ?_, fun hret => absurd hret (hheld _).2⟩
      · simp [hk.buffer]
      · simp only [if_true, hheld, ← hwhole, append_assoc]

theorem Inv.step (h : Inv init w) (hs : step w a = some w') : Inv init w' := by
  cases a with
  | push s line =>
    obtain ⟨hopen, hs⟩ := of_unless hs
    cases hs
    exact h.put fun hk => hk.moves rfl [line] rfl (append_assoc _ _ _).symm fun hret =>
      absurd (.inl (hk.returned hret).1) hopen
  | close s =>
    cases (of_unless hs).2
    exact h.put fun hk => hk.moves rfl [] (append_nil _).symm (append_nil _).symm fun hret =>
      ⟨rfl, (hk.returned hret).2⟩
  | signal s =>
    cases (of_guard hs).2
    exact h.put fun hk => hk.moves rfl [] (append_nil _).symm (append_nil _).symm hk.returned
  | start ok =>
    cases (of_unless hs).2
    cases ok
    · simp only [Bool.not_false, Bool.or_true]
      exact ⟨h.bounded, h.last, nofun, fun s => (h.kept s).fail⟩
    · simp only [Bool.not_true, Bool.or_false]
      exact ⟨h.bounded, h.last, h.all, h.kept⟩
  | enter s =>
    simp only [JobOutput.step] at hs
    split at hs
    next hplace =>
      cases (of_guard hs).2
      exact h.put fun hk => hk.moves rfl [] (append_nil _).symm (by simp [hplace]) nofun
    next => cases hs
  | take s =>
    simp only [JobOutput.step] at hs
    split at hs
    next hplace =>
      cases hs
      refine h.put fun hk => hk.moves rfl [] (append_nil _).symm ?_ ?_
      · split <;> [skip; split] <;> simp_all
      · split <;> [skip; split] <;> simp_all
    next => cases hs
  | wake s =>
    simp only [JobOutput.step] at hs
    split at hs
    next hplace =>
      cases (of_guard hs).2
      exact h.put fun hk => hk.moves rfl [] (append_nil _).symm (by simp [hplace]) nofun
    next => cases hs
  | record s ok =>
    simp only [JobOutput.step] at hs
    split at hs
    next hplace =>
      cases hs
      exact h.recordOutputBatch hplace ok
    next => cases hs

/-- **No step loses a wake-up.** The reader signals whatever it does, only the relay takes the signal,
and it goes to wait only where it has found nothing to do. -/
theorem woken_step (h : ∀ t, (w.relay t).Woken) (hs : step w a = some w') :
    ∀ t, (w'.relay t).Woken := by
  have hput : ∀ {s : JobStream} {r : Relay}, r.Woken → ∀ t, ((w.put s r).relay t).Woken :=
    fun hr => forall_put (P := fun _ => Relay.Woken) (fun t _ => h t) hr
  cases a with
  | push s line | close s =>
    cases (of_unless hs).2
    exact hput fun _ _ => .inr rfl
  | signal s =>
    cases (of_guard hs).2
    exact hput fun _ _ => .inl rfl
  | start ok =>
    cases (of_unless hs).2
    exact h
  | enter s | wake s =>
    simp only [JobOutput.step] at hs
    split at hs
    next => cases (of_guard hs).2; exact hput nofun
    next => cases hs
  | take s =>
    simp only [JobOutput.step] at hs
    split at hs
    next =>
      cases hs
      refine hput fun hblocked hbusy => ?_
      rcases hbusy with hne | hclosed
      · exact absurd rfl hne
      · rw [show (w.relay s).closed = true from hclosed, if_pos rfl] at hblocked
        split at hblocked <;> cases hblocked
    next => cases hs
  | record s ok =>
    simp only [JobOutput.step] at hs
    split at hs
    next held hplace =>
      cases hs
      have hnext : (if held.drop (jobOutputBatchEnd held) = [] then Place.taking
          else .recording (held.drop (jobOutputBatchEnd held))) ≠ .blocked := by
        split <;> exact nofun
      unfold World.recordOutputBatch
      split
      · exact hput fun hblocked => absurd hblocked hnext
      · refine forall_put (P := fun _ => Relay.Woken) (fun t _ => h t) fun hblocked => ?_
        cases ok <;> exact absurd hblocked hnext
    next => cases hs

end

/-- **Output is stored and shown faithfully**, whatever the readers, relays and the store do. The
lines of a stream handed to the store are a first part of those it produced, in bounded batches; the
job's buffer gets those the store accepted; no call follows one that failed; a relay that ends without
a failure has stored every line of a stream that ended; and no wake-up of a relay is lost. -/
theorem output_stored_faithfully (init : JobBuffer) (actions : List Action) :
    Always step (fun w =>
      (∀ c ∈ w.calls, Bounded c.records) ∧
      (∀ before c after, w.calls = before ++ c :: after → c.ok = false → after = []) ∧
      ∀ s, w.handed s <+: (w.relay s).produced ∧
        (w.relay s).buffer = (w.stored s).foldl JobBuffer.append init ∧
        ((w.relay s).place = .returned → w.failed = false →
          (w.relay s).closed = true ∧ w.stored s = (w.relay s).produced) ∧
        (w.relay s).Woken)
      { relay := fun _ => { buffer := init } } actions := by
  have hnew : Inv init { relay := fun _ => { buffer := init } } :=
    ⟨nofun, nofun, nofun, fun _ => ⟨⟨_, rfl⟩, rfl, fun _ => rfl, nofun⟩⟩
  have hrun : Always step (fun w => Inv init w ∧ ∀ s, (w.relay s).Woken)
      { relay := fun _ => { buffer := init } } actions :=
    .of_step (fun _ _ _ h hs => ⟨h.1.step hs, woken_step h.2 hs⟩) ⟨hnew, fun _ => nofun⟩
  refine hrun.mono fun w ⟨h, hwoken⟩ => ?_
  refine ⟨h.bounded, fun before c after hcalls hc => ?_, fun s => ?_⟩
  · by_contra hne
    have hmem : c ∈ w.calls.dropLast := by
      rw [hcalls, dropLast_append_of_ne_nil (cons_ne_nil _ _), dropLast_cons_of_ne_nil hne]
      exact mem_append_right _ mem_cons_self
    exact absurd (h.last c hmem) (by simp [hc])
  · have hk := h.kept s
    refine ⟨hk.start, hk.buffer, fun hret hok => ⟨(hk.returned hret).1, ?_⟩, hwoken s⟩
    have hall : w.stored s = w.handed s := by
      unfold World.stored World.handed
      congr 1
      exact filter_congr fun c hc => by simp [h.all hok c hc]
    have hwhole := hk.whole hok
    simpa [hret, (hk.returned hret).2, hall] using hwhole

end Peen.Tools.JobOutput
