import Peen.Base
import Peen.Lib.Run

/-!
# The resume gate

The steps of one execution run as coroutines of one workflow, one at a time.
-/

namespace Peen.ResumeGate

open Lts

/-- `ActivityDecision` as the loop reads it: to go on is to execute or to reuse. -/
inductive Decision where
  | goOn
  | paused
  | reconcile
  deriving DecidableEq

def Decision.waits (d : Decision) : Bool := d == .paused || d == .reconcile

/-- Where a step of the execution is. An activity that is under way has no answer yet. -/
inductive StepPlace where
  /-- Not in `awaitWorkflowActivity`. -/
  | away
  /-- The first attempt of its activity. -/
  | attempt (answer : Option Decision)
  /-- Asking again, with the epoch noted before. -/
  | recheck (seen : Nat) (answer : Option Decision)
  /-- In the `Select` of `wait`, with its own channel. -/
  | blocked (woken : Nat)
  deriving DecidableEq

/-- The capacity of the workflow's signal channel. -/
def signalBuffer : Nat := 100

/-- One execution: what is saved of it, its signals on their way, and the workflow's coroutines. -/
structure World where
  /-- The execution is paused. -/
  paused : Bool
  /-- The activity of a step is uncertain, and has to be inspected. -/
  uncertain : Nat → Bool
  /-- Resumes and resolutions that committed and did not read the execution yet. -/
  committed : Nat
  /-- Those that read it as admitted, and did not send their signal yet. -/
  signalling : Nat
  /-- Signals sent and not handed to the workflow yet. -/
  sent : Nat
  /-- Signals the workflow keeps for a channel nobody opened. -/
  pending : Nat
  /-- The signals in the channel, once it is open. -/
  channel : Option Nat
  /-- `resumeGate.epoch`. -/
  epoch : Nat
  /-- `resumeGate.waiters`. -/
  waiters : List Nat
  /-- How many channels `wait` made. -/
  channels : Nat
  /-- Whether such a channel holds a token. -/
  token : Nat → Bool
  /-- The steps. -/
  place : Nat → StepPlace

section
variable (w : World)

def World.decide (i : Nat) : Decision :=
  if w.paused then .paused else if w.uncertain i then .reconcile else .goOn

def World.goto (i : Nat) (p : StepPlace) : World :=
  { w with place := fun k => if k = i then p else w.place k }

/-- One step took the signal: the epoch advances and the others wake. -/
def World.broadcast : World :=
  { w with
    epoch := w.epoch + 1
    token := fun c => w.token c || w.waiters.contains c
    waiters := [] }

/-- `NewSignalChannel`: the first to ask for the channel opens it, with the signals kept for it. More
than `signalBuffer` kept signals would block the send that puts them into the channel; here it takes
them all. -/
def World.openChannel : World :=
  match w.channel with
  | some _ => w
  | none => { w with channel := some w.pending, pending := 0 }

def World.askAgain (i : Nat) : World := w.goto i (.recheck w.epoch none)

/-- `resumeGate.wait` up to its `Select`. -/
def World.wait (i seen : Nat) : World :=
  if w.epoch > seen then w.askAgain i
  else
    let woken := w.channels
    ({ w with
      channels := woken + 1
      token := fun c => if c = woken then false else w.token c
      waiters := w.waiters ++ [woken] }.openChannel).goto i (.blocked woken)

/-- The `Select` of `resumeGate.wait`: a signal before a token, and otherwise the step stays. -/
def World.select (i woken : Nat) : Option World :=
  match w.channel with
  | some (n + 1) => some ({ w with channel := some n }.broadcast.askAgain i)
  | _ =>
    if w.token woken then
      some ({ w with token := fun c => if c = woken then false else w.token c }.askAgain i)
    else none

def World.receive : World :=
  match w.channel with
  | none => { w with pending := w.pending + 1 }
  | some n => if n < signalBuffer then { w with channel := some (n + 1) } else w

/-- A resume commits, reads whether the execution is admitted, and then signals; steps ask, wait and
wake. -/
inductive Action where
  /-- A step calls `awaitWorkflowActivity`. -/
  | start (i : Nat)
  /-- The store answers the activity of a step. -/
  | answer (i : Nat)
  /-- The attempt of a step's activity fails, or is cancelled while the workflow runs on. -/
  | fail (i : Nat) (cancelled : Bool)
  /-- A step goes on with its answer. -/
  | proceed (i : Nat)
  /-- A step in `Select` is resumed. -/
  | select (i : Nat)
  | pause
  | resume
  /-- A step's activity is marked uncertain. -/
  | lose (i : Nat)
  /-- It is inspected. -/
  | resolve (i : Nat)
  /-- Another request of the session has its executions signalled, and so this one. -/
  | prompt
  /-- `nudgeAdmittedExecutions` reads the execution. -/
  | nudge
  /-- `SignalWorkflow`. -/
  | signal
  /-- The signal is handed to the workflow. -/
  | deliver

def step : Action → Option World
  | .start i => if w.place i = .away then some (w.goto i (.attempt none)) else none
  | .answer i =>
    match w.place i with
    | .attempt none => some (w.goto i (.attempt (some (w.decide i))))
    | .recheck seen none => some (w.goto i (.recheck seen (some (w.decide i))))
    | _ => none
  | .fail i cancelled =>
    match w.place i with
    | .attempt none =>
      some (w.goto i (if cancelled then .attempt (some .reconcile) else .away))
    | .recheck _ none => some (w.goto i .away)
    | _ => none
  | .proceed i =>
    match w.place i with
    | .attempt (some d) => some (if d.waits then w.askAgain i else w.goto i .away)
    | .recheck seen (some d) => some (if d.waits then w.wait i seen else w.goto i .away)
    | _ => none
  | .select i =>
    match w.place i with
    | .blocked woken => w.select i woken
    | _ => none
  | .pause => some { w with paused := true }
  | .resume => some { w with paused := false, committed := w.committed + 1 }
  | .lose i => some { w with uncertain := fun k => if k = i then true else w.uncertain k }
  | .resolve i => some { w with
      uncertain := fun k => if k = i then false else w.uncertain k
      committed := w.committed + 1 }
  | .prompt => some { w with committed := w.committed + 1 }
  | .nudge =>
    match w.committed with
    | 0 => none
    | n + 1 =>
      some { w with
        committed := n
        signalling := if w.paused then w.signalling else w.signalling + 1 }
  | .signal =>
    match w.signalling with
    | 0 => none
    | n + 1 => some { w with signalling := n, sent := w.sent + 1 }
  | .deliver =>
    match w.sent with
    | 0 => none
    | n + 1 => some { w with sent := n }.receive

def initial (paused : Bool) : World :=
  ⟨paused, fun _ => false, 0, 0, 0, 0, none, 0, [], 0, fun _ => false, fun _ => .away⟩

/-! ## Signals on their way -/

/-- A signal that no step received: one that is still to be sent, was sent, is kept or is in the
channel. -/
def World.Undelivered : Prop :=
  w.committed ≠ 0 ∨ w.signalling ≠ 0 ∨ w.sent ≠ 0 ∨ w.pending ≠ 0 ∨ ∃ n, w.channel = some (n + 1)

/-- A step that waits with reason: the execution is paused, its activity has to be inspected, or a
signal is on its way. -/
def World.Excused (i : Nat) : Prop :=
  w.paused = true ∨ w.uncertain i = true ∨ w.Undelivered

end

/-- **No answer is outlived unnoticed.** A step that was told to wait has a reason, or the epoch it
noted is over; one that is blocked has a reason, or holds a token. -/
structure World.Watched (w : World) : Prop where
  noted : ∀ i seen answer, w.place i = .recheck seen answer → seen ≤ w.epoch
  told : ∀ i seen d, w.place i = .recheck seen (some d) → d.waits = true →
    w.Excused i ∨ seen < w.epoch
  blocked : ∀ i c, w.place i = .blocked c → w.Excused i ∨ w.token c = true
  listed : ∀ i c, w.place i = .blocked c →
    c < w.channels ∧ (w.token c = true ∨ c ∈ w.waiters)
  apart : ∀ i j c, w.place i = .blocked c → w.place j = .blocked c → i = j

section
variable {w w' : World} {i : Nat}

namespace World

theorem Watched.of_excused (h : w.Watched)
    (hpc : w'.place = w.place) (hepoch : w'.epoch = w.epoch) (htoken : w'.token = w.token)
    (hwait : w'.waiters = w.waiters) (hchs : w'.channels = w.channels)
    (hex : ∀ i, w.Excused i → w'.Excused i) : w'.Watched where
  noted := by rw [hpc, hepoch]; exact h.noted
  told := by
    rw [hpc, hepoch]
    exact fun i seen d hp hd => (h.told i seen d hp hd).imp_left (hex i)
  blocked := by
    rw [hpc, htoken]
    exact fun i c hp => (h.blocked i c hp).imp_left (hex i)
  listed := by rw [hpc, hchs, htoken, hwait]; exact h.listed
  apart := by rw [hpc]; exact h.apart

theorem Watched.goto (h : w.Watched)
    (hnoted : ∀ seen answer, p = .recheck seen answer → seen ≤ w.epoch)
    (htold : ∀ seen d, p = .recheck seen (some d) → d.waits = true → w.Excused i ∨ seen < w.epoch)
    (hblocked : ∀ c, p ≠ .blocked c) : (w.goto i p).Watched := by
  have hold {k c : Nat} (hk : (w.goto i p).place k = .blocked c) : w.place k = .blocked c := by
    simp only [World.goto] at hk
    split at hk
    · exact absurd hk (hblocked c)
    · exact hk
  refine ⟨?_, ?_, ?_, ?_, ?_⟩
  · intro k seen answer hk
    simp only [World.goto] at hk
    split at hk
    · exact hnoted seen answer hk
    · exact h.noted k seen answer hk
  · intro k seen d hk hd
    simp only [World.goto] at hk
    split at hk
    next hki => subst hki; exact htold seen d hk hd
    next => exact h.told k seen d hk hd
  · exact fun k c hk => h.blocked k c (hold hk)
  · exact fun k c hk => h.listed k c (hold hk)
  · exact fun k j c hk hj => h.apart k j c (hold hk) (hold hj)

theorem Watched.away (h : w.Watched) : (w.goto i .away).Watched :=
  h.goto nofun nofun nofun

theorem Watched.attempt (h : w.Watched) (answer : Option Decision) :
    (w.goto i (.attempt answer)).Watched :=
  h.goto nofun nofun nofun

theorem Watched.askAgain (h : w.Watched) : (w.askAgain i).Watched := by
  refine h.goto ?_ nofun nofun
  intro seen answer hp
  cases hp
  exact Nat.le_refl _

/-- **A broadcast** reaches every step: who waits gets a token, and who was told to wait noted an
earlier epoch. -/
theorem Watched.broadcast (h : w.Watched) (hpc : w'.place = w.place)
    (hepoch : w'.epoch = w.epoch) (htoken : w'.token = w.token) (hwait : w'.waiters = w.waiters)
    (hchs : w'.channels = w.channels) : w'.broadcast.Watched := by
  have htok (k c : Nat) (hk : w'.place k = .blocked c) : w'.broadcast.token c = true := by
    rw [hpc] at hk
    simp only [World.broadcast, htoken, hwait, Bool.or_eq_true, List.contains_iff_mem]
    exact (h.listed k c hk).2
  refine ⟨?_, ?_, ?_, ?_, ?_⟩
  · intro k seen answer hk
    have := h.noted k seen answer (hpc ▸ hk)
    simp only [World.broadcast, hepoch]
    omega
  · intro k seen d hk _
    have := h.noted k seen _ (hpc ▸ hk)
    simp only [World.broadcast, hepoch]
    omega
  · exact fun k c hk => .inr (htok k c hk)
  · intro k c hk
    refine ⟨?_, .inl (htok k c hk)⟩
    have := (h.listed k c (hpc ▸ hk)).1
    simpa only [World.broadcast, hchs] using this
  · intro k j c hk hj
    exact h.apart k j c (hpc ▸ hk) (hpc ▸ hj)

theorem Excused.openChannel (h : w.Excused i) : w.openChannel.Excused i := by
  unfold World.openChannel
  split
  · exact h
  next hnone =>
    rcases h with h | h | h | h | h | h | ⟨n, h⟩
    · exact .inl h
    · exact .inr (.inl h)
    · exact .inr (.inr (.inl h))
    · exact .inr (.inr (.inr (.inl h)))
    · exact .inr (.inr (.inr (.inr (.inl h))))
    · obtain ⟨n, hn⟩ := Nat.exists_eq_succ_of_ne_zero h
      exact .inr (.inr (.inr (.inr (.inr (.inr ⟨n, by rw [hn]⟩)))))
    · rw [hnone] at h
      cases h

theorem openChannel_gate (w : World) : w.openChannel.place = w.place ∧
    w.openChannel.epoch = w.epoch ∧ w.openChannel.token = w.token ∧
    w.openChannel.waiters = w.waiters ∧ w.openChannel.channels = w.channels := by
  unfold openChannel
  split <;> exact ⟨rfl, rfl, rfl, rfl, rfl⟩

/-- **A step that goes to wait** still has the reason it was given. -/
theorem Watched.wait (h : w.Watched) {seen : Nat} (hex : w.Excused i ∨ seen < w.epoch) :
    (w.wait i seen).Watched := by
  unfold World.wait
  split
  · exact h.askAgain
  next hseen =>
  generalize hw1 : { w with
    channels := w.channels + 1
    token := fun c => if c = w.channels then false else w.token c
    waiters := w.waiters ++ [w.channels] } = w1
  have hw1ex (k : Nat) (hk : w.Excused k) : w1.openChannel.Excused k := by
    subst hw1
    exact World.Excused.openChannel hk
  obtain ⟨hpc, hepoch, htoken, hwait, hchs⟩ := w1.openChannel_gate
  subst hw1
  -- the channels of the others are older than the new one
  have hoth {k c : Nat} (hk : w.place k = .blocked c) : c ≠ w.channels :=
    Nat.ne_of_lt (h.listed k c hk).1
  refine ⟨?_, ?_, ?_, ?_, ?_⟩
  · intro k seen answer hk
    simp only [World.goto, hpc] at hk
    split at hk
    · cases hk
    · simp only [World.goto, hepoch]
      exact h.noted k seen answer hk
  · intro k seen d hk hd
    simp only [World.goto, hpc] at hk
    split at hk
    · cases hk
    · simp only [World.goto, hepoch]
      exact (h.told k seen d hk hd).imp_left (hw1ex k)
  · intro k c hk
    simp only [World.goto, hpc] at hk
    split at hk
    next hki =>
      subst hki
      exact .inl (hw1ex k (hex.resolve_right hseen))
    next =>
      simp only [World.goto, htoken, if_neg (hoth hk)]
      exact (h.blocked k c hk).imp_left (hw1ex k)
  · intro k c hk
    simp only [World.goto, hpc] at hk
    simp only [World.goto, hchs, htoken, hwait]
    split at hk
    next =>
      cases hk
      exact ⟨Nat.lt_succ_self _, .inr (List.mem_append_right _ (List.mem_singleton_self _))⟩
    next =>
      obtain ⟨hlt, hin⟩ := h.listed k c hk
      rw [if_neg (hoth hk)]
      exact ⟨Nat.lt_succ_of_lt hlt, hin.imp_right (List.mem_append_left _)⟩
  · intro k j c hk hj
    simp only [World.goto, hpc] at hk hj
    split at hk
    next hki =>
      cases hk
      split at hj
      next hji => rw [hki, hji]
      next => exact absurd rfl (hoth hj)
    next =>
      split at hj
      next => cases hj; exact absurd rfl (hoth hk)
      next => exact h.apart k j c hk hj

theorem Watched.takeToken (h : w.Watched) {c : Nat} (hp : w.place i = .blocked c) :
    ({ w with token := fun k => if k = c then false else w.token k }.askAgain i).Watched := by
  have hold {k c' : Nat} (hk : ({ w with token := fun k => if k = c then false else w.token k
      }.askAgain i).place k = .blocked c') : w.place k = .blocked c' ∧ c' ≠ c := by
    simp only [World.askAgain, World.goto] at hk
    split at hk
    · cases hk
    next hki =>
      refine ⟨hk, fun hc => hki ?_⟩
      subst hc
      exact h.apart k i c' hk hp
  refine ⟨?_, ?_, ?_, ?_, ?_⟩
  · intro k seen answer hk
    simp only [World.askAgain, World.goto] at hk ⊢
    split at hk
    · cases hk; exact Nat.le_refl _
    · exact h.noted k seen answer hk
  · intro k seen d hk hd
    simp only [World.askAgain, World.goto] at hk
    split at hk
    · cases hk
    · exact h.told k seen d hk hd
  · intro k c' hk
    obtain ⟨hk, hc⟩ := hold hk
    simp only [World.askAgain, World.goto, if_neg hc]
    exact h.blocked k c' hk
  · intro k c' hk
    obtain ⟨hk, hc⟩ := hold hk
    simp only [World.askAgain, World.goto, if_neg hc]
    exact h.listed k c' hk
  · intro k j c' hk hj
    exact h.apart k j c' (hold hk).1 (hold hj).1

theorem receive_gate (w : World) : w.receive.place = w.place ∧
    w.receive.epoch = w.epoch ∧ w.receive.token = w.token ∧
    w.receive.waiters = w.waiters ∧ w.receive.channels = w.channels := by
  unfold receive
  split
  · exact ⟨rfl, rfl, rfl, rfl, rfl⟩
  · split <;> exact ⟨rfl, rfl, rfl, rfl, rfl⟩

/-- A signal that reaches the workflow is still undelivered: it is kept, it is in the channel, or the
channel is full. -/
theorem receive_undelivered (w : World) : w.receive.Undelivered := by
  unfold receive
  split
  · exact .inr (.inr (.inr (.inl (Nat.succ_ne_zero _))))
  next n hn =>
    split
    · exact .inr (.inr (.inr (.inr ⟨n, rfl⟩)))
    next hfull =>
      cases n with
      | zero => exact absurd (Nat.zero_lt_succ _) hfull
      | succ n => exact .inr (.inr (.inr (.inr ⟨n, hn⟩)))

end World

/-- **One step** keeps every waiting step watched. -/
theorem watched_step (h : w.Watched) (hstep : step w a = some w') : w'.Watched := by
  cases a with
  | start i =>
    obtain ⟨_, hstep⟩ := of_guard hstep
    cases hstep; exact h.attempt none
  | answer i =>
    simp only [step] at hstep
    split at hstep
    · cases hstep; exact h.attempt _
    next seen hp =>
      cases hstep
      refine h.goto ?_ ?_ nofun
      · intro seen' answer hp'
        cases hp'
        exact h.noted i seen none hp
      · intro seen' d hp' hd
        cases hp'
        refine .inl ?_
        unfold World.decide at hd
        split at hd
        next hpau => exact .inl hpau
        next =>
          split at hd
          next hunc => exact .inr (.inl hunc)
          next => cases hd
    · cases hstep
  | fail =>
    simp only [step] at hstep
    split at hstep
    · cases hstep
      split
      · exact h.attempt _
      · exact h.away
    · cases hstep; exact h.away
    · cases hstep
  | proceed i =>
    simp only [step] at hstep
    split at hstep
    · cases hstep
      split
      · exact h.askAgain
      · exact h.away
    next seen d hp =>
      cases hstep
      split
      next hd => exact h.wait (h.told i seen d hp hd)
      next => exact h.away
    · cases hstep
  | select i =>
    simp only [step] at hstep
    split at hstep
    next c hp =>
      unfold World.select at hstep
      split at hstep
      next n _ =>
        cases hstep
        have hb : { w with channel := some n }.broadcast.Watched :=
          h.broadcast rfl rfl rfl rfl rfl
        exact hb.askAgain
      next =>
        obtain ⟨_, hstep⟩ := of_guard hstep
        cases hstep; exact h.takeToken hp
    next => cases hstep
  | pause =>
    cases hstep
    exact h.of_excused rfl rfl rfl rfl rfl fun _ _ => .inl rfl
  | resume =>
    cases hstep
    exact h.of_excused rfl rfl rfl rfl rfl fun _ _ => .inr (.inr (.inl (Nat.succ_ne_zero _)))
  | lose i =>
    cases hstep
    refine h.of_excused rfl rfl rfl rfl rfl fun k hk => ?_
    rcases hk with hk | hk | hk
    · exact .inl hk
    · refine .inr (.inl ?_)
      dsimp only
      split
      · rfl
      · exact hk
    · exact .inr (.inr hk)
  | resolve | prompt =>
    cases hstep
    exact h.of_excused rfl rfl rfl rfl rfl fun _ _ => .inr (.inr (.inl (Nat.succ_ne_zero _)))
  | nudge =>
    simp only [step] at hstep
    split at hstep
    · cases hstep
    · cases hstep
      refine h.of_excused rfl rfl rfl rfl rfl fun k hk => ?_
      rcases Bool.eq_false_or_eq_true w.paused with hpau | hpau
      · exact .inl hpau
      · refine .inr (.inr (.inr (.inl ?_)))
        rw [if_neg (by rw [hpau]; exact nofun)]
        exact Nat.succ_ne_zero _
  | signal =>
    simp only [step] at hstep
    split at hstep
    · cases hstep
    · cases hstep
      exact h.of_excused rfl rfl rfl rfl rfl fun _ _ =>
        .inr (.inr (.inr (.inr (.inl (Nat.succ_ne_zero _)))))
  | deliver =>
    simp only [step] at hstep
    split at hstep
    · cases hstep
    next n _ =>
      cases hstep
      have hgate := World.receive_gate { w with sent := n }
      exact h.of_excused hgate.1 hgate.2.1 hgate.2.2.1 hgate.2.2.2.1 hgate.2.2.2.2 fun _ _ =>
        .inr (.inr (World.receive_undelivered _))

theorem watched_initial (paused : Bool) : (initial paused).Watched :=
  ⟨nofun, nofun, nofun, nofun, nofun⟩

end

/-! ## The main result -/

/-- Only the execution is paused and resumed: no activity of it is lost. -/
def Kept : World → Action → Prop
  | _, .lose _ => False
  | _, _ => True

instance (w : World) (a : Action) : Decidable (Kept w a) := by
  cases a <;> unfold Kept <;> infer_instance

theorem World.openChannel_uncertain (w : World) : w.openChannel.uncertain = w.uncertain := by
  unfold World.openChannel
  split <;> rfl

theorem World.wait_uncertain (w : World) (i seen : Nat) :
    (w.wait i seen).uncertain = w.uncertain := by
  unfold World.wait
  split
  · rfl
  · exact World.openChannel_uncertain _

theorem World.receive_uncertain (w : World) : w.receive.uncertain = w.uncertain := by
  unfold World.receive
  split
  · rfl
  · split <;> rfl

theorem uncertain_step (ha : Kept w a) (hstep : step w a = some w') {i : Nat}
    (hi : w'.uncertain i = true) : w.uncertain i = true := by
  cases a with
  | lose => exact absurd ha id
  | start | signal | nudge =>
    simp only [step] at hstep
    split at hstep <;> cases hstep
    exact hi
  | answer | fail =>
    simp only [step] at hstep
    split at hstep <;> cases hstep <;> exact hi
  | proceed i =>
    simp only [step] at hstep
    split at hstep
    · cases hstep
      split at hi <;> exact hi
    · cases hstep
      split at hi
      · rw [World.wait_uncertain] at hi; exact hi
      · exact hi
    · cases hstep
  | select i =>
    simp only [step, World.select] at hstep
    split at hstep
    · split at hstep
      · cases hstep; exact hi
      · split at hstep <;> cases hstep
        exact hi
    · cases hstep
  | pause | resume | prompt => cases hstep; exact hi
  | resolve =>
    cases hstep
    dsimp only at hi
    split at hi
    · cases hi
    · exact hi
  | deliver =>
    simp only [step] at hstep
    split at hstep <;> cases hstep
    rw [World.receive_uncertain] at hi
    exact hi

/-- A step that is blocked without a token while nothing is on its way waits for an inspection. -/
theorem World.Watched.uncertain {w : World} (h : w.Watched) (hpau : w.paused = false)
    (hnone : ¬ w.Undelivered) {i c : Nat} (hp : w.place i = .blocked c) (htok : w.token c = false) :
    w.uncertain i = true := by
  rcases h.blocked i c hp with hex | htok'
  · rcases hex with hex | hex | hex
    · rw [hpau] at hex; cases hex
    · exact hex
    · exact absurd hex hnone
  · rw [htok] at htok'; cases htok'

/-- **One resume reaches every step.** In every run of steps, rechecks, pauses, resumes and signals
there is no state in which the execution is not paused, no signal is undelivered and a step is blocked
without a token. When activities are lost and inspected besides, only a step whose activity still has
to be inspected may be. -/
theorem resume_reaches_every_step (paused : Bool) (run : List Action) :
    (Along step Kept (initial paused) run →
      Always step (fun w => ¬ (w.paused = false ∧ ¬ w.Undelivered ∧
        ∃ i c, w.place i = .blocked c ∧ w.token c = false)) (initial paused) run) ∧
    Always step (fun w => w.paused = false → ¬ w.Undelivered → ∀ i c, w.place i = .blocked c →
      w.token c = false → w.uncertain i = true) (initial paused) run := by
  refine ⟨?_, ?_⟩
  · intro hkept
    have hinv : Always step (fun w => w.Watched ∧ ∀ i, w.uncertain i ≠ true) (initial paused)
        run := by
      refine always_of_along ?_ ⟨watched_initial paused, nofun⟩ hkept
      intro w a w' h ha hstep
      exact ⟨watched_step h.1 hstep, fun i hi => h.2 i (uncertain_step ha hstep hi)⟩
    refine hinv.mono fun w h hx => ?_
    obtain ⟨hpaused, hnone, i, c, hp, htok⟩ := hx
    exact h.2 i (h.1.uncertain hpaused hnone hp htok)
  · have hinv : Always step World.Watched (initial paused) run :=
      .of_step (fun _ _ _ h hstep => watched_step h hstep) (watched_initial paused)
    refine hinv.mono ?_
    intro w h hpaused hnone i c hp htok
    exact h.uncertain hpaused hnone hp htok

/-- Two steps wait on a paused execution, one blocked and one asking again, when it is resumed: the
first receives the signal while the other is about to wait. -/
def twoSteps : List Action :=
  [.start 0, .start 1, .answer 0, .answer 1, .proceed 0, .proceed 1, .answer 0, .proceed 0,
    .answer 1, .resume, .nudge, .signal, .deliver, .select 0, .proceed 1]

/-- Nothing of the run is lost, and it ends with both steps asking again. -/
theorem resume_reaches_every_step_two :
    Along step Kept (initial true) twoSteps ∧
    Always step (fun w => ¬ (w.paused = false ∧ ¬ w.Undelivered ∧
      ∃ i c, w.place i = .blocked c ∧ w.token c = false)) (initial true) twoSteps ∧
    (exec step (initial true) twoSteps).map (fun w => (w.place 0, w.place 1)) =
      some (.recheck 1 none, .recheck 1 none) := by
  have hkept : Along step Kept (initial true) twoSteps := by decide
  exact ⟨hkept, (resume_reaches_every_step true twoSteps).1 hkept, by decide⟩

end Peen.ResumeGate
