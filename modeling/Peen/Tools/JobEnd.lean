import Peen.Base
import Peen.Lib.Run

/-!
# The end of a foreground command

`RunCommand` waits for its job until `done` is closed or the bound elapses, and then looks at the
job once more.
-/

namespace Peen.Tools.JobEnd

open Lts

inductive JobState
  | running | exited | signalled | failed
deriving DecidableEq

/-- The errors of `Process.Wait` that `classifyJobResult` tells apart; `failed` with the exit code
its text names. -/
inductive WaitErr
  | terminated | killed | failed (code : Option Int) | other

def unknownExitCode : Int := -1

def classifyJobResult : Option WaitErr → JobState × Int
  | none => (.exited, 0)
  | some .terminated | some .killed => (.signalled, unknownExitCode)
  | some (.failed code) => (.exited, code.getD unknownExitCode)
  | some .other => (.failed, unknownExitCode)

structure Job where
  state : JobState := .running
  exitCode : Int := unknownExitCode
  awaited : Bool := true
deriving DecidableEq

def Job.release (job : Job) : Job :=
  if job.state = .running then { job with awaited := false } else job

/-- The locked part of `finalize`. -/
def Job.finish (job : Job) (waitErr : Option WaitErr) (persistenceFailed : Bool) : Job :=
  let (state, exitCode) :=
    if persistenceFailed then (.failed, unknownExitCode) else classifyJobResult waitErr
  { job with state, exitCode }

/-- Where `monitor` stands; `observing` and `publishing` with the `awaited` it read. -/
inductive Monitor
  | waiting | observing (awaited : Bool) | publishing (awaited : Bool) | closing | closed
deriving DecidableEq

/-- Where `RunCommand` stands. It returns the job as its last look at it found it. -/
inductive Caller
  | waiting | looking | returned (output : Job) | cancelled
deriving DecidableEq

/-- The job with its monitor and the call that waits. -/
structure World where
  job : Job := {}
  monitor : Monitor := .waiting
  caller : Caller := .waiting
  published : Nat := 0

/-- `elapse` is the end of the call's own bound and `wait` the end of another call's, each with
whether its context was cancelled. -/
inductive Action
  | exit (waitErr : Option WaitErr) (persistenceFailed : Bool)
  | observeFinished (accepted : Bool) | publish | close
  | done | elapse (cancelled : Bool) | look | wait (cancelled : Bool)

def step (w : World) : Action → Option World
  | .exit waitErr persistenceFailed =>
    if w.monitor = .waiting then
      some { w with job := w.job.finish waitErr persistenceFailed,
                    monitor := .observing w.job.awaited }
    else none
  | .observeFinished accepted =>
    match w.monitor with
    | .observing awaited =>
      some { w with monitor := if accepted then .publishing awaited else .closing }
    | _ => none
  | .publish =>
    match w.monitor with
    | .publishing awaited =>
      some { w with monitor := .closing,
                    published := if awaited then w.published else w.published + 1 }
    | _ => none
  | .close => if w.monitor = .closing then some { w with monitor := .closed } else none
  | .done =>
    if w.caller = .waiting ∧ w.monitor = .closed then some { w with caller := .looking } else none
  | .elapse cancelled =>
    if w.caller = .waiting then
      some (if cancelled then { w with caller := .cancelled }
        else { w with job := w.job.release, caller := .looking })
    else none
  | .look => if w.caller = .looking then some { w with caller := .returned w.job } else none
  | .wait cancelled => some (if cancelled then w else { w with job := w.job.release })

/-- The store accepts the finished job, and the caller is not cancelled. -/
def Settled : Action → Prop
  | .observeFinished accepted => accepted = true
  | .elapse cancelled => cancelled = false
  | _ => True

/-- What is known of the completion event while the monitor stands at a place. -/
def Counted (job : Job) (published : Nat) : Monitor → Prop
  | .waiting => job.state = .running ∧ published = 0
  | .observing awaited | .publishing awaited =>
    job.state ≠ .running ∧ awaited = job.awaited ∧ published = 0
  | .closing | .closed => job.state ≠ .running ∧ published = if job.awaited then 0 else 1

/-- A caller that sees the job running, or is about to, has released it. -/
def Released (job : Job) : Caller → Prop
  | .waiting => True
  | .looking => job.state = .running → job.awaited = false
  | .returned output => output.state = .running → job.awaited = false
  | .cancelled => False

/-- The completion is published once, if nobody awaits the job. -/
structure Inv (w : World) : Prop where
  counted : Counted w.job w.published w.monitor
  released : Released w.job w.caller

theorem Job.finish_state (job : Job) (waitErr : Option WaitErr) (persistenceFailed : Bool) :
    (job.finish waitErr persistenceFailed).state ≠ .running := by
  rcases persistenceFailed with _ | _
  · rcases waitErr with _ | _ | _ | _ | _ <;> exact nofun
  · exact nofun

theorem Job.release_awaited (job : Job) :
    job.release.state = .running → job.release.awaited = false := by
  unfold Job.release
  split
  next => exact fun _ => rfl
  next hrun => exact fun h => absurd h hrun

theorem Inv.release (h : Inv w) : Inv { w with job := w.job.release } := by
  unfold Job.release
  split
  next hrun =>
    refine ⟨?_, ?_⟩
    · have hc := h.counted
      cases hm : w.monitor <;> simp_all [Counted]
    · have hr := h.released
      cases hc : w.caller <;> simp_all [Released]
  next => exact h

theorem Inv.step (h : Inv w) (ha : Settled a) (hs : step w a = some w') : Inv w' := by
  have hc := h.counted
  have hr := h.released
  cases a with
  | exit =>
    obtain ⟨hm, hs⟩ := of_guard hs
    cases hs
    rw [hm] at hc
    refine ⟨⟨w.job.finish_state _ _, rfl, hc.2⟩, ?_⟩
    cases hcaller : w.caller with
    | looking => exact fun hrun => absurd hrun (w.job.finish_state _ _)
    | _ => rw [hcaller] at hr; exact hr
  | observeFinished accepted =>
    cases show accepted = true from ha
    cases hm : w.monitor <;> simp only [JobEnd.step, hm] at hs <;> cases hs
    rw [hm] at hc
    exact ⟨hc, hr⟩
  | publish =>
    cases hm : w.monitor <;> simp only [JobEnd.step, hm] at hs <;> cases hs
    rw [hm] at hc
    obtain ⟨hstate, rfl, hzero⟩ := hc
    exact ⟨⟨hstate, by rw [hzero]⟩, hr⟩
  | close =>
    obtain ⟨hm, hs⟩ := of_guard hs
    cases hs
    rw [hm] at hc
    exact ⟨hc, hr⟩
  | done =>
    obtain ⟨⟨-, hm⟩, hs⟩ := of_guard hs
    cases hs
    rw [hm] at hc
    refine ⟨?_, fun hrun => absurd hrun hc.1⟩
    rw [hm]
    exact hc
  | elapse cancelled =>
    obtain ⟨-, hs⟩ := of_guard hs
    cases show cancelled = false from ha
    cases hs
    exact ⟨h.release.counted, w.job.release_awaited⟩
  | look =>
    obtain ⟨hcaller, hs⟩ := of_guard hs
    cases hs
    rw [hcaller] at hr
    exact ⟨hc, hr⟩
  | wait =>
    cases hs
    split
    · exact h
    · exact h.release

/-- **The end of a command is reported.** However the call, its time-out, other waits and the exit
interleave, where the store accepts the finished job and the caller is not cancelled: the event is
published at most once; once the monitor is through, a call that returned the job as running has its
event published; and after the exit nothing keeps the monitor or the call from going on to there. -/
theorem command_end_reported (actions : List Action)
    (hsettled : Along step (fun _ => Settled) {} actions) :
    Always step (fun w => w.published ≤ 1 ∧
      (w.monitor = .closed → ∀ output, w.caller = .returned output →
        output.state ≠ .running ∨ w.published = 1) ∧
      (w.monitor = .waiting ∨ (w.monitor = .closed ∧ ∃ output, w.caller = .returned output) ∨
        ∃ a ∈ [Action.observeFinished true, .publish, .close, .done, .look], (step w a).isSome))
      {} actions := by
  have hnew : Inv {} := ⟨⟨rfl, rfl⟩, trivial⟩
  refine (always_of_along (fun _ _ _ h ha hs => h.step ha hs) hnew hsettled).mono
    fun w ⟨hc, hr⟩ => ⟨?_, fun hm output hout => ?_, ?_⟩
  · cases hm : w.monitor <;> rw [hm] at hc <;> simp only [Counted] at hc <;> grind
  · rw [hm] at hc
    rw [hout] at hr
    by_cases hrun : output.state = .running
    · exact .inr (by rw [hc.2, hr hrun]; rfl)
    · exact .inl hrun
  · cases hm : w.monitor with
    | waiting => exact .inl rfl
    | observing => exact .inr (.inr ⟨.observeFinished true, by simp, by simp only [step, hm]; rfl⟩)
    | publishing => exact .inr (.inr ⟨.publish, by simp, by simp only [step, hm]; rfl⟩)
    | closing => exact .inr (.inr ⟨.close, by simp, by simp [step, hm]⟩)
    | closed =>
      cases hcaller : w.caller with
      | waiting => exact .inr (.inr ⟨.done, by simp, by simp [step, hm, hcaller]⟩)
      | looking => exact .inr (.inr ⟨.look, by simp, by simp [step, hcaller]⟩)
      | returned output => exact .inr (.inl ⟨rfl, output, rfl⟩)
      | cancelled => rw [hcaller] at hr; exact hr.elim

/-- The bound elapses right before the exit. -/
theorem command_end_reported_late :
    let actions := [.elapse false, .look, .exit none false, .observeFinished true, .publish, .close]
    (exec step {} actions).any (fun w => w.monitor = .closed ∧ w.published = 1) ∧
    Always step (fun w => w.published ≤ 1) {} actions :=
  ⟨by decide, (command_end_reported _ (by simp [Along, Settled, step])).mono fun _ h => h.1⟩

end Peen.Tools.JobEnd
