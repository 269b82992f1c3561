import Mathlib.Algebra.BigOperators.Group.List.Basic
import Mathlib.Algebra.Ring.Int.Defs
import Peen.Metrics.Reporter

/-!
# The jobs of a worker's metrics

`WorkerIngest.Ingest` counts each job observation of a report in `activeJobs` and then records it,
which moves the gauge; `Close` takes what is counted off the gauge.
-/

namespace Peen.Metrics.Ingest

open List Lts Tasks

/-- `ObservationKind`; `other` is one that a worker may not report. -/
inductive ObservationKind
  | model | tool | hook | jobStarted | job | jobOutputDropped | eventDropped | workerSample
  | other (kind : String)
  deriving DecidableEq

def workerReportable : ObservationKind → Bool
  | .other _ => false
  | _ => true

/-- What `trackJob` adds to the count, and `applyAgentWork` and `applyJob` to the gauge. -/
def change : ObservationKind → Int
  | .jobStarted => 1
  | .job => -1
  | _ => 0

/-- A call of `Ingest`: the observation it tracked and still has to record, and those to come. -/
structure Call where
  tracked : Option ObservationKind
  rest : List ObservationKind
  deriving DecidableEq

/-- The counter, the gauge as this connection changed it, and the calls under way. -/
structure World where
  activeJobs : Int := 0
  closed : Bool := false
  gauge : Int := 0
  calls : List Call := []

/-- Tracking and recording an observation are two steps, since calls run beside each other. -/
inductive Action
  | ingest (observations : List ObservationKind)
  | advance (i : Nat)
  | close

def step (w : World) : Action → Option World
  | .ingest observations =>
    if observations.length > maxReportObservations then some w
    else some { w with calls := ⟨none, observations⟩ :: w.calls }
  | .advance i => w.calls[i]?.map fun
    | ⟨some kind, rest⟩ =>
      { w with gauge := w.gauge + change kind, calls := replace w.calls i [⟨none, rest⟩] }
    | ⟨none, kind :: rest⟩ =>
      if workerReportable kind then
        { w with
          activeJobs := w.activeJobs + change kind, calls := replace w.calls i [⟨some kind, rest⟩] }
      else { w with calls := replace w.calls i [⟨none, rest⟩] }
    | ⟨none, []⟩ => { w with calls := replace w.calls i [] }
  | .close =>
    if w.closed then some w
    else some { w with closed := true, gauge := w.gauge - w.activeJobs, activeJobs := 0 }

/-- Once `Close` has returned and no call runs, the changes sum to zero. -/
def Settled (w : World) : Prop := w.closed = true → w.calls = [] → w.gauge = 0

/-- After `Close` no job observation is tracked. -/
def Timely (w : World) : Action → Prop
  | .advance i => w.closed = true →
      (w.calls[i]?.all fun call => call.tracked.isSome || call.rest.head?.all (change · = 0)) = true
  | _ => True

/-- What a call still adds to the gauge. -/
def Call.owed (call : Call) : Int := (call.tracked.map change).getD 0

/-- What the gauge still gets from calls under way. -/
def owed (calls : List Call) : Int := (calls.map Call.owed).sum

/-- **The count is what the gauge was changed by** or is about to be. -/
structure Balanced (w : World) : Prop where
  count : w.gauge + owed w.calls = w.activeJobs
  settled : w.closed = true → w.activeJobs = 0

section
variable {w w' : World} {calls new : List Call} {call : Call}

theorem owed_replace (h : calls[i]? = some call) (new : List Call) :
    call.owed + owed (replace calls i new) = owed new + owed calls := by
  have hsum := ((perm_replace h new).map Call.owed).sum_eq
  rwa [map_cons, map_append, sum_cons, sum_append] at hsum

theorem Balanced.step (h : Balanced w) (hc : Timely w a) (hs : step w a = some w') :
    Balanced w' := by
  obtain ⟨hcount, hsettled⟩ := h
  cases a with
  | ingest observations =>
    simp only [Ingest.step] at hs
    split at hs
    · cases hs
      exact ⟨hcount, hsettled⟩
    · cases hs
      exact ⟨by simpa [owed, Call.owed] using hcount, hsettled⟩
  | advance i =>
    obtain ⟨⟨tracked, rest⟩, hcall, rfl⟩ := Option.map_eq_some_iff.1 hs
    have howed := owed_replace hcall
    cases tracked with
    | some kind =>
      refine ⟨?_, hsettled⟩
      have := howed [⟨none, rest⟩]
      simp [owed, Call.owed] at *
      omega
    | none =>
      cases rest with
      | nil =>
        refine ⟨?_, hsettled⟩
        have := howed []
        simp [owed, Call.owed] at *
        omega
      | cons kind rest =>
        dsimp only
        split
        · refine ⟨?_, fun hclosed => ?_⟩
          · have := howed [⟨some kind, rest⟩]
            simp [owed, Call.owed] at *
            omega
          · have hzero : change kind = 0 := by simpa [hcall] using hc hclosed
            exact hzero.symm ▸ (add_zero _).trans (hsettled hclosed)
        · refine ⟨?_, hsettled⟩
          have := howed [⟨none, rest⟩]
          simp [owed, Call.owed] at *
          omega
  | close =>
    simp only [Ingest.step] at hs
    split at hs
    · cases hs
      exact ⟨hcount, hsettled⟩
    · cases hs
      exact ⟨by dsimp only; omega, fun _ => rfl⟩

end

/-- **A closed connection leaves no jobs**, in every run in which no job observation is tracked after
`Close`. -/
theorem jobs_settled (actions : List Action) (h : Along step Timely {} actions) :
    Always step Settled {} actions := by
  have hnew : Balanced {} := ⟨rfl, nofun⟩
  refine (always_of_along (fun _ _ _ h hc hs => h.step hc hs) hnew h).mono fun w h => ?_
  intro hclosed hcalls
  have hcount := h.count
  rwa [hcalls, h.settled hclosed, show owed [] = 0 from rfl, add_zero] at hcount

instance (w : World) (a : Action) : Decidable (Timely w a) := by
  cases a <;> unfold Timely <;> infer_instance

instance : DecidablePred Settled := fun w => by unfold Settled; infer_instance

def crashedRun : List Action := [.ingest [.jobStarted], .advance 0, .close, .advance 0, .advance 0]

theorem jobs_settled_crashed :
    Along step Timely {} crashedRun ∧ Always step Settled {} crashedRun := by
  have h : Along step Timely {} crashedRun := by decide
  exact ⟨h, jobs_settled crashedRun h⟩

/-- **A job for ever.** A report that is still being ingested when the connection is closed starts a
job on the gauge that nothing ends. -/
theorem job_left_behind : ¬ Always step Settled {}
    [.ingest [.jobStarted], .close, .advance 0, .advance 0, .advance 0] := by
  decide

end Peen.Metrics.Ingest
