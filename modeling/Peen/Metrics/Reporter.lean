import Peen.Base
import Peen.Lib.Run
import Peen.Lib.Tasks

/-!
# The metrics a worker reports

`Reporter` buffers observations and sends them in batches. Any number of senders may be under way.
-/

namespace Peen.Metrics

open List Lts

variable {α : Type}

def maxReportObservations : Nat := 1024

def maxBufferedObservations : Nat := 4 * maxReportObservations

structure WorkerReport (α : Type) where
  observations : List α
  dropped : Nat

/-- `Reporter`; an observation is only passed on. -/
structure Reporter (α : Type) where
  pending : List α := []
  dropped : Nat := 0

namespace Reporter

/-- How many observations `Add` drops. -/
def excess (r : Reporter α) : Nat := if r.pending.length ≥ maxBufferedObservations then 1 else 0

/-- A full buffer drops its oldest observation. -/
def add (r : Reporter α) (observation : α) : Reporter α :=
  ⟨r.pending.drop r.excess ++ [observation], r.dropped + r.excess⟩

def take (r : Reporter α) : WorkerReport α × Reporter α :=
  let size := min r.pending.length maxReportObservations
  (⟨r.pending.take size, r.dropped⟩, ⟨r.pending.drop size, 0⟩)

/-- How many of the restored observations do not fit the buffer. -/
def overflow (restored : List α) : Nat := restored.length - maxBufferedObservations

/-- A failed batch goes back in front. -/
def restore (r : Reporter α) (report : WorkerReport α) : Reporter α :=
  let restored := report.observations ++ r.pending
  ⟨restored.drop (overflow restored), r.dropped + report.dropped + overflow restored⟩

end Reporter

/-- The reporter and the sends in progress. As history, what was added, the reports that were
delivered, and the observations that were lost. -/
structure World (α : Type) where
  reporter : Reporter α := {}
  sends : List (WorkerReport α) := []
  added : List α := []
  delivered : List (WorkerReport α) := []
  lost : List α := []

/-- `sendBatch` takes a report and sends it; `sent` and `failed` are the answers to a send. -/
inductive Action (α : Type)
  | add (observation : α)
  | take
  | sent (i : Nat)
  | failed (i : Nat)

def step (w : World α) : Action α → Option (World α)
  | .add observation => some { w with
      reporter := w.reporter.add observation
      added := w.added ++ [observation]
      lost := w.lost ++ w.reporter.pending.take w.reporter.excess }
  | .take =>
    let (report, reporter) := w.reporter.take
    some { w with
      reporter
      sends := if report.observations.isEmpty && report.dropped = 0 then w.sends
        else report :: w.sends }
  | .sent i => w.sends[i]?.map fun report =>
    { w with sends := Tasks.replace w.sends i [], delivered := report :: w.delivered }
  | .failed i => w.sends[i]?.map fun report =>
    let restored := report.observations ++ w.reporter.pending
    { w with
      sends := Tasks.replace w.sends i []
      reporter := w.reporter.restore report
      lost := w.lost ++ restored.take (Reporter.overflow restored) }

def observations (reports : List (WorkerReport α)) : List α := reports.flatMap (·.observations)

def droppedCount (reports : List (WorkerReport α)) : Nat := (reports.map (·.dropped)).sum

/-- What is known of the observations: where each of them is, how many were lost, and that the buffer
stays within its bound. -/
structure Conserved (w : World α) : Prop where
  kept : (w.reporter.pending ++ observations w.sends ++ observations w.delivered ++ w.lost).Perm
    w.added
  counted : w.lost.length = w.reporter.dropped + droppedCount w.sends + droppedCount w.delivered
  bounded : w.reporter.pending.length ≤ maxBufferedObservations

section
variable {w w' : World α} {report : WorkerReport α} {reports : List (WorkerReport α)}

theorem count_take_drop [BEq α] (a : α) (n : Nat) (l : List α) :
    count a (l.take n) + count a (l.drop n) = count a l := by
  rw [← count_append, take_append_drop]

/-- A report is taken out of the sends in progress. -/
theorem perm_replace_nil (h : reports[i]? = some report) :
    (observations reports).Perm
        (report.observations ++ observations (Tasks.replace reports i [])) ∧
      droppedCount reports = report.dropped + droppedCount (Tasks.replace reports i []) := by
  have hperm := (Tasks.perm_replace h []).symm
  exact ⟨hperm.flatMap_right _, (hperm.map _).sum_nat⟩

theorem Conserved.step (h : Conserved w) (hs : step w a = some w') : Conserved w' := by
  classical
  obtain ⟨hkept, hcounted, hbounded⟩ := h
  rw [perm_iff_count] at hkept
  simp only [count_append] at hkept
  cases a with
  | add o =>
    cases hs
    have hexcess : w.reporter.excess ≤ w.reporter.pending.length ∧
        w.reporter.pending.length - w.reporter.excess < maxBufferedObservations := by
      unfold Reporter.excess maxBufferedObservations maxReportObservations at *
      split <;> omega
    refine ⟨perm_iff_count.2 fun a => ?_, ?_, ?_⟩
    · have hcut := count_take_drop a w.reporter.excess w.reporter.pending
      have hk := hkept a
      simp only [Reporter.add, count_append]
      omega
    · simp only [Reporter.add, length_append, length_take]
      omega
    · simp only [Reporter.add, length_append, length_drop, length_singleton]
      omega
  | take =>
    have htaken : Conserved { w with
        reporter := w.reporter.take.2, sends := w.reporter.take.1 :: w.sends } := by
      refine ⟨perm_iff_count.2 fun a => ?_, ?_, ?_⟩
      · have hcut := count_take_drop a (min w.reporter.pending.length maxReportObservations)
          w.reporter.pending
        have hk := hkept a
        simp only [Reporter.take, observations, flatMap_cons, count_append] at *
        omega
      · simp only [Reporter.take, droppedCount, map_cons, sum_cons] at *
        omega
      · simp only [Reporter.take, length_drop]
        omega
    cases hs
    split
    next hnone =>
      obtain ⟨hobs, hdrop⟩ := Bool.and_eq_true_iff.1 hnone
      have hobs : w.reporter.take.1.observations = [] := List.isEmpty_iff.1 hobs
      have hdrop : w.reporter.take.1.dropped = 0 := of_decide_eq_true hdrop
      obtain ⟨hkept, hcounted, hbounded⟩ := htaken
      simp only [observations, droppedCount, flatMap_cons, map_cons, sum_cons, hobs, hdrop,
        nil_append, Nat.zero_add] at hkept hcounted
      exact ⟨hkept, hcounted, hbounded⟩
    next => exact htaken
  | sent i =>
    obtain ⟨report, hi, rfl⟩ := Option.map_eq_some_iff.1 hs
    obtain ⟨hperm, hdrop⟩ := perm_replace_nil hi
    refine ⟨perm_iff_count.2 fun a => ?_, ?_, hbounded⟩
    · have hin := perm_iff_count.1 hperm a
      have hk := hkept a
      simp only [observations, flatMap_cons, count_append] at *
      omega
    · simp only [droppedCount, map_cons, sum_cons] at *
      omega
  | failed i =>
    obtain ⟨report, hi, rfl⟩ := Option.map_eq_some_iff.1 hs
    obtain ⟨hperm, hdrop⟩ := perm_replace_nil hi
    refine ⟨perm_iff_count.2 fun a => ?_, ?_, ?_⟩
    · have hin := perm_iff_count.1 hperm a
      have hk := hkept a
      have hcut := count_take_drop a (Reporter.overflow (report.observations ++ w.reporter.pending))
        (report.observations ++ w.reporter.pending)
      simp only [Reporter.restore, count_append] at *
      omega
    · simp only [Reporter.restore, length_append, length_take, Reporter.overflow] at *
      omega
    · simp only [Reporter.restore, length_drop, Reporter.overflow]
      omega

end

/-- **Metrics are conserved.** Whatever is added and whichever sends fail, every observation is at
every moment in exactly one place: in the buffer, in one send in progress, in one report that was
delivered, or lost. The lost ones are those that were counted as dropped, and the buffer keeps its
bound. -/
theorem metrics_conserved (actions : List (Action α)) :
    Always step (fun w =>
      (w.reporter.pending ++ observations w.sends ++ observations w.delivered ++ w.lost).Perm
        w.added ∧
      w.lost.length = w.reporter.dropped + droppedCount w.sends + droppedCount w.delivered ∧
      w.reporter.pending.length ≤ maxBufferedObservations) ({} : World α) actions := by
  have hnew : Conserved ({} : World α) := ⟨.refl _, rfl, Nat.zero_le _⟩
  refine (Always.of_step (fun _ _ _ h hs => h.step hs) hnew).mono fun w h => ?_
  exact ⟨h.kept, h.counted, h.bounded⟩

end Peen.Metrics
