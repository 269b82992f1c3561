import Peen.Lib.Run
import Peen.Session.ActivityRefinement

/-!
# Runs of the execution store

Any number of workers, in any order, claim activities, complete them, interrupt and resolve them,
while executions are paused and resumed; other transactions change executions and events as they
like.
-/

namespace Peen.Executions

open Relation

/-- The store, and what was decided about each activity, the latest first. -/
structure World where
  store : Store
  history : List (UUID × Entry)

def World.ledger (w : World) : Ledger := ⟨w.store.activities, w.history⟩

def World.new (executions : List Execution) (events : List ExecutionEvent) : World :=
  ⟨⟨executions, [], events⟩, []⟩

/-- The calls of workers, and other changes of executions and events. -/
inductive Action where
  | claim (answers : ClaimAnswers) (sessionID executionID generationID : UUID)
      (input : ScheduleActivityInput)
  | complete (answers : CompletionAnswers) (sessionID : UUID) (lease : ActivityLease)
      (input : CompleteActivityInput)
  | interrupt (sessionID : UUID) (lease : ActivityLease)
  | resolve (sessionID activityID : UUID) (input : ResolveActivityInput)
  | pause (sessionID executionID : UUID) (reason : String)
  | resume (sessionID executionID : UUID)
  | pauseUnfinished (sessionID : UUID)
  /-- Any transaction that leaves the activities alone. -/
  | other (executions : List Execution) (events : List ExecutionEvent)

/-- The world after a transaction that does not answer about an activity. -/
def World.commit {α : Type} (w : World) : Except Err (α × Store) → World
  | .ok (_, s) => { w with store := s }
  | .error _ => w

/-- A call; one that fails leaves the world as it was. -/
def act (cfg : Config) (w : World) : Action → World
  | .claim answers sid eid g input =>
    match w.store.beginExecutionActivity cfg answers sid eid g input with
    | .ok (claim, s) =>
      ⟨s, entriesFor claim.activity.id (claimEntries w.store g claim) ++ w.history⟩
    | .error _ => w
  | .complete answers sid lease input =>
    w.commit (w.store.completeExecutionActivity cfg answers sid lease input)
  | .interrupt sid lease =>
    match w.store.interruptExecutionActivity sid lease with
    | .ok s => ⟨s, entriesFor lease.id [.interrupted] ++ w.history⟩
    | .error _ => w
  | .resolve sid id input =>
    match w.store.resolveExecutionActivity cfg sid id input with
    | .ok (_, s) => ⟨s, entriesFor id (resolutionEntries cfg w.store id input) ++ w.history⟩
    | .error _ => w
  | .pause sid eid reason => w.commit (w.store.pauseExecution cfg sid eid reason)
  | .resume sid eid => w.commit (w.store.resumeExecution sid eid)
  | .pauseUnfinished sid => w.commit (w.store.pauseUnfinishedExecutions sid)
  | .other executions events =>
    { w with store := { w.store with executions := executions, events := events } }

/-- One step of a run. Every transaction can be tried in every world. -/
def step (cfg : Config) (w : World) (a : Action) : Option World := some (act cfg w a)

/-! ## Every transaction refines -/

section Steps
variable {w : World}

theorem commit_refines {α : Type} {r : Except Err (α × Store)}
    (h : ∀ x s, r = .ok (x, s) → s.activities = w.store.activities) :
    ReflTransGen Change w.ledger (w.commit r).ledger := by
  match r with
  | .error _ => exact .refl
  | .ok (x, s) =>
    show ReflTransGen Change w.ledger ⟨s.activities, w.history⟩
    rw [h x s rfl]
    exact .refl

/-- **Every step of a run is a sequence of changes of its ledger.** -/
theorem act_refines (hk : w.ledger.Kept) (a : Action) :
    ReflTransGen Change w.ledger (act cfg w a).ledger := by
  cases a with
  | claim =>
    simp only [act]
    split
    next h => exact Store.changes_beginExecutionActivity hk.ids h
    next => exact .refl
  | complete =>
    simp only [act, World.commit]
    split
    next a' s h =>
      obtain ⟨a, ha, _, _, _, _, hc⟩ := Store.of_completeExecutionActivity hk.ids h
      rcases hc with ⟨_, _, hs⟩ | ⟨_, t, hs⟩
      · subst hs; exact .refl
      · exact hs.changes ha t
    next => exact .refl
  | interrupt =>
    simp only [act]
    split
    next h => exact Store.changes_interruptExecutionActivity hk.ids h
    next => exact .refl
  | resolve =>
    simp only [act]
    split
    next h => exact Store.changes_resolveExecutionActivity hk.ids h
    next => exact .refl
  | pause => exact commit_refines fun _ _ => Store.activities_pauseExecution
  | resume => exact commit_refines fun _ _ => Store.activities_resumeExecution
  | pauseUnfinished sid =>
    exact commit_refines fun _ _ => Store.activities_pauseUnfinishedExecutions
  | other => exact .refl

theorem kept_step (hk : w.ledger.Kept) (h : step cfg w a = some w') : w'.ledger.Kept := by
  cases h
  exact hk.changes (act_refines hk a)

theorem completed_step (hk : w.ledger.Kept) (hrow : row ∈ w.store.activities)
    (hc : row.state = .completed) (h : step cfg w a = some w') : row ∈ w'.store.activities := by
  cases h
  exact (completed_of_changes (act_refines hk a) hk.ids hrow hc).1

/-- **The invariants hold along every run.** -/
theorem kept_run (hk : w.ledger.Kept) (h : Lts.exec (step cfg) w actions = some w') : w'.ledger.Kept :=
  (Lts.Always.of_step (fun _ _ _ hk h => kept_step hk h) hk).last h

theorem kept_of_new (h : Lts.exec (step cfg) (.new executions events) actions = some w) :
    w.ledger.Kept :=
  kept_run (w := .new executions events) Ledger.Kept.empty h

theorem completed_run (hk : w.ledger.Kept) (hrow : row ∈ w.store.activities)
    (hc : row.state = .completed) (h : Lts.exec (step cfg) w actions = some w') :
    row ∈ w'.store.activities := by
  have hI : ∀ w a w', (w.ledger.Kept ∧ row ∈ w.store.activities) → step cfg w a = some w' →
      (w'.ledger.Kept ∧ row ∈ w'.store.activities) :=
    fun _ _ _ hI hs => ⟨kept_step hI.1 hs, completed_step hI.1 hI.2 hc hs⟩
  exact ((Lts.Always.of_step hI ⟨hk, hrow⟩).last h).2

end Steps

/-! ## Completed rows -/

/-- What the store answers about a row that is final: a claim of its step returns the row and hands
nothing out, and does so whenever it is made with the saved input while the execution is not paused;
a completion returns the row and changes nothing, or is refused. -/
structure Final (cfg : Config) (s : Store) (row : ExecutionActivity) : Prop where
  claimed : ∀ answers g input claim s', input.stepID = row.stepID →
    s.beginExecutionActivity cfg answers row.sessionID row.executionID g input = .ok (claim, s') →
    claim.activity = row ∧ claim.lease = none ∧ s' = s ∧
      (claim.decision = .reuse ∨ claim.decision = .paused ∧
        ∃ e, s.findExecution row.sessionID row.executionID = .ok e ∧ e.state = .paused)
  reused : ∀ answers g input e, g ≠ UUID.nil → validateActivityInput cfg input = .ok () →
    input.stepID = row.stepID → sameActivityInput row input →
    s.findExecution row.sessionID row.executionID = .ok e → e.state ≠ .paused →
    s.beginExecutionActivity cfg answers row.sessionID row.executionID g input =
      .ok (⟨row, none, .reuse⟩, s)
  repeated : ∀ answers sid lease input a s', lease.id = row.id →
    s.completeExecutionActivity cfg answers sid lease input = .ok (a, s') → a = row ∧ s' = s

section Final
variable {s : Store} {row : ExecutionActivity}

theorem Store.of_findExecution (h : s.findExecution sid eid = .ok e) :
    e.sessionID = sid ∧ e.id = eid := by
  unfold Store.findExecution at h
  split at h
  · cases h
  next e' hf =>
    cases h
    simpa using List.find?_some hf

theorem find_row (hk : Ledger.Kept ⟨s.activities, history⟩) (hrow : row ∈ s.activities)
    {e : Execution} (hsid : e.sessionID = row.sessionID) (heid : e.id = row.executionID) :
    (s.activities.find? fun a => a.sessionID == e.sessionID && a.executionID == e.id &&
      a.stepID == row.stepID) = some row := by
  cases hf : s.activities.find? fun a => a.sessionID == e.sessionID && a.executionID == e.id &&
      a.stepID == row.stepID with
  | none =>
    have := List.find?_eq_none.1 hf row hrow
    simp [hsid, heid] at this
  | some a =>
    have hp := List.find?_some hf
    simp only [Bool.and_eq_true, beq_iff_eq] at hp
    have hstep : (a.executionID, a.stepID) = (row.executionID, row.stepID) := by
      rw [hp.1.2, hp.2, heid]
    rw [hk.eq_of_step (List.mem_of_find?_eq_some hf) hrow hstep]

theorem ensure_row (hk : Ledger.Kept ⟨s.activities, history⟩) (hrow : row ∈ s.activities)
    (he : s.findExecution row.sessionID row.executionID = .ok e) {input : ScheduleActivityInput}
    (hstep : input.stepID = row.stepID) (newID : UUID) :
    s.ensureExecutionActivity newID e input =
      if sameActivityInput row input then .ok (row, e, s)
      else .error ⟨.conflict, "saved activity input differs"⟩ := by
  obtain ⟨hsid, heid⟩ := Store.of_findExecution he
  unfold Store.ensureExecutionActivity
  rw [hstep, find_row hk hrow hsid heid]

theorem claim_completed (e : Execution) (hc : row.state = .completed) (g : UUID) :
    s.claimExecutionActivity child e row g =
      .ok (⟨row, none, if e.state = .paused then .paused else .reuse⟩, s) := by
  unfold Store.claimExecutionActivity
  split <;> rfl

/-- **A completed row is final.** -/
theorem final_of_completed (hk : Ledger.Kept ⟨s.activities, history⟩) (hrow : row ∈ s.activities)
    (hc : row.state = .completed) : Final cfg s row := by
  refine ⟨?_, ?_, ?_⟩
  · intro answers g input claim s' hstep h
    obtain ⟨_, h⟩ := of_check h
    obtain ⟨_, _, h⟩ := of_bind h
    obtain ⟨e, he, h⟩ := of_bind h
    obtain ⟨⟨a, e1, s1⟩, h1, h⟩ := of_bind h
    rw [ensure_row hk hrow he hstep] at h1
    obtain ⟨_, h1⟩ := of_require h1
    cases h1
    dsimp only at h
    rw [claim_completed e hc g] at h
    cases h
    refine ⟨rfl, rfl, rfl, ?_⟩
    split
    next hp => exact .inr ⟨rfl, e, he, hp⟩
    next => exact .inl rfl
  · intro answers g input e hg hval hstep hsame he hp
    unfold Store.beginExecutionActivity
    rw [if_neg hg]
    refine bind_eq_ok.2 ⟨(), hval, bind_eq_ok.2 ⟨e, he, bind_eq_ok.2 ⟨(row, e, s), ?_, ?_⟩⟩⟩
    · rw [ensure_row hk hrow he hstep, if_pos hsame]
    · show s.claimExecutionActivity _ e row g = _
      rw [claim_completed e hc g, if_neg hp]
  · intro answers sid lease input a s' hid h
    obtain ⟨b, hb, _, hbid, _, _, hcas⟩ := Store.of_completeExecutionActivity hk.ids h
    have := hk.eq_of_id hb hrow (hbid.trans hid)
    subst this
    rcases hcas with ⟨_, ha, hs⟩ | ⟨hr, _⟩
    · exact ⟨ha, hs⟩
    · rw [hc] at hr; cases hr

end Final

/-! ## Fencing -/

section
variable (policy : ReplayPolicy) (cfg : Config) (executions : List Execution)
  (events : List ExecutionEvent) (actions : List Action) (w : World)

/-- A store that takes every object for valid JSON, and tells no two texts apart by their hashes. -/
def plainConfig : Config where
  maxExecutionStateBytes := 64
  maxStoredMessageBytes := 64
  valid := fun _ => true
  encode := fun input => input.evidence
  hash := fun _ => "digest"
  finishDecisionHash := fun _ => "digest"

def runningExecution : Execution where
  id := 2
  sessionID := 1
  kind := .root
  state := .running
  parentExecutionID := none
  agentRunID := none
  workflowExecutionID := "workflow"
  workingDirectory := "/work"
  contextJSON := emptyActivityJSON
  failureDetail := ""
  pauseReason := ""
  eventCount := 0
  controlRevision := 0

def toolCall : ScheduleActivityInput :=
  ⟨"call", .tool, policy, "write", emptyActivityJSON⟩

def claimToolCall (generation : UUID) : Action :=
  .claim ⟨3, .ok ()⟩ 1 2 generation (toolCall policy)

/-- Two generations claim a tool call that may be retried; the second one completes it. -/
def takenOver : List Action :=
  [claimToolCall .retry 10, claimToolCall .retry 11,
    .complete ⟨.ok (), .ok (), .ok (), .error ⟨.notFound, ""⟩, .ok (), .ok (), .ok (), .ok (),
      .ok (), .ok ()⟩ 1 ⟨3, 11, 2⟩ ⟨emptyActivityJSON, emptyActivityJSON, none, none, none, none⟩]

def takenOverWorld : World := takenOver.foldl (act plainConfig) (.new [runningExecution] [])

/-- **No uninspected repeat.** In every world a run reaches, an activity that must be reconciled was
handed out at most once more than a retry was recorded for it, and never between an interruption or a
takeover and a recorded retry. -/
theorem reconciled_inspected (hw : Lts.exec (step cfg) (.new executions events) actions = some w)
    (row : ExecutionActivity) (hrow : row ∈ w.store.activities)
    (hp : row.replayPolicy = .reconcile) : (leases (entriesOf row.id w.history)).length ≤
    retries (entriesOf row.id w.history) + 1 ∧ Inspected (entriesOf row.id w.history) := by
  have hg := (kept_of_new hw).guarded row hrow hp
  exact ⟨hg.count, hg.inspected⟩

end

/-- A tool call that must be reconciled is taken over, inspected, and handed out again. -/
def inspectedRetry : List Action :=
  [claimToolCall .reconcile 10, claimToolCall .reconcile 11,
    .resolve 1 3 ⟨1, .retry, "not written", "", ""⟩, claimToolCall .reconcile 11]

def inspectedRetryWorld : World :=
  inspectedRetry.foldl (act plainConfig) (.new [runningExecution] [])

/-- Two executions, and one retry between them. -/
theorem reconciled_inspected_retry :
    entriesOf 3 inspectedRetryWorld.history =
      [.executed ⟨3, 11, 2⟩, .retried, .interrupted, .executed ⟨3, 10, 1⟩] ∧
    (leases (entriesOf 3 inspectedRetryWorld.history)).length ≤
      retries (entriesOf 3 inspectedRetryWorld.history) + 1 ∧
    Inspected (entriesOf 3 inspectedRetryWorld.history) := by
  have hrow : ∃ row ∈ inspectedRetryWorld.store.activities, row.id = 3 ∧
      row.replayPolicy = .reconcile := by decide
  obtain ⟨row, hmem, hid, hp⟩ := hrow
  have h := reconciled_inspected plainConfig [runningExecution] [] inspectedRetry
    inspectedRetryWorld rfl row hmem hp
  rw [hid] at h
  exact ⟨by decide, h⟩

end Peen.Executions
