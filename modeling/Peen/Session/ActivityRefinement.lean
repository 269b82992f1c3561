import Peen.Session.ActivityLifecycle

/-!
# The transactions refine the life of an activity

Each transaction of the execution store, seen on the table of activities alone, is a sequence of
changes of a ledger: `beginExecutionActivity` may create a row and then makes at most one transition
of it, and the others make at most one.
-/

namespace Peen.Executions

open Store List
open Relation (ReflTransGen)

/-! ## Writes that leave the activities alone -/

section Frame
variable {s : Store}

variable {control : Control}

namespace Store

theorem appendExecutionEvent_ok (h : s.appendExecutionEvent e kind payload = .ok (e', s')) :
    e' = { e with eventCount := e.eventCount + 1 } ∧ s' = ({ s with
        events := s.events ++ [⟨e.sessionID, e.id, e.eventCount + 1, kind, payload⟩] } :
      Store).updateExecution e.sessionID e.id fun row =>
        { row with eventCount := e.eventCount + 1 } := by
  obtain ⟨_, h⟩ := of_check h
  cases h; exact ⟨rfl, rfl⟩

theorem activities_appendExecutionEvent (h : s.appendExecutionEvent e kind payload = .ok (e', s')) :
    s'.activities = s.activities := by
  rw [(appendExecutionEvent_ok h).2]
  rfl

theorem activities_appendActivityEvent (h : s.appendActivityEvent e a kind = .ok (e', s')) :
    s'.activities = s.activities :=
  activities_appendExecutionEvent h

theorem activities_changeExecutionState (h : s.changeExecutionState e control reason = .ok s') :
    s'.activities = s.activities := by
  obtain ⟨_, h⟩ := of_check h
  cases control <;> cases h <;> rfl

theorem activities_changeExecutions
    (h : changeExecutions control reason payload members s = .ok (changed, s')) :
    s'.activities = s.activities := by
  induction members generalizing s changed with
  | nil => cases h; rfl
  | cons e members ih =>
    unfold changeExecutions at h
    split at h
    · obtain ⟨s1, h1, h⟩ := of_bind h
      obtain ⟨⟨e2, s2⟩, h2, h⟩ := of_bind h
      obtain ⟨⟨ids, s3⟩, h3, h⟩ := of_bind h
      cases h
      rw [ih h3, activities_appendExecutionEvent h2, activities_changeExecutionState h1]
    · exact ih h

theorem activities_changeExecutionTree
    (h : s.changeExecutionTree sid eid control reason payload = .ok (changed, s')) :
    s'.activities = s.activities := by
  obtain ⟨_, _, h⟩ := of_bind h
  exact activities_changeExecutions h

theorem activities_pauseExecution (h : s.pauseExecution cfg sid eid reason = .ok (changed, s')) :
    s'.activities = s.activities := by
  obtain ⟨_, h⟩ := of_check h
  exact activities_changeExecutionTree h

theorem activities_resumeExecution (h : s.resumeExecution sid eid = .ok (changed, s')) :
    s'.activities = s.activities :=
  activities_changeExecutionTree h

theorem activities_pauseEach {n : Nat} (h : pauseEach es s = .ok (n, s')) :
    s'.activities = s.activities := by
  induction es generalizing s n with
  | nil => cases h; rfl
  | cons e es ih =>
    obtain ⟨⟨ids, s1⟩, h1, h⟩ := of_bind h
    obtain ⟨⟨m, s2⟩, h2, h⟩ := of_bind h
    cases h
    rw [ih h2, activities_changeExecutions h1]

theorem activities_pauseUnfinishedExecutions {n : Nat}
    (h : s.pauseUnfinishedExecutions sid = .ok (n, s')) : s'.activities = s.activities :=
  activities_pauseEach h

theorem activities_finishExecution (h : s.finishExecution answers e input = .ok s') :
    s'.activities = s.activities := by
  unfold finishExecution at h
  split at h
  · cases h; rfl
  · obtain ⟨_, _, h⟩ := of_bind h
    obtain ⟨_, _, h⟩ := of_bind h
    obtain ⟨_, _, h⟩ := of_bind h
    obtain ⟨_, _, h⟩ := of_bind h
    obtain ⟨⟨e1, s1⟩, h1, h⟩ := of_bind h
    cases h
    exact (activities_appendExecutionEvent h1).trans rfl

theorem activities_markExecutionRunning (s : Store) (e : Execution) :
    (s.markExecutionRunning e).2.activities = s.activities := by
  unfold markExecutionRunning
  split <;> rfl

theorem activities_restoreReconciledExecution (s : Store) (e : Execution) :
    (s.restoreReconciledExecution e).activities = s.activities := by
  unfold restoreReconciledExecution
  split
  · rfl
  · split <;> rfl

end Store

end Frame

/-! ## Reads -/

theorem Store.mem_of_findExecutionActivity {s : Store} {id : UUID}
    (h : s.findExecutionActivity sid id = .ok a) :
    a ∈ s.activities ∧ a.sessionID = sid ∧ a.id = id := by
  unfold findExecutionActivity at h
  split at h
  · cases h
  next a' hf =>
    cases h
    have hp := find?_some hf
    simp only [Bool.and_eq_true, beq_iff_eq] at hp
    exact ⟨mem_of_find?_eq_some hf, hp.1, hp.2⟩

theorem Store.of_activityForLease {s : Store} (h : s.activityForLease sid lease = .ok (a, e)) :
    a ∈ s.activities ∧ a.sessionID = sid ∧ a.id = lease.id ∧
      a.ownerGenerationID = some lease.generationID ∧ a.attempt = lease.attempt := by
  obtain ⟨_, h⟩ := of_check h
  obtain ⟨a', ha, h⟩ := of_bind h
  obtain ⟨how, h⟩ := of_check h
  obtain ⟨hatt, h⟩ := of_check h
  obtain ⟨e', _, h⟩ := of_bind h
  cases h
  obtain ⟨hmem, hsid, hid⟩ := mem_of_findExecutionActivity ha
  exact ⟨hmem, hsid, hid, not_not.1 how, not_not.1 hatt⟩

/-! ## Writing a row back -/

/-- The table is `rows` with this copy of a row written back. -/
def Saved (rows : List ExecutionActivity) (s : Store) (a : ExecutionActivity) : Prop :=
  s.activities = putRow rows a

theorem putRow_self {rows : List ExecutionActivity} (hids : (rows.map (·.id)).Nodup)
    (ha : a ∈ rows) : putRow rows a = rows := by
  refine (map_congr_left fun b hb => ?_).trans (map_id rows)
  split
  next h => exact inj_on_of_nodup_map hids ha hb h.symm
  next => rfl

theorem Saved.of_mem {s : Store} (hids : (s.activities.map (·.id)).Nodup) (ha : a ∈ s.activities) :
    Saved s.activities s a :=
  (putRow_self hids ha).symm

section Writes
variable {s' : Store}

section
variable (hs : Saved rows s a)
include hs

theorem Saved.frame (h : s'.activities = s.activities) : Saved rows s' a :=
  h.trans hs

theorem Saved.updateActivity (hid : (f a).id = a.id) :
    Saved rows (s.updateActivity a.sessionID a.id f) (f a) := by
  show s.activities.map _ = putRow rows (f a)
  rw [hs, putRow, putRow, map_map, hid]
  refine map_congr_left fun b _ => ?_
  show (if (if b.id = a.id then a else b).sessionID == a.sessionID &&
    (if b.id = a.id then a else b).id == a.id then f (if b.id = a.id then a else b)
    else if b.id = a.id then a else b) = if b.id = a.id then f a else b
  split
  next h => simp
  next h => simp [h]

theorem Saved.saveActivityResult (output context : String) :
    Saved rows (s.saveActivityResult a output context).2 (a.withResult output context) := by
  have := hs.updateActivity (f := fun b =>
    if b.attempt = a.attempt ∧ b.ownerGenerationID = a.ownerGenerationID then
      b.withResult output context else b) (by rw [if_pos ⟨rfl, rfl⟩]; rfl)
  rwa [if_pos ⟨rfl, rfl⟩] at this

theorem Saved.saveResolution (resolution : ResolutionJSON) :
    Saved rows (s.saveResolution a resolution).2 { a with resolutionJSON := resolution } :=
  hs.updateActivity rfl

theorem Saved.markActivityUncertain (h : s.markActivityUncertain e a = .ok (a', s')) :
    a' = a.uncertain ∧ Saved rows s' a' := by
  obtain ⟨⟨e1, s1⟩, h1, h⟩ := of_bind h
  cases h
  refine ⟨rfl, Saved.frame ?_ (activities_appendActivityEvent h1)⟩
  have hu : Saved rows (s.updateActivity a.sessionID a.id ExecutionActivity.uncertain) a.uncertain :=
    hs.updateActivity rfl
  split
  · exact hu.frame rfl
  · exact hu

theorem Saved.startActivityAttempt (h : s.startActivityAttempt child e a g = .ok (a', s')) :
    a' = a.started g ∧ Saved rows s' a' := by
  obtain ⟨_, _, h⟩ := of_bind h
  obtain ⟨_, _, h⟩ := of_bind h
  obtain ⟨⟨e1, s1⟩, h1, h⟩ := of_bind h
  cases h
  have hu : Saved rows (s.updateActivity a.sessionID a.id (·.started g)) (a.started g) :=
    hs.updateActivity rfl
  refine ⟨rfl, Saved.frame ?_ (activities_appendActivityEvent h1)⟩
  exact hu.frame (activities_markExecutionRunning _ e)

end

end Writes

/-! ## Saving a result -/

/-- The copy is the row `a` with a result, and is written back. -/
def Settling (rows : List ExecutionActivity) (a : ExecutionActivity)
    (r : ExecutionActivity × Store) : Prop :=
  (∃ output context resolution, r.1 = a.settled output context resolution) ∧ Saved rows r.2 r.1

section Settling
variable {s' : Store}

theorem Saved.settling (hs : Saved rows s a) (output context : String) :
    Settling rows a (s.saveActivityResult a output context) :=
  ⟨⟨output, context, a.resolutionJSON, rfl⟩, hs.saveActivityResult output context⟩

theorem Settling.saveResolution (h : Settling rows a (b, s)) (resolution : ResolutionJSON) :
    Settling rows a (s.saveResolution b resolution) := by
  obtain ⟨⟨output, context, r, hb⟩, hs⟩ := h
  exact ⟨⟨output, context, resolution, by rw [show b = _ from hb]; rfl⟩, hs.saveResolution resolution⟩

theorem Settling.saveActivityResult (h : Settling rows a (b, s)) (output context : String) :
    Settling rows a (s.saveActivityResult b output context) := by
  obtain ⟨⟨o, c, r, hb⟩, hs⟩ := h
  exact ⟨⟨output, context, r, by rw [show b = _ from hb]; rfl⟩, hs.saveActivityResult output context⟩

theorem Settling.frame (h : Settling rows a (b, s)) (hs : s'.activities = s.activities) :
    Settling rows a (b, s') :=
  ⟨h.1, h.2.frame hs⟩

theorem Settling.saveActivityCompaction (h : Settling rows a (b, s))
    (hr : s.saveActivityCompaction cfg answers b e input = .ok r) : Settling rows a r := by
  unfold Store.saveActivityCompaction at hr
  split at hr
  · cases hr; exact h
  · obtain ⟨_, _, hr⟩ := of_bind hr
    obtain ⟨_, _, hr⟩ := of_bind hr
    cases hr
    exact h.saveResolution _

theorem Settling.saveActivityProjection (h : Settling rows a (b, s))
    (hr : s.saveActivityProjection cfg answers b e input = .ok r) : Settling rows a r := by
  obtain ⟨⟨b1, s1⟩, h1, hr⟩ := of_bind hr
  have hroot : Settling rows a (b1, s1) := by
    unfold saveRootActivityProjection at h1
    split at h1
    · cases h1; exact h
    · obtain ⟨_, h1⟩ := of_check h1
      obtain ⟨_, _, h1⟩ := of_bind h1
      obtain ⟨_, _, h1⟩ := of_bind h1
      cases h1
      exact h.saveResolution _
  replace hr : s1.saveChildActivityProjection cfg answers b1 e input = .ok r := hr
  unfold saveChildActivityProjection at hr
  split at hr
  · cases hr; exact hroot
  · obtain ⟨_, hr⟩ := of_check hr
    obtain ⟨_, _, hr⟩ := of_bind hr
    cases hr
    exact hroot.saveResolution _

theorem Settling.finishActivityCompletion (h : Settling rows a (b, s))
    (hr : s.finishActivityCompletion cfg answers b e input = .ok r) : Settling rows a r := by
  unfold Store.finishActivityCompletion at hr
  split at hr
  next s1 finish hs _ =>
    have h1 := h.frame (activities_finishExecution hs)
    split at hr
    · cases hr; exact h1.saveResolution _
    · cases hr; exact h1
  next s1 hs _ =>
    cases hr
    exact h.frame (activities_finishExecution hs)
  next =>
    split at hr
    · cases hr
      exact (h.saveActivityResult _ _).saveResolution _
    · cases hr
  next => cases hr

/-- **A completion of a running row** leaves it with a result, and no other row changed. -/
theorem Saved.saveCompletion (hs : Saved rows s a)
    (hr : s.saveCompletion cfg answers a e input = .ok r) : Settling rows a r := by
  obtain ⟨⟨b1, s1⟩, h1, hr⟩ := of_bind hr
  obtain ⟨⟨b2, s2⟩, h2, hr⟩ := of_bind hr
  obtain ⟨⟨e3, s3⟩, h3, hr⟩ := of_bind hr
  have hset := hs.settling input.output input.context
  have hdone := (hset.saveActivityCompaction h1).saveActivityProjection h2
  exact (hdone.frame (activities_appendActivityEvent h3)).finishActivityCompletion hr

end Settling

/-! ## The transactions -/

section Transactions
variable {s : Store} {cfg : Config}

theorem Saved.changes (ha : a ∈ s.activities) (hs : Saved s.activities s' a')
    (t : Transition a a' es) : ReflTransGen Change ⟨s.activities, history⟩
      ⟨s'.activities, entriesFor a.id es ++ history⟩ := by
  rw [show s'.activities = _ from hs]
  exact .single (Change.row (l := ⟨s.activities, history⟩) ha t)

/-- What a claim adds to the history of its activity: a lease it hands out, after the interruption
of another generation's attempt when it takes one over. -/
def claimEntries (s : Store) (generationID : UUID) (claim : ActivityClaim) : List Entry :=
  claim.lease.toList.map .executed ++
    if claim.decision ≠ .paused ∧ s.activities.any fun a => a.id == claim.activity.id &&
        a.state == .running && a.ownerGenerationID != some generationID then [.interrupted] else []

theorem any_running_iff (hids : (s.activities.map (·.id)).Nodup) (ha : a ∈ s.activities)
    (g : UUID) : (s.activities.any fun b => b.id == a.id && b.state == .running &&
      b.ownerGenerationID != some g) = true ↔
      a.state = .running ∧ a.ownerGenerationID ≠ some g := by
  rw [any_eq_true]
  refine ⟨?_, ?_⟩
  · intro h
    obtain ⟨b, hb, h⟩ := h
    simp only [Bool.and_eq_true, beq_iff_eq, bne_iff_ne] at h
    have := inj_on_of_nodup_map hids hb ha h.1.1
    subst this
    exact ⟨h.1.2, h.2⟩
  · intro h
    exact ⟨a, ha, by simpa using h⟩

theorem Store.changes_claimExecutionActivity (hids : (s.activities.map (·.id)).Nodup)
    (ha : a ∈ s.activities) (h : s.claimExecutionActivity child e a g = .ok (claim, s')) :
    claim.activity.id = a.id ∧
    ReflTransGen Change ⟨s.activities, history⟩
      ⟨s'.activities, entriesFor a.id (claimEntries s g claim) ++ history⟩ := by
  have hs := Saved.of_mem hids ha
  have hrun := any_running_iff hids ha g
  have hexec (hx : s.executeActivity child e a g = .ok (claim, s')) :
      Saved s.activities s' (a.started g) ∧ claim =
        ⟨a.started g, some ⟨a.id, g, a.attempt + 1⟩, .execute⟩ := by
    obtain ⟨⟨a1, s1⟩, h1, hx⟩ := of_bind hx
    obtain ⟨ha1, hs1⟩ := hs.startActivityAttempt h1
    subst ha1
    cases hx
    exact ⟨hs1, rfl⟩
  unfold claimExecutionActivity at h
  split at h
  · cases h
    exact ⟨rfl, .refl⟩
  split at h
  next hc =>
    cases h
    refine ⟨rfl, ?_⟩
    rw [claimEntries, if_neg (fun hx => by rw [hrun, hc] at hx; exact nomatch hx.2.1)]
    exact .refl
  next hc =>
  split at h
  · cases h
  split at h
  next hu =>
    cases h
    refine ⟨rfl, ?_⟩
    rw [claimEntries, if_neg (fun hx => by rw [hrun, hu] at hx; exact nomatch hx.2.1)]
    exact .refl
  next hu =>
  split at h
  next hr =>
    split at h
    · cases h
    next how =>
    split at h
    · obtain ⟨⟨a1, s1⟩, h1, h⟩ := of_bind h
      obtain ⟨ha1, hs1⟩ := hs.markActivityUncertain h1
      subst ha1
      cases h
      refine ⟨rfl, ?_⟩
      rw [claimEntries, if_pos ⟨nofun, hrun.2 ⟨hr, how⟩⟩]
      exact hs1.changes ha (.lose hr)
    next hp =>
      obtain ⟨hs1, hclm⟩ := hexec h
      subst hclm
      refine ⟨rfl, ?_⟩
      rw [claimEntries, if_pos ⟨nofun, hrun.2 ⟨hr, how⟩⟩]
      exact hs1.changes ha (.takeOver g hr hp)
  next hr =>
    obtain ⟨hs1, hclm⟩ := hexec h
    subst hclm
    refine ⟨rfl, ?_⟩
    rw [claimEntries, if_neg (fun hx => hr (hrun.1 hx.2).1)]
    exact hs1.changes ha (.start g hr hc hu)

theorem Store.of_ensureExecutionActivity
    (h : s.ensureExecutionActivity newID e input = .ok (a, e', s')) :
    (a ∈ s.activities ∧ s' = s) ∨
    (s'.activities = s.activities ++ [a] ∧ a.state = .scheduled ∧ a.ownerGenerationID = none ∧
      (∀ b ∈ s.activities, b.id ≠ a.id) ∧
      ∀ b ∈ s.activities, (b.executionID, b.stepID) ≠ (a.executionID, a.stepID)) := by
  unfold ensureExecutionActivity at h
  split at h
  next a' hf =>
    split at h
    · cases h; exact .inl ⟨mem_of_find?_eq_some hf, rfl⟩
    · cases h
  next hf =>
    obtain ⟨s1, h1, h⟩ := of_bind h
    obtain ⟨⟨e2, s2⟩, h2, h⟩ := of_bind h
    cases h
    obtain ⟨hfr, h1⟩ := of_check h1
    cases h1
    rw [Bool.not_eq_true, any_eq_false] at hfr
    refine .inr ⟨activities_appendActivityEvent h2, rfl, rfl, ?_, ?_⟩
    · intro b hb hid
      exact hfr b hb (by simp [hid])
    · intro b hb hstep
      obtain ⟨hexec, hstep⟩ := Prod.mk.inj hstep
      exact hfr b hb (by simp [hexec, hstep])

section
variable (hids : (s.activities.map (·.id)).Nodup)
include hids

/-- **A claim refines.** It creates its activity if there is none, and makes at most one transition
of it. -/
theorem Store.changes_beginExecutionActivity
    (h : s.beginExecutionActivity cfg answers sid eid g input = .ok (claim, s')) :
    ReflTransGen Change ⟨s.activities, history⟩
    ⟨s'.activities, entriesFor claim.activity.id (claimEntries s g claim) ++ history⟩ := by
  obtain ⟨_, h⟩ := of_check h
  obtain ⟨_, _, h⟩ := of_bind h
  obtain ⟨e, _, h⟩ := of_bind h
  obtain ⟨⟨a, e1, s1⟩, h1, h⟩ := of_bind h
  rcases of_ensureExecutionActivity h1 with ⟨ha, hs⟩ | ⟨hs, hsch, how, hid, hstep⟩
  · cases hs
    obtain ⟨hclm, hc⟩ := changes_claimExecutionActivity hids ha h
    rw [hclm]
    exact hc
  · have hcreate : Change ⟨s.activities, history⟩ ⟨s1.activities, history⟩ := by
      rw [hs]
      exact Change.create (l := ⟨s.activities, history⟩) hid hstep hsch how
    have ha : a ∈ s1.activities := by simp [hs]
    obtain ⟨hclm, hc⟩ := changes_claimExecutionActivity (hcreate.ids hids) ha h
    -- the new row is not running, so the claim interrupts what it would have before
    have hentries : claimEntries s1 g claim = claimEntries s g claim := by
      simp [claimEntries, hs, hsch]
    rw [hclm, ← hentries]
    exact .head hcreate hc

/-- **A completion refines.** It takes effect under a lease its row's owner holds while the row is
running, which then has a result; otherwise it returns a completed row and changes nothing. -/
theorem Store.of_completeExecutionActivity
    (h : s.completeExecutionActivity cfg answers sid lease input = .ok (a', s')) :
    ∃ a ∈ s.activities, a.sessionID = sid ∧ a.id = lease.id ∧
      a.ownerGenerationID = some lease.generationID ∧ a.attempt = lease.attempt ∧
      ((a.state = .completed ∧ a' = a ∧ s' = s) ∨
        (a.state = .running ∧ Transition a a' [] ∧ Saved s.activities s' a')) := by
  obtain ⟨_, _, h⟩ := of_bind h
  obtain ⟨⟨a, e⟩, hls, h⟩ := of_bind h
  obtain ⟨ha, hsid, hid, how, hatt⟩ := of_activityForLease hls
  refine ⟨a, ha, hsid, hid, how, hatt, ?_⟩
  dsimp only at h
  split at h
  next hc =>
    obtain ⟨a1, h1, h⟩ := of_bind h
    cases h
    refine .inl ⟨hc, ?_, rfl⟩
    obtain ⟨_, _, h1⟩ := of_bind h1
    obtain ⟨_, _, h1⟩ := of_bind h1
    obtain ⟨_, _, h1⟩ := of_bind h1
    obtain ⟨_, _, h1⟩ := of_bind h1
    split at h1
    · cases h1; rfl
    split at h1
    · cases h1
    · obtain ⟨_, _, h1⟩ := of_bind h1
      cases h1; rfl
  next hc =>
    obtain ⟨hr, h⟩ := of_check h
    obtain ⟨_, _, h⟩ := of_bind h
    obtain ⟨_, _, h⟩ := of_bind h
    obtain ⟨⟨output, context, resolution, hset⟩, hsv⟩ :=
      (Saved.of_mem hids ha).saveCompletion h
    have hr : a.state = .running := not_not.1 hr
    refine .inr ⟨hr, ?_, hsv⟩
    rw [show a' = _ from hset]
    exact .settle (.inl hr) output context resolution

/-- **An interruption refines.** The row's attempt is lost, given up, or had ended. -/
theorem Store.changes_interruptExecutionActivity
    (h : s.interruptExecutionActivity sid lease = .ok s') :
    ReflTransGen Change ⟨s.activities, history⟩
    ⟨s'.activities, entriesFor lease.id [.interrupted] ++ history⟩ := by
  obtain ⟨⟨a, e⟩, hls, h⟩ := of_bind h
  obtain ⟨ha, hsid, hid, how, _⟩ := of_activityForLease hls
  have hs := Saved.of_mem hids ha
  rw [← hid]
  dsimp only at h
  split at h
  next hr =>
    cases h
    exact hs.changes ha (.note hr how)
  next hr =>
    have hr : a.state = .running := not_not.1 hr
    split at h
    next hp =>
      obtain ⟨⟨a1, s1⟩, h1, h⟩ := of_bind h
      cases h
      obtain ⟨ha1, hs1⟩ := hs.markActivityUncertain h1
      subst ha1
      exact hs1.changes ha (.lose hr)
    next hp =>
      obtain ⟨⟨e1, s1⟩, h1, h⟩ := of_bind h
      cases h
      have hdrop : Saved s.activities (s.updateActivity sid a.id
          (·.dropped (interruptedState e).1)) (a.dropped (interruptedState e).1) := by
        rw [← hsid]
        exact hs.updateActivity rfl
      have hst : (interruptedState e).1 = .failed ∨
          (interruptedState e).1 = .paused := by
        unfold interruptedState
        split
        · exact .inr rfl
        · exact .inl rfl
      exact (hdrop.frame (activities_appendActivityEvent h1)).changes ha (.drop hr hp hst)

end

/-- What a resolution adds to the history of its activity: a retry, when it was not recorded
before. -/
def resolutionEntries (cfg : Config) (s : Store) (activityID : UUID)
    (input : ResolveActivityInput) : List Entry :=
  if input.resolution = .retry ∧ (s.activities.any fun a => a.id == activityID &&
      a.resolutionJSON == .inspection (cfg.encode input)) = false then [.retried] else []

theorem Store.resolution_ne_unknown (h : validateActivityResolution cfg input = .ok u) :
    input.resolution ≠ .unknown := by
  intro hr
  obtain ⟨_, h⟩ := of_check h
  rw [hr] at h
  cases h

theorem Saved.applyActivityResolution (hs : Saved rows s a) (hu : a.state = .uncertain)
    (input : ResolveActivityInput) (payload : String) :
    Saved rows (s.applyActivityResolution a input payload).2
      (s.applyActivityResolution a input payload).1 ∧
    Transition a (s.applyActivityResolution a input payload).1
      (if input.resolution = .accept then [] else [.retried]) := by
  have hres := hs.saveResolution (.inspection payload)
  unfold Store.applyActivityResolution
  dsimp only
  split
  · exact ⟨hres.saveActivityResult _ _, .settle (.inr hu) _ _ (.inspection payload)⟩
  · exact ⟨hres.updateActivity rfl, .release hu payload⟩

/-- **A resolution refines.** An inspected effect is accepted as the row's result, or the row is
released for a retry; a resolution that was recorded before changes nothing. -/
theorem Store.changes_resolveExecutionActivity {id : UUID} (hids : (s.activities.map (·.id)).Nodup)
    (h : s.resolveExecutionActivity cfg sid id input = .ok (a', s')) :
    ReflTransGen Change ⟨s.activities, history⟩
      ⟨s'.activities, entriesFor id (resolutionEntries cfg s id input) ++ history⟩ := by
  obtain ⟨_, hval, h⟩ := of_bind h
  obtain ⟨a, hfind, h⟩ := of_bind h
  obtain ⟨isDuplicate, hdup, h⟩ := of_bind h
  obtain ⟨ha, _, hid⟩ := mem_of_findExecutionActivity hfind
  have hs := Saved.of_mem hids ha
  have hany : (s.activities.any fun b => b.id == id &&
      b.resolutionJSON == .inspection (cfg.encode input)) = true ↔
      a.resolutionJSON = .inspection (cfg.encode input) := by
    rw [any_eq_true]
    refine ⟨?_, ?_⟩
    · intro h
      obtain ⟨b, hb, h⟩ := h
      simp only [Bool.and_eq_true, beq_iff_eq] at h
      rw [inj_on_of_nodup_map hids ha hb (hid.trans h.1.symm)]
      exact h.2
    · intro h
      exact ⟨a, ha, by simp [hid, h]⟩
  obtain ⟨_, hdup⟩ := of_check hdup
  split at hdup
  next hrec =>
    cases hdup
    cases h
    rw [resolutionEntries, if_neg (fun hx => by rw [hany.2 hrec] at hx; exact nomatch hx.2)]
    exact .refl
  next hrec =>
    obtain ⟨hu, hdup⟩ := of_check hdup
    cases hdup
    have hu : a.state = .uncertain := not_not.1 hu
    have hnew : (s.activities.any fun b => b.id == id &&
        b.resolutionJSON == .inspection (cfg.encode input)) = false :=
      Bool.eq_false_iff.2 fun hx => hrec (hany.1 hx)
    obtain ⟨e, _, h⟩ := of_bind h
    obtain ⟨⟨e1, s1⟩, h1, h⟩ := of_bind h
    cases h
    have hframe := (activities_restoreReconciledExecution s1 e).trans
      (activities_appendExecutionEvent h1)
    obtain ⟨hsv, t⟩ := hs.applyActivityResolution hu input (cfg.encode input)
    have hentries : resolutionEntries cfg s id input =
        if input.resolution = .accept then [] else [.retried] := by
      have hknown := resolution_ne_unknown hval
      unfold resolutionEntries
      cases hr : input.resolution with
      | retry => simp [hnew]
      | accept => simp
      | unknown => exact absurd hr hknown
    rw [hentries, ← hid]
    exact (hsv.frame hframe).changes ha t

end Transactions

end Peen.Executions
