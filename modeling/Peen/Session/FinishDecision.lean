import Peen.Session.ExecutionRows

/-!
# The decision of a final activity

A final activity ends its execution, or continues it because a message came in.
-/

namespace Peen.Executions

open Store

section
variable (input : CompleteActivityInput) (finish : FinishExecutionInput)

def Refused {α : Type} (r : Except Err α) : Prop := ∃ text, r = .error ⟨.conflict, text⟩

/-- What a request decides: output, context, and the pending output, state, failure detail and working
directory of a final result. -/
def CompleteActivityInput.outcome :
    String × String × Option (String × ExecutionState × String × String) :=
  (input.output, input.context, input.finish.map fun finish =>
    (finish.pendingOutput, finish.state, finish.failureDetail, finish.workingDirectory))

def FinishExecutionInput.recorded : Bool :=
  finish.pendingOutput != "" || finish.turn || finish.child

def FinishExecutionInput.directory (e : Execution) : String :=
  if finish.workingDirectory ≠ "" then finish.workingDirectory else e.workingDirectory

/-- The changes of a repeated request that are found: every one if a hash was saved, otherwise those of
the output, the context, the state, the failure detail, and of the directory if it is named. -/
def Noticed (directory : String) (second : CompleteActivityInput) (finish' : FinishExecutionInput) :
    Prop :=
  finish.recorded = true ∨ second.compaction ≠ none ∨ second.output ≠ input.output ∨
    second.context ≠ input.context ∨ finish'.state ≠ finish.state ∨
    finish'.failureDetail ≠ finish.failureDetail ∨
    (finish'.workingDirectory ≠ "" ∧ finish'.workingDirectory ≠ directory)

end

/-- The activity ends its execution. -/
structure IsFinal (a : ExecutionActivity) : Prop where
  name : a.name = executionFinishActivityName
  step : validExecutionFinishStepID a.stepID = true
  kind : a.kind = .preparation

/-- What the completion of a final activity leaves in its row and in that of its execution. -/
inductive Decision (cfg : Config) (input : CompleteActivityInput) (finish : FinishExecutionInput)
    (directory : String) (a : ExecutionActivity) (e : Execution) : Prop
  /-- A message was pending: the execution goes on. -/
  | continued (pending : finish.pendingOutput ≠ "")
      (output : a.outputJSON = some finish.pendingOutput)
      (saved : a.resolutionJSON = .finishDecision (cfg.finishDecisionHash input) true)
  /-- The execution ended. -/
  | ended (output : a.outputJSON = some input.output)
      (saved : a.resolutionJSON = if finish.recorded then
        .finishDecision (cfg.finishDecisionHash input) false else .empty)
      (result : e.result = (finish.state, finish.failureDetail, input.context, directory))

section Decisions
variable {cfg : Config} {input second : CompleteActivityInput}
  {finish finish' : FinishExecutionInput} {a : ExecutionActivity} {e e' : Execution}

theorem Decision.of_result (h : Decision cfg input finish directory a e)
    (hres : isExecutionTerminal e.state = true → e'.result = e.result)
    (hst : isExecutionTerminal finish.state = true) : Decision cfg input finish directory a e' := by
  cases h with
  | continued pending output saved => exact .continued pending output saved
  | ended output saved result =>
    have hend : e.state = finish.state := congrArg Prod.fst result
    exact .ended output saved ((hres (hend ▸ hst)).trans result)

/-! ## Repeats -/

theorem validateFinishIdentity_final (ha : IsFinal a) (hfin : input.finish = some finish) :
    validateFinishIdentity a input = .ok () := by
  unfold validateFinishIdentity
  rw [hfin]
  exact if_neg fun hoth => by
    rcases hoth with h | h | h
    · exact h ha.name
    · rw [ha.step] at h
      cases h
    · exact h ha.kind

theorem IsFinal.of_identity (h : validateFinishIdentity a input = .ok ())
    (hfin : input.finish = some finish) : IsFinal a := by
  unfold validateFinishIdentity at h
  rw [hfin] at h
  obtain ⟨hoth, h⟩ := of_check h
  rw [not_or, not_or, not_not, not_not] at hoth
  exact ⟨hoth.1, eq_true_of_ne_false hoth.2.1, hoth.2.2⟩

/-- The request of a repeat: a final result, and no projection. -/
structure FinalRequest (second : CompleteActivityInput) (finish' : FinishExecutionInput) : Prop where
  finish : second.finish = some finish'
  root : second.rootProjection = none
  child : second.childProjection = none

theorem completedExecutionActivity_final (ha : IsFinal a) (hsnd : FinalRequest second finish')
    (hproj : a.resolutionJSON.projectionHash = "")
    (hcomp : a.resolutionJSON.compactionHash = "") (hnone : second.compaction = none) :
    completedExecutionActivity cfg a e second = (do
      let matched ← matchedFinishDecision cfg a second
      if matched then .ok a
      else if sameActivityResult a second = false then
        .error ⟨.conflict, "completed activity result differs"⟩
      else do
        let _ ← validateFinishedRepeat e second
        .ok a) := by
  have h1 : validateProjectionRepeat cfg a second = .ok () := by
    have hinp : activityProjectionInput second = none := by
      rw [activityProjectionInput, hsnd.root, hsnd.child]
      rfl
    exact if_pos ⟨hinp, hproj⟩
  have h2 : validateCompactionRepeat cfg a second.compaction = .ok () := if_pos ⟨hnone, hcomp⟩
  have h3 := validateFinishIdentity_final ha hsnd.finish
  unfold completedExecutionActivity
  rw [h1, h2, h3]
  rfl

theorem refused_error {α : Type} (text : String) :
    Refused (.error ⟨.conflict, text⟩ : Except Err α) := ⟨text, rfl⟩

theorem Refused.bind {α β : Type} {r : Except Err α} (h : Refused r) (f : α → Except Err β) :
    Refused (r >>= f) := by
  obtain ⟨text, rfl⟩ := h
  exact ⟨text, rfl⟩

theorem not_refused_ok {α : Type} (x : α) : ¬ Refused (.ok x : Except Err α) := by
  intro h
  obtain ⟨_, h⟩ := h
  cases h

theorem matchedFinishDecision_saved {hash : String} {continued : Bool}
    (hsv : a.resolutionJSON = .finishDecision hash continued)
    (hsnd : second.finish = some finish') :
    matchedFinishDecision cfg a second = (do
      let _ ← validateFinishDecisionOutput a second continued
      if cfg.finishDecisionHash second ≠ hash then
        .error ⟨.conflict, "finish decision input changed"⟩
      else .ok continued) := by
  unfold matchedFinishDecision
  have hkept : a.resolutionJSON ≠ .empty := by
    rw [hsv]
    intro h
    cases h
  have hsome : second.finish.isSome = true := by rw [hsnd]; rfl
  rw [if_pos ⟨hkept, hsome⟩]
  unfold repeatFinishDecision
  rw [hsv]

theorem validateFinishDecisionOutput_ok (hsnd : second.finish = some finish')
    (houtput : a.outputJSON = some (if continued then finish'.pendingOutput else second.output))
    (hctx : a.contextJSON = second.context) :
    validateFinishDecisionOutput a second continued = .ok () := by
  unfold validateFinishDecisionOutput
  rw [hsnd]
  exact if_neg fun hoth => hoth.elim (absurd houtput) (absurd hctx)

theorem matchedFinishDecision_empty (hem : a.resolutionJSON = .empty) :
    matchedFinishDecision cfg a second = .ok false := by
  exact if_neg fun h => h.1 hem

theorem refused_of_saved {hash : String} {continued : Bool}
    (hsv : a.resolutionJSON = .finishDecision hash continued)
    (hsnd : second.finish = some finish') (hoth : cfg.finishDecisionHash second ≠ hash)
    (rest : Bool → Except Err ExecutionActivity) :
    Refused (matchedFinishDecision cfg a second >>= rest) := by
  rw [matchedFinishDecision_saved hsv hsnd, if_pos hoth]
  unfold validateFinishDecisionOutput
  rw [hsnd]
  dsimp only
  generalize some (if continued = true then finish'.pendingOutput else second.output) = expected
  split <;> exact refused_error _

theorem Decision.hashes (h : Decision cfg input finish directory a e) :
    a.resolutionJSON.projectionHash = "" ∧ a.resolutionJSON.compactionHash = "" := by
  cases h with
  | continued pending output saved =>
    rw [saved]
    exact ⟨rfl, rfl⟩
  | ended output saved result =>
    rw [saved]
    split <;> exact ⟨rfl, rfl⟩

/-- **A repeated request gets the saved decision.** -/
theorem Decision.repeats (h : Decision cfg input finish directory a e) (ha : IsFinal a)
    (hcontext : a.contextJSON = input.context) (hinp : FinalRequest input finish)
    (hnone : input.compaction = none)
    (hdirectory : finish.workingDirectory ≠ "" → directory = finish.workingDirectory) :
    completedExecutionActivity cfg a e input = .ok a := by
  rw [completedExecutionActivity_final ha hinp h.hashes.1 h.hashes.2 hnone]
  cases h with
  | continued pending output saved =>
    rw [matchedFinishDecision_saved saved hinp.finish,
      validateFinishDecisionOutput_ok hinp.finish output hcontext, if_neg (not_not.2 rfl)]
    rfl
  | ended output saved result =>
    have hmatched : matchedFinishDecision cfg a input = .ok false := by
      cases hrec : finish.recorded with
      | false =>
        rw [hrec] at saved
        exact matchedFinishDecision_empty saved
      | true =>
        rw [hrec] at saved
        rw [matchedFinishDecision_saved saved hinp.finish,
          validateFinishDecisionOutput_ok hinp.finish output hcontext, if_neg (not_not.2 rfl)]
        rfl
    have hsame : sameActivityResult a input = true := by
      simp [sameActivityResult, output, hcontext]
    have hrepeat : validateFinishedRepeat e input = .ok () := by
      unfold validateFinishedRepeat
      rw [hinp.finish]
      obtain ⟨hst, hdetail, hctx, hdir⟩ : e.state = finish.state ∧
          e.failureDetail = finish.failureDetail ∧ e.contextJSON = input.context ∧
          e.workingDirectory = directory := by
        simpa [Execution.result] using result
      refine if_neg fun hoth => ?_
      rcases hoth with h | h | h | ⟨hnm, h⟩
      · exact h hst
      · exact h hdetail
      · exact h hctx
      · exact h (hdir.trans (hdirectory hnm))
    rw [hmatched, hsame, hrepeat]
    rfl

theorem Decision.refuses_unrecorded_iff (hrec : finish.recorded = false)
    (output : a.outputJSON = some input.output) (hcontext : a.contextJSON = input.context)
    (result : e.result = (finish.state, finish.failureDetail, input.context, directory))
    (hsnd : FinalRequest second finish') : Refused (do
      if sameActivityResult a second = false then
        .error ⟨.conflict, "completed activity result differs"⟩
      else do
        let _ ← validateFinishedRepeat e second
        .ok a) ↔
      (finish.recorded = true ∨ second.output ≠ input.output ∨ second.context ≠ input.context ∨
        finish'.state ≠ finish.state ∨ finish'.failureDetail ≠ finish.failureDetail ∨
        (finish'.workingDirectory ≠ "" ∧ finish'.workingDirectory ≠ directory)) := by
  obtain ⟨hst, hdetail, hctx, hdir⟩ : e.state = finish.state ∧
      e.failureDetail = finish.failureDetail ∧ e.contextJSON = input.context ∧
      e.workingDirectory = directory := by
    simpa [Execution.result] using result
  have hsame : sameActivityResult a second = false ↔
      second.output ≠ input.output ∨ second.context ≠ input.context := by
    rw [sameActivityResult, output, hcontext, Bool.and_eq_false_iff, beq_eq_false_iff_ne,
      beq_eq_false_iff_ne, Ne, Option.some.injEq]
    exact or_congr ⟨Ne.symm, Ne.symm⟩ ⟨Ne.symm, Ne.symm⟩
  rw [hrec]
  split
  next hdif =>
    refine ⟨fun _ => .inr ((hsame.1 hdif).imp_right .inl), fun _ => refused_error _⟩
  next hdif =>
    rw [hsame, not_or, not_not, not_not] at hdif
    unfold validateFinishedRepeat
    rw [hsnd.finish, hst, hdetail, hctx, hdir, hdif.1, hdif.2]
    dsimp only
    split
    next hoth =>
      refine ⟨fun _ => ?_, fun _ => refused_error _⟩
      rcases hoth with h | h | h | h
      · exact .inr (.inr (.inr (.inl h.symm)))
      · exact .inr (.inr (.inr (.inr (.inl h.symm))))
      · exact absurd rfl h
      · exact .inr (.inr (.inr (.inr (.inr ⟨h.1, h.2.symm⟩))))
    next hoth =>
      refine ⟨fun h => absurd h (not_refused_ok a), fun h => absurd ?_ hoth⟩
      rcases h with h | h | h | h | h | h
      · cases h
      · exact absurd rfl h
      · exact absurd rfl h
      · exact .inl h.symm
      · exact .inr (.inl h.symm)
      · exact .inr (.inr (.inr ⟨h.1, h.2.symm⟩))

/-- **When a changed request is refused.** -/
theorem Decision.refuses_iff (h : Decision cfg input finish directory a e) (ha : IsFinal a)
    (hctx : a.contextJSON = input.context) (hsnd : FinalRequest second finish')
    (hhash : ∀ text, cfg.hash text ≠ "")
    (hdigest : cfg.finishDecisionHash second = cfg.finishDecisionHash input →
      second.outcome = input.outcome) (hchd : second.outcome ≠ input.outcome) :
    Refused (completedExecutionActivity cfg a e second) ↔
      Noticed input finish directory second finish' := by
  cases hcomp : second.compaction with
  | some compaction =>
    refine ⟨fun _ => .inr (.inl (by rw [hcomp]; exact Option.some_ne_none _)), fun _ => ?_⟩
    have hproj : validateProjectionRepeat cfg a second = .ok () := by
      have hinp : activityProjectionInput second = none := by
        rw [activityProjectionInput, hsnd.root, hsnd.child]
        rfl
      exact if_pos ⟨hinp, h.hashes.1⟩
    unfold completedExecutionActivity
    rw [hproj, hcomp]
    refine Refused.bind (r := validateCompactionRepeat cfg a (some compaction)) ?_ _
    unfold validateCompactionRepeat
    rw [h.hashes.2]
    exact ⟨_, (if_neg fun hnone => nomatch hnone.1).trans (if_pos (hhash _))⟩
  | none =>
    have hoth : cfg.finishDecisionHash second ≠ cfg.finishDecisionHash input :=
      fun heq => hchd (hdigest heq)
    rw [completedExecutionActivity_final ha hsnd h.hashes.1 h.hashes.2 hcomp]
    cases h with
    | continued pending output saved =>
      have hrec : finish.recorded = true := by
        simp [FinishExecutionInput.recorded, pending]
      exact ⟨fun _ => .inl hrec, fun _ => refused_of_saved saved hsnd.finish hoth _⟩
    | ended output saved result =>
      cases hrec : finish.recorded with
      | true =>
        rw [hrec] at saved
        exact ⟨fun _ => .inl hrec, fun _ => refused_of_saved saved hsnd.finish hoth _⟩
      | false =>
        rw [hrec] at saved
        rw [matchedFinishDecision_empty saved]
        refine (Decision.refuses_unrecorded_iff hrec output hctx result hsnd).trans ?_
        unfold Noticed
        rw [hcomp, hrec]
        refine or_congr Iff.rfl ⟨.inr, fun h => h.resolve_left fun hne => hne rfl⟩

end Decisions

/-! ## The first completion -/

section First
variable {s : Store} {finish : FinishExecutionInput}

theorem FinishExecutionInput.recorded_iff (finish : FinishExecutionInput) :
    finish.recorded = true ↔ (finish.pendingOutput ≠ "" ∨ finish.turn ∨ finish.child) := by
  rw [FinishExecutionInput.recorded, Bool.or_eq_true, Bool.or_eq_true, bne_iff_ne, or_assoc]

theorem FinishExecutionInput.directory_of_named (h : finish.workingDirectory ≠ "") :
    finish.directory e = finish.workingDirectory := if_pos h

theorem validateChildProjection_ok (h : validateActivityResult cfg answers input = .ok ())
    (hproj : input.childProjection = some projection) : input.finish = none := by
  obtain ⟨_, _, h⟩ := of_bind h
  obtain ⟨_, _, h⟩ := of_bind h
  obtain ⟨_, h, _⟩ := of_bind h
  unfold validateChildProjection at h
  rw [hproj] at h
  obtain ⟨hmixed, h⟩ := of_check h
  rw [Bool.or_eq_true, Bool.or_eq_true, not_or, not_or] at hmixed
  exact Option.not_isSome_iff_eq_none.1 hmixed.1.2

theorem FinalRequest.of_valid (h : validateActivityResult cfg answers input = .ok ())
    (hfin : input.finish = some finish) : FinalRequest input finish := by
  refine ⟨hfin, ?_, ?_⟩
  · cases hroot : input.rootProjection with
    | none => rfl
    | some =>
      rw [(validateRootProjection_ok h hroot).1] at hfin
      cases hfin
  · cases hchild : input.childProjection with
    | none => rfl
    | some =>
      rw [validateChildProjection_ok h hchild] at hfin
      cases hfin

theorem Store.result_finishExecution (h : s.finishExecution answers e input = .ok s')
    (hfin : input.finish = some finish) (hrow : row ∈ s.executions) (hid : row.id = e.id)
    (hse : row.sessionID = e.sessionID) :
    ∃ e' ∈ s'.executions, e'.identity = row.identity ∧
      e'.result = (finish.state, finish.failureDetail, input.context, finish.directory e) := by
  unfold finishExecution at h
  rw [hfin] at h
  obtain ⟨_, _, h⟩ := of_bind h
  obtain ⟨_, _, h⟩ := of_bind h
  obtain ⟨_, _, h⟩ := of_bind h
  obtain ⟨_, _, h⟩ := of_bind h
  obtain ⟨⟨e1, s1⟩, h1, h⟩ := of_bind h
  cases h
  have hmat : (row.sessionID == e.sessionID && row.id == e.id) = true := by
    rw [hse, hid, beq_self_eq_true, beq_self_eq_true]
    rfl
  obtain ⟨_, h1⟩ := of_check h1
  cases h1
  refine ⟨_, List.mem_map.2 ⟨_, List.mem_map.2 ⟨row, hrow, if_pos hmat⟩, if_pos hmat⟩, rfl, rfl⟩

/-- **What the completion of a final activity leaves.** -/
theorem Completed.decision (h : Completed cfg s answers a e input r)
    (hval : validateActivityResult cfg answers input = .ok ())
    (hfin : input.finish = some finish) (hem : a.resolutionJSON = .empty) (he : e ∈ s.executions) :
    IsFinal r.1 ∧ r.1.contextJSON = input.context ∧ input.compaction = none ∧
      ∃ e' ∈ r.2.executions, e'.identity = e.identity ∧
        Decision cfg input finish (finish.directory e) r.1 e' := by
  have hreq := FinalRequest.of_valid hval hfin
  have hnone : input.compaction = none := by
    cases hcomp : input.compaction with
    | none => rfl
    | some =>
      rw [h.finish_of_compaction hcomp] at hfin
      cases hfin
  have hfnl : IsFinal a := by
    obtain ⟨_, hident, _⟩ := of_bind h.claim
    exact .of_identity hident hfin
  obtain ⟨a1, s1, a2, s2, e3, s3, h1, h2, h3, h⟩ := h.written
  unfold saveActivityCompaction at h1
  rw [hnone] at h1
  cases h1
  unfold saveActivityProjection saveRootActivityProjection saveChildActivityProjection at h2
  rw [hreq.root, hreq.child] at h2
  cases h2
  have hrow : { e with eventCount := e.eventCount + 1 } ∈ s3.executions ∧
      e3 = { e with eventCount := e.eventCount + 1 } := by
    obtain ⟨_, h3⟩ := of_check h3
    cases h3
    refine ⟨List.mem_map.2 ⟨e, he, if_pos ?_⟩, rfl⟩
    rw [beq_self_eq_true, beq_self_eq_true]
    rfl
  obtain ⟨hrow, rfl⟩ := hrow
  unfold finishActivityCompletion at h
  rw [hfin] at h
  split at h
  next s4 finish' hend heq =>
    cases heq
    obtain ⟨e', he', hident, hres⟩ :=
      result_finishExecution hend hfin hrow rfl rfl
    split at h
    next hrec =>
      cases h
      refine ⟨⟨hfnl.name, hfnl.step, hfnl.kind⟩, rfl, hnone, e', he', hident, .ended rfl ?_ hres⟩
      rw [if_pos (finish.recorded_iff.2 hrec)]
      rfl
    next hrec =>
      cases h
      refine ⟨⟨hfnl.name, hfnl.step, hfnl.kind⟩, rfl, hnone, e', he', hident, .ended rfl ?_ hres⟩
      rw [if_neg fun hr => hrec (finish.recorded_iff.1 hr)]
      exact hem
  next heq =>
    cases heq
  next err finish' hpend heq =>
    cases heq
    obtain ⟨hcontinues, h⟩ := of_require h
    cases h
    exact ⟨⟨hfnl.name, hfnl.step, hfnl.kind⟩, rfl, hnone, _, hrow, rfl,
      .continued hcontinues.2 rfl rfl⟩
  · cases h

end First

end Peen.Executions
