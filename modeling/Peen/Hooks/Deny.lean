import Peen.Hooks.Runner

/-!
# When a deny stops the operation

A run ends with `ErrDenied` exactly if one of the actions it reached, or the Go callback, failed with
it (`run_denied_iff`).
-/

namespace Peen.Hooks.Runner

open List

variable {σ μ : Type}

/-! ## Reached actions -/

/-- An action that a run reached and that applies, with the state in which it ran. -/
structure Reached (σ μ : Type) where
  action : HookAction μ
  state : σ

section
variable (r : Runner σ μ) (invocation : Invocation) (s : σ) (x : Reached σ μ)

/-- The actions `runHookActions` reaches. -/
def reachedActions (r : Runner σ μ) (hook : Hook μ) (invocation : Invocation) :
    List (HookAction μ) → σ → List (Reached σ μ)
  | [], _ => []
  | action :: actions, s =>
    if !r.applies action.when_ invocation then r.reachedActions hook invocation actions s
    else
      ⟨action, s⟩ ::
        match r.runAction action invocation s with
        | (.error e, s) =>
          if e.isDenied then []
          else if continuesOnFailure invocation.event action then
            r.reachedActions hook invocation actions (r.recordActionFailure hook action invocation s)
          else []
        | (.ok _, s) => r.reachedActions hook invocation actions s

/-- The actions the loop of `Run` reaches. -/
def reachedHooks (r : Runner σ μ) (invocation : Invocation) :
    List (Hook μ) → σ → List String → List (Reached σ μ)
  | [], _, _ => []
  | hook :: hooks, s, injections =>
    if hook.event ≠ invocation.event ∨ r.applies hook.match_ invocation = false then
      r.reachedHooks invocation hooks s injections
    else
      let result := r.runHookActions hook invocation hook.actions s injections
      r.reachedActions hook invocation hook.actions s ++
        match result.err with
        | some _ => []
        | none => r.reachedHooks invocation hooks result.state result.injections

/-- The actions `Run` reaches. -/
def reached : List (Reached σ μ) :=
  r.reachedHooks (r.located invocation) r.hooks s []

def IsDenied (err : Option HookError) : Prop := ∃ e, err = some e ∧ e.isDenied = true

def Denied : Prop :=
  ∃ e s, r.runAction x.action invocation x.state =
    (.error e, s) ∧ e.isDenied = true

/-- The Go callback was reached and failed with `ErrDenied`, or publishing its events did. -/
def CallbackDenied : Prop :=
  let result := r.runHooks (r.located invocation) r.hooks s []
  result.err = none ∧ IsDenied (r.runCallback (r.located invocation) result).err

/-- What an action decides is to deny: it is a deny action, or a command whose output decodes to that
decision. -/
def Denies : Prop :=
  x.action.type = .deny ∨
    (x.action.type = .command ∧ ∃ decision inv s,
      r.commandDecision x.action invocation x.state =
        (.ok (some decision, inv), s) ∧ decision.decision = "deny")

/-- The events of a command's decision can be published, or fail to be with `ErrDenied` themselves. -/
def Published : Prop :=
  x.action.type = .command → ∀ decision inv s,
    r.commandDecision x.action invocation x.state =
      (.ok (some decision, inv), s) →
    match (r.publishCommandEvents decision.events inv s).1 with
    | .ok _ => True
    | .error e => e.isDenied = true

end

/-! ## What ends a run -/

section
variable {r : Runner σ μ}

theorem not_isDenied_none : ¬ IsDenied none := by
  intro h
  obtain ⟨_, h, _⟩ := h
  cases h

theorem not_denied (hrun : r.runAction x.action invocation x.state = (.ok u, s)) :
    ¬ r.Denied invocation x := by
  intro h
  obtain ⟨e, s', h, _⟩ := h
  rw [hrun] at h
  cases h

theorem denied_iff (hrun : r.runAction x.action invocation x.state = (.error e, s)) :
    r.Denied invocation x ↔ e.isDenied = true := by
  refine ⟨fun h => ?_, fun h => ⟨e, s, hrun, h⟩⟩
  obtain ⟨e', s', h, hd⟩ := h
  rw [hrun] at h
  cases h
  exact hd

/-- **The actions of a hook** end with `ErrDenied` exactly if one that was reached did. -/
theorem runHookActions_denied_iff (r : Runner σ μ) (invocation : Invocation)
    (hook : Hook μ) (actions : List (HookAction μ)) (s : σ) (injections : List String) :
    IsDenied (r.runHookActions hook invocation actions s
        injections).err ↔
      ∃ x ∈ r.reachedActions hook invocation actions s,
        r.Denied invocation x := by
  induction actions generalizing s injections with
  | nil => exact iff_of_false not_isDenied_none (by simp [reachedActions])
  | cons action actions ih =>
    rw [runHookActions, reachedActions]
    split
    · exact ih s injections
    · simp only [mem_cons, exists_eq_or_imp]
      cases hrun : r.runAction action invocation s with
      | mk res s' =>
        cases res with
        | ok =>
          simp only [not_denied (x := ⟨action, s⟩) hrun, false_or]
          exact ih s' _
        | error e =>
          simp only [denied_iff (x := ⟨action, s⟩) hrun]
          split
          next hd => exact ⟨fun _ => .inl hd, fun _ => ⟨e, rfl, hd⟩⟩
          next hd =>
            simp only [hd, Bool.false_eq_true, false_or]
            split
            · exact ih _ injections
            · refine iff_of_false (fun h => ?_) (by simp)
              obtain ⟨e', h, hd'⟩ := h
              cases h
              exact hd hd'

/-- **The hooks of a run** end with `ErrDenied` exactly if an action that was reached did. -/
theorem runHooks_denied_iff (r : Runner σ μ) (invocation : Invocation) (hooks : List (Hook μ))
    (s : σ) (injections : List String) :
    IsDenied (r.runHooks invocation hooks s injections).err ↔
      ∃ x ∈ r.reachedHooks invocation hooks s injections,
        r.Denied invocation x := by
  induction hooks generalizing s injections with
  | nil => exact iff_of_false not_isDenied_none (by simp [reachedHooks])
  | cons hook hooks ih =>
    rw [runHooks, reachedHooks]
    split
    · exact ih s injections
    · have hactions := r.runHookActions_denied_iff invocation hook hook.actions s injections
      dsimp only
      cases herr : (r.runHookActions hook invocation hook.actions s injections).err with
      | some e =>
        dsimp only
        rw [append_nil]
        exact hactions
      | none =>
        rw [herr] at hactions
        have hnot : ¬ ∃ x ∈ r.reachedActions hook invocation
            hook.actions s, r.Denied invocation x := by
          rw [← hactions]
          exact not_isDenied_none
        dsimp only
        rw [ih]
        simp only [mem_append, or_and_right, exists_or]
        exact ⟨.inr, fun h => h.resolve_left hnot⟩

/-- **A run is denied** exactly if an action it reached, or the Go callback, failed with `ErrDenied`. -/
theorem run_denied_iff (s : σ) : IsDenied (r.run invocation s).err ↔
    (∃ x ∈ r.reached invocation s, r.Denied (r.located invocation) x) ∨
      r.CallbackDenied invocation s := by
  have hhooks := r.runHooks_denied_iff (r.located invocation) r.hooks s []
  unfold run CallbackDenied reached
  dsimp only
  rw [← hhooks]
  cases herr : (r.runHooks (r.located invocation) r.hooks s []).err with
  | some e =>
    rw [herr]
    exact ⟨.inl, fun h => h.elim id fun h => (nomatch h.1)⟩
  | none =>
    refine ⟨fun h => .inr ⟨rfl, h⟩, fun h => ?_⟩
    exact h.elim (fun h => absurd h not_isDenied_none) And.right

/-- **An action that decides to deny** fails with `ErrDenied` exactly if its events can be
published. -/
theorem denied_iff_published (h : r.Denies invocation x) :
    r.Denied invocation x ↔ r.Published invocation x := by
  rcases h with hdeny | ⟨hcommand, decision, inv, s, hdec, hdeny⟩
  · refine ⟨fun _ hcommand => ?_, fun _ => ?_⟩
    · rw [hdeny] at hcommand; cases hcommand
    · refine ⟨⟨.denial x.action.reason, "run deny action"⟩, x.state, ?_, rfl⟩
      rw [runAction, hdeny]
      rfl
  · have hrun : r.runAction x.action invocation x.state =
        match r.publishCommandEvents decision.events inv s with
        | (.ok _, s') =>
          (.error ⟨.denial (denialReason r.library decision), "apply hook command decision"⟩, s')
        | (.error e, s') => (.error e, s') := by
      rw [runAction, hcommand]
      show r.runCommandAction x.action invocation x.state = _
      rw [runCommandAction, Act.bind_apply, hdec]
      show r.applyDecision inv (some decision) s = _
      rw [applyDecision, Act.bind_apply]
      cases hpub : r.publishCommandEvents decision.events inv s with
      | mk res s' =>
        cases res with
        | error e => rfl
        | ok _ => simp only [hdeny, if_true]; rfl
    unfold Denied Published
    rw [hrun]
    cases hpub : r.publishCommandEvents decision.events inv s with
    | mk res s' =>
      cases res with
      | ok u =>
        refine ⟨fun _ _ decision' inv' s'' hdec' => ?_, fun _ => ⟨_, s', rfl, rfl⟩⟩
        rw [hdec] at hdec'
        cases hdec'
        rw [hpub]
        trivial
      | error e =>
        refine ⟨fun hx _ decision' inv' s'' hdec' => ?_, fun hx => ⟨e, s', rfl, ?_⟩⟩
        · rw [hdec] at hdec'
          cases hdec'
          rw [hpub]
          obtain ⟨e', s'', heq, hd⟩ := hx
          cases heq
          exact hd
        · have hx' := hx hcommand decision inv s hdec
          rw [hpub] at hx'
          exact hx'

end

/-! ## The main result -/

section
variable (publisher : Option (Notice → Act Unit Unit)) (r : Runner σ μ) (invocation : Invocation)
  (s : σ)

/-- A deny that was reached ends the run with `ErrDenied`. -/
def DenyStops : Prop :=
  (∃ x ∈ r.reached invocation s, r.Denies (r.located invocation) x) →
    IsDenied (r.run invocation s).err

/-- **When a deny stops the operation.** A run that reaches a deny ends with `ErrDenied` exactly if one
of the denies it reaches can publish its events, or something else it reaches fails with `ErrDenied`. In
particular it does when every deny it reaches can publish its events. -/
theorem denyStops_iff :
    (r.DenyStops invocation s ↔
      ((∃ x ∈ r.reached invocation s, r.Denies (r.located invocation) x) →
        (∃ x ∈ r.reached invocation s, r.Denies (r.located invocation) x ∧
          r.Published (r.located invocation) x) ∨
        (∃ x ∈ r.reached invocation s, ¬ r.Denies (r.located invocation) x ∧
          r.Denied (r.located invocation) x) ∨ r.CallbackDenied invocation s)) ∧
    ((∀ x ∈ r.reached invocation s, r.Denies (r.located invocation) x →
      r.Published (r.located invocation) x) → r.DenyStops invocation s) := by
  have hsplit : (∃ x ∈ r.reached invocation s, r.Denied (r.located invocation) x) ↔
      (∃ x ∈ r.reached invocation s, r.Denies (r.located invocation) x ∧
        r.Published (r.located invocation) x) ∨
      (∃ x ∈ r.reached invocation s, ¬ r.Denies (r.located invocation) x ∧
        r.Denied (r.located invocation) x) := by
    refine ⟨?_, ?_⟩
    · intro h
      obtain ⟨x, hx, hd⟩ := h
      rcases Classical.em (r.Denies (r.located invocation) x) with hdeny | hdeny
      · exact .inl ⟨x, hx, hdeny, (denied_iff_published hdeny).1 hd⟩
      · exact .inr ⟨x, hx, hdeny, hd⟩
    · intro h
      rcases h with ⟨x, hx, hdeny, hpub⟩ | ⟨x, hx, _, hd⟩
      · exact ⟨x, hx, (denied_iff_published hdeny).2 hpub⟩
      · exact ⟨x, hx, hd⟩
  refine ⟨?_, ?_⟩
  · unfold DenyStops
    rw [run_denied_iff, hsplit, or_assoc]
  · intro hpub hdeny
    rw [run_denied_iff]
    obtain ⟨x, hx, hd⟩ := hdeny
    exact .inl ⟨x, hx, (denied_iff_published hd).2 (hpub x hx hd)⟩

/-! ## A deny that is passed over -/

def denyDecision : CommandDecision :=
  ⟨"deny", "protected path", "", [⟨"hook.checked", "Check ran.", [], "queue"⟩]⟩

def denyLibrary : Library where
  trimSpace := id
  trimBytes := id
  parseDuration := fun _ => none
  jsonValid := fun _ => true
  decodeStrict := fun _ => .ok denyDecision
  isObject := fun _ => true
  marshalInvocation := fun _ => .ok []
  marshalFailure := fun _ => .ok []
  joinPath := fun root name => root ++ "/" ++ name
  isAbs := fun path => path.toList.head? == some '/'
  cleanPath := id

def denyCommand : HookAction Unit :=
  ⟨"check", .command, (), "check", [], [], "", "", "", "", "", .ok [], "", "", .proceed⟩

def denyRunner : Runner Unit Unit where
  hooks := [⟨"guard", "preToolUse", (), [denyCommand], "hooks.yaml"⟩]
  workspace := "/w"
  commandTimeout := 30
  maxCommandOutput := 65536
  stateRoot := "/state"
  library := denyLibrary
  limits := ⟨4096, 65536⟩
  publisher := publisher
  runCommand := fun _ => pure [1]
  makeDirectory := fun _ => pure ()
  contextTokenCounter := none
  callback := none
  applies := fun _ _ => true

def toolUse : Invocation :=
  ⟨"preToolUse", 7, 1, 2, none, "writeFile", "call", "", [], [], [], "", "", 0, false⟩

theorem denyCommand_denies :
    (denyRunner publisher).Denies ((denyRunner publisher).located toolUse) ⟨denyCommand, ()⟩ :=
  .inr ⟨rfl, denyDecision, _, (), rfl, rfl⟩

end

/-- With a publisher the deny stops the operation. -/
theorem denyStops_iff_published :
    (denyRunner (some fun _ => pure ())).DenyStops toolUse () ∧
      IsDenied ((denyRunner (some fun _ => pure ())).run toolUse ()).err := by
  have hreached : (denyRunner (some fun _ => pure ())).reached toolUse () = [⟨denyCommand, ()⟩] := by
    rfl
  have hstops := (denyStops_iff (denyRunner (some fun _ => pure ())) toolUse ()).2 (by
    intro x hx hd
    rw [hreached, mem_singleton] at hx
    subst hx
    exact (denied_iff_published hd).1 ⟨_, (), rfl, rfl⟩)
  refine ⟨hstops, hstops ⟨⟨denyCommand, ()⟩, ?_, denyCommand_denies _⟩⟩
  rw [hreached]
  exact mem_singleton_self _

/-- **A deny is passed over.** Without a publisher the event of the decision cannot be published, the
command's `onFailure` makes the run go on, and it ends without an error. -/
theorem deny_lost_with_its_event : ¬ (denyRunner none).DenyStops toolUse () := by
  intro h
  have hreached : (denyRunner none).reached toolUse () = [⟨denyCommand, ()⟩] := by rfl
  have hnone : ((denyRunner none).run toolUse ()).err = none := by rfl
  obtain ⟨e, he, _⟩ := h ⟨⟨denyCommand, ()⟩, by rw [hreached]; exact mem_singleton_self _,
    denyCommand_denies none⟩
  rw [hnone] at he
  cases he

end Peen.Hooks.Runner
