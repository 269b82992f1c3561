import Mathlib.Data.List.Basic

/-!
# Runs of a labelled step function

A system is a step function `step : σ → α → Option σ`: an action is either disabled in a state or
has one successor.
-/

namespace Lts

section
variable {σ α : Type*} {step : σ → α → Option σ}

/-- The state a run ends in; `none` when one of its actions is disabled where it is taken. -/
def exec (step : σ → α → Option σ) : σ → List α → Option σ
  | s, [] => some s
  | s, a :: as => (step s a).bind fun s' => exec step s' as

/-- `P` holds in every state the run visits. A disabled action ends the run. -/
def Always (step : σ → α → Option σ) (P : σ → Prop) : σ → List α → Prop
  | s, [] => P s
  | s, a :: as => P s ∧ ∀ s', step s a = some s' → Always step P s' as

/-- `C` holds of every step the run takes, read in the state before the step. -/
def Along (step : σ → α → Option σ) (C : σ → α → Prop) : σ → List α → Prop
  | _, [] => True
  | s, a :: as => ∀ s', step s a = some s' → C s a ∧ Along step C s' as

/-- Whether a run keeps a decidable predicate is decided by running it. -/
instance decidableAlways {P : σ → Prop} [DecidablePred P] :
    ∀ (s : σ) (as : List α), Decidable (Always step P s as)
  | s, [] => inferInstanceAs (Decidable (P s))
  | s, a :: as =>
    match h : step s a with
    | none => decidable_of_iff (P s) (by simp [Always, h])
    | some s' =>
      have := decidableAlways (P := P) s' as
      decidable_of_iff (P s ∧ Always step P s' as) (by simp [Always, h])

/-- Whether a run's steps all meet a decidable condition is decided by running it. -/
instance decidableAlong {C : σ → α → Prop} [∀ s a, Decidable (C s a)] :
    ∀ (s : σ) (as : List α), Decidable (Along step C s as)
  | _, [] => .isTrue trivial
  | s, a :: as =>
    match h : step s a with
    | none => .isTrue (by simp [Along, h])
    | some s' =>
      have := decidableAlong (C := C) s' as
      decidable_of_iff (C s a ∧ Along step C s' as) (by simp [Along, h])

/-! ## The two readings -/

theorem Always.head : ∀ {s : σ} {as : List α}, Always step P s as → P s
  | _, [], h => h
  | _, _ :: _, h => h.1

theorem Always.last : ∀ {s t : σ} {as : List α},
    Always step P s as → exec step s as = some t → P t
  | _, _, [], h, he => by cases he; exact h
  | s, t, a :: as, h, he => by
    simp only [exec, Option.bind_eq_some_iff] at he
    obtain ⟨s', hs', he⟩ := he
    exact Always.last (h.2 s' hs') he

theorem Always.mono (hPQ : ∀ s, P s → Q s) : ∀ {s : σ} {as : List α},
    Always step P s as → Always step Q s as
  | _, [], h => hPQ _ h
  | _, _ :: _, h => ⟨hPQ _ h.1, fun s' hs' => (h.2 s' hs').mono hPQ⟩

theorem Along.mono (hCD : ∀ s a, C s a → D s a) : ∀ {s : σ} {as : List α},
    Along step C s as → Along step D s as
  | _, [], _ => trivial
  | _, _ :: _, h => fun s' hs' => ⟨hCD _ _ (h s' hs').1, (h s' hs').2.mono hCD⟩

theorem Along.and : ∀ {s : σ} {as : List α},
    Along step C s as → Along step D s as → Along step (fun s a => C s a ∧ D s a) s as
  | _, [], _, _ => trivial
  | _, _ :: _, hC, hD => fun s' hs' =>
    ⟨⟨(hC s' hs').1, (hD s' hs').1⟩, (hC s' hs').2.and (hD s' hs').2⟩

theorem not_always_of_exec (hf : ∀ t, f t = true → ¬ P t) (h : (exec step s as).map f = some true) :
    ¬ Always step P s as := by
  intro hP
  obtain ⟨t, ht, hft⟩ := Option.map_eq_some_iff.1 h
  exact hf t hft (hP.last ht)

/-! ## The induction rules -/

/-- **Invariants under a step condition.** What one step keeps whenever it meets `C`, every run
whose steps all meet `C` keeps. -/
theorem always_of_along (hstep : ∀ s a s', I s → C s a → step s a = some s' → I s') :
    ∀ {s : σ} {as : List α}, I s → Along step C s as → Always step I s as
  | _, [], h, _ => h
  | s, a :: _, h, hC => ⟨h, fun s' hs' =>
      always_of_along hstep (hstep s a s' h (hC s' hs').1 hs') (hC s' hs').2⟩

/-- **Invariants.** What every step keeps, every run keeps. -/
theorem Always.of_step (hstep : ∀ s a s', I s → step s a = some s' → I s') (h : I s) :
    Always step I s as := by
  induction as generalizing s with
  | nil => exact h
  | cons a as ih => exact ⟨h, fun s' hs' => ih (hstep s a s' h hs')⟩

/-- What holds wherever runs end holds in every state a run visits. -/
theorem Always.of_exec (h : ∀ as t, exec step s as = some t → P t) : Always step P s as := by
  induction as generalizing s with
  | nil => exact h [] s rfl
  | cons a as ih =>
    refine ⟨h [] s rfl, fun s' hs' => ih fun as t ht => h (a :: as) t ?_⟩
    rw [exec, hs']
    exact ht

/-- What an invariant gives at one step, it gives at every step of a run. -/
theorem along_of_inv {I : σ → Prop} {C : σ → α → Prop}
    (hI : ∀ s a s', I s → step s a = some s' → I s')
    (hC : ∀ s a s', I s → step s a = some s' → C s a) {s : σ} {as : List α} (h : I s) :
    Along step C s as := by
  induction as generalizing s with
  | nil => trivial
  | cons a as ih => exact fun s' hs' => ⟨hC s a s' h hs', ih (hI s a s' h hs')⟩

/-- **Exact conditions.** When, under an invariant `I`, a step keeps `P` exactly if it meets `C`,
then `P` holds along a run exactly if every step of it meets `C`. -/
theorem always_iff_along {I P : σ → Prop} {C : σ → α → Prop}
    (hI : ∀ s a s', I s → step s a = some s' → I s')
    (hPC : ∀ s a s', I s → P s → step s a = some s' → (P s' ↔ C s a)) :
    ∀ {s : σ} {as : List α}, I s → P s → (Always step P s as ↔ Along step C s as)
  | _, [], _, hp => ⟨fun _ => trivial, fun _ => hp⟩
  | s, a :: as, hi, hp => by
    refine ⟨?_, ?_⟩
    · rintro ⟨-, h⟩ s' hs'
      have hp' : P s' := (h s' hs').head
      exact ⟨(hPC s a s' hi hp hs').1 hp',
        (always_iff_along hI hPC (hI s a s' hi hs') hp').1 (h s' hs')⟩
    · intro h
      refine ⟨hp, fun s' hs' => ?_⟩
      have hp' : P s' := (hPC s a s' hi hp hs').2 (h s' hs').1
      exact (always_iff_along hI hPC (hI s a s' hi hs') hp').2 (h s' hs').2

end

end Lts
