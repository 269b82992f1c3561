import Peen.Lib.Run

/-!
# Noninterference between the parties of a store

Several parties call one store, each call answered at once: `step s i a` is the answer to party
`i`'s call `a` in state `s` and the state after it.
-/

namespace Purge

variable {σ ι α β γ : Type} [DecidableEq ι] {step : σ → ι → α → β × σ}

/-- The step of a party as a labelled step; it is always possible. -/
def next (step : σ → ι → α → β × σ) (s : σ) (call : ι × α) : Option σ :=
  some (step s call.1 call.2).2

/-- What a party is answered in a run. -/
def answers (step : σ → ι → α → β × σ) (own : ι) : σ → List (ι × α) → List β
  | _, [] => []
  | s, (i, a) :: calls =>
    if i = own then (step s i a).1 :: answers step own (step s i a).2 calls
    else answers step own (step s i a).2 calls

/-- The run without the calls of the others. -/
def purge (own : ι) (calls : List (ι × α)) : List (ι × α) :=
  calls.filter fun call => call.1 = own

/-- **Unwinding.** Related states give a party the same observations in a run and in the run purged
of the other parties' calls, when every step of the run meets the condition. -/
theorem unwinding {own : ι} {observe : β → γ} {R : σ → σ → Prop} {C : σ → ι × α → Prop}
    (hown : ∀ s t a, R s t → C s (own, a) →
      observe (step s own a).1 = observe (step t own a).1 ∧
        R (step s own a).2 (step t own a).2)
    (hoth : ∀ s t i a, i ≠ own → R s t → R (step s i a).2 t) {s t : σ}
    {calls : List (ι × α)} (h : R s t) (hC : Lts.Along (next step) C s calls) :
    (answers step own s calls).map observe =
      (answers step own t (purge own calls)).map observe := by
  induction calls generalizing s t with
  | nil => rfl
  | cons call calls ih =>
    obtain ⟨i, a⟩ := call
    obtain ⟨hstep, hrest⟩ := hC _ rfl
    by_cases hi : i = own
    · subst hi
      obtain ⟨hobs, hnext⟩ := hown s t a h hstep
      have hpurge : purge i ((i, a) :: calls) = (i, a) :: purge i calls :=
        List.filter_cons_of_pos (by simp)
      rw [hpurge, answers, answers, if_pos rfl, if_pos rfl, List.map_cons, List.map_cons, hobs,
        ih hnext hrest]
    · have hpurge : purge own ((i, a) :: calls) = purge own calls :=
        List.filter_cons_of_neg (by simp [hi])
      rw [hpurge, answers, if_neg hi]
      exact ih (hoth s t i a hi h) hrest

end Purge
