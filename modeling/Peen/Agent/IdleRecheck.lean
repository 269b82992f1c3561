import Peen.Agent.Wake

/-!
# The idle re-check

A notice that meets a running turn stays pending, and the re-check after the turn is what wakes the
session for it.
-/

namespace Peen.Wake

open Lts Tasks List World Sessions

/-! ## What a step does -/

/-- What each step does, with what it needs. -/
inductive Takes (limit : Int) (w : World) : Call → World → Prop where
  | publish (notice : Notice) :
      Takes limit w (.publish notice)
        { w with pending := w.pending ++ [notice], tasks := w.tasks ++ [.claim notice []] }
  | consider (notice : Notice) :
      Takes limit w (.consider notice) { w with tasks := w.tasks ++ [.claim notice []] }
  | startTurn : Takes limit w .startTurn w.startTurn
  | deliver (left : List Notice) : w.active.isSome = true →
      Takes limit w (.deliver left) { w with pending := left }
  | endTurn {turn : Nat} (state : TurnState) {w₁ : World} : w.active = some turn →
      w₁ = (if rechecks state then w.owe else w) →
      Takes limit w (.endTurn state)
        { w₁ with active := none, ended := some (turn, state), tasks := w.tasks ++ [.idle state] }
  | claimed {i : Nat} {notice : Notice} {rest : List Notice} :
      w.tasks[i]? = some (.claim notice rest) → w.limiter.inFlight = false →
      Takes limit w (.run i)
        ({ w with limiter := { w.limiter with inFlight := true }, claims := w.claims + 1 }.goOn i
          [.check notice rest])
  | taken {i : Nat} {notice : Notice} {rest : List Notice} :
      w.tasks[i]? = some (.claim notice rest) →
      Takes limit w (.run i) ((w.decide notice).goOn i (next rest))
  | busy {i : Nat} {notice : Notice} {rest : List Notice} :
      w.tasks[i]? = some (.check notice rest) → w.active.isSome = true →
      Takes limit w (.run i) ((w.decide notice).goOn i [.release rest])
  | found {i : Nat} {notice : Notice} {rest : List Notice} :
      w.tasks[i]? = some (.check notice rest) → w.active = none →
      Takes limit w (.run i) ((w.decide notice).goOn i [.lookup notice rest])
  | stays {i : Nat} {notice : Notice} {rest : List Notice} (result : Lookup) (now : Int)
      (seen : List Int) : w.tasks[i]? = some (.lookup notice rest) →
      Takes limit w (.lookup i result now)
        ({ w with limiter := { w.limiter with seen } }.goOn i [.release rest])
  | wakes {i : Nat} {notice : Notice} {rest : List Notice} (result : Lookup) (now : Int)
      (seen : List Int) : w.tasks[i]? = some (.lookup notice rest) →
      Takes limit w (.lookup i result now)
        ({ w with limiter := { w.limiter with seen } }.goOn i [.wake false])
  | release {i : Nat} {rest : List Notice} : w.tasks[i]? = some (.release rest) →
      Takes limit w (.run i)
        ({ w with limiter := w.limiter.release.2 }.goOn i (next rest))
  | returned {i : Nat} : w.tasks[i]? = some .returned →
      Takes limit w (.run i)
        ({ w with limiter := w.limiter.release.2 }.goOn i
          (if w.limiter.recheck then [.recheck] else []))
  | recheck {i : Nat} : w.tasks[i]? = some .recheck →
      Takes limit w (.run i) (w.serve.goOn i (next w.pending))
  | idleSkipped {i : Nat} {state : TurnState} : w.tasks[i]? = some (.idle state) →
      rechecks state = false → Takes limit w (.run i) (w.goOn i [])
  | idleDeferred {i : Nat} {state : TurnState} : w.tasks[i]? = some (.idle state) →
      w.limiter.inFlight = true →
      Takes limit w (.run i)
        ({ w with limiter := { w.limiter with recheck := true },
                  owed := w.owed ++ [w.claims] }.goOn i [])
  | idleNow {i : Nat} {state : TurnState} : w.tasks[i]? = some (.idle state) →
      w.limiter.inFlight = false → Takes limit w (.run i) (w.goOn i [.recheck])
  | wakeOpens {i : Nat} : w.tasks[i]? = some (.wake false) →
      Takes limit w (.wakeOpens i) (w.startTurn.goOn i [.wake true])
  | wakeReturns {i : Nat} {opened : Bool} : w.tasks[i]? = some (.wake opened) →
      Takes limit w (.wakeReturns i) (w.goOn i [.returned])

variable {i : Nat}

section
variable {limit : Int}

theorem takes_of_run (h : step limit w (.run i) = some w') : Takes limit w (.run i) w' := by
  simp only [step] at h
  split at h
  · next notice rest hi =>
    cases h
    unfold runClaim WakeLimiter.claim
    cases hf : w.limiter.inFlight with
    | true => exact .taken hi
    | false => exact .claimed hi hf
  · next notice rest hi =>
    cases h
    unfold runCheck
    split
    · next ha => exact .busy hi ha
    · next ha => exact .found hi (Option.not_isSome_iff_eq_none.1 ha)
  · next rest hi =>
    cases h
    exact .release hi
  · next hi =>
    cases h
    exact .returned hi
  · next hi =>
    cases h
    exact .recheck hi
  · next state hi =>
    cases h
    unfold runIdle
    cases hs : rechecks state with
    | false => exact .idleSkipped hi hs
    | true =>
      by_cases hf : w.limiter.inFlight = true
      · rw [WakeLimiter.deferRecheck_eq, if_pos hf, owe, if_pos hf]
        exact .idleDeferred hi hf
      · rw [WakeLimiter.deferRecheck_eq, if_neg hf]
        exact .idleNow hi (Bool.eq_false_iff.2 hf)
  · cases h
  · cases h
  · cases h

theorem takes_of_lookup {now : Int} (h : step limit w (.lookup i result now) = some w') :
    Takes limit w (.lookup i result now) w' := by
  simp only [step] at h
  split at h
  · next notice rest hi =>
    cases h
    have hstay : Takes limit w (.lookup i result now) (w.goOn i [.release rest]) :=
      .stays result now w.limiter.seen hi
    unfold runLookup
    split
    · exact hstay
    · exact hstay
    · split
      · exact hstay
      · dsimp only
        split
        · exact .wakes _ now _ hi
        · exact .stays _ now _ hi
  · cases h

theorem takes_of_step (h : step limit w call = some w') : Takes limit w call w' := by
  cases call with
  | publish notice => cases h; exact .publish notice
  | consider notice =>
    obtain ⟨_, h⟩ := of_guard h
    cases h; exact .consider notice
  | startTurn =>
    obtain ⟨_, h⟩ := of_unless h
    cases h; exact .startTurn
  | deliver left =>
    obtain ⟨ha, h⟩ := of_guard h
    cases h; exact .deliver left ha.1
  | endTurn state =>
    simp only [step] at h
    split at h
    · cases h
    · next turn ha =>
      have htasks : (if rechecks state then w.owe else w).tasks = w.tasks := by
        unfold owe
        split
        · split <;> rfl
        · rfl
      cases h
      rw [htasks]
      exact .endTurn state ha rfl
  | run i => exact takes_of_run h
  | lookup => exact takes_of_lookup h
  | wakeOpens i =>
    simp only [step] at h
    split at h
    · next hi =>
      split at h
      · cases h
      · cases h; exact .wakeOpens hi
    · cases h
  | wakeReturns i =>
    simp only [step] at h
    split at h
    · next opened hi => cases h; exact .wakeReturns hi
    · cases h

end

/-! ## What is on its way -/

def Task.holds : Task → Bool
  | .check _ _ | .lookup _ _ | .release _ | .wake _ | .returned => true
  | .claim _ _ | .recheck | .idle _ => false

def Task.notifies : Task → Bool
  | .idle state => rechecks state
  | _ => false

def Task.looks : Task → Bool
  | .recheck => true
  | .idle state => rechecks state
  | _ => false

/-- The goroutines that will decide on a notice, look at the pending ones or open a turn. -/
def Task.covers (id : UUID) : Task → Bool
  | .claim notice rest | .check notice rest => (notice :: rest).any (·.id == id)
  | .lookup _ rest | .release rest => rest.any (·.id == id)
  | .wake opened => !opened
  | .recheck => true
  | .idle state => rechecks state
  | .returned => false

def Deferred (w : World) : Prop := w.limiter.inFlight = true ∧ w.limiter.recheck = true

def World.decisionsOf (w : World) (id : UUID) : List (Option Nat) :=
  (w.decided.filter fun p => p.1 == id).map Prod.snd

/-- The only decision on the notice was made during the turn that ended last, and that turn ended as
completed or failed. -/
def World.OnlyDuring (w : World) (id : UUID) : Prop :=
  ∃ turn state, w.ended = some (turn, state) ∧ rechecks state = true ∧
    w.decisionsOf id = [some turn]

/-- No deferred re-check meets a release that drops it, and a wake turn returns without its turn
having opened only while another turn runs. -/
def Heard (w : World) : Call → Prop
  | .run i => ∀ rest, w.tasks[i]? = some (.release rest) → w.limiter.recheck = false
  | .wakeReturns i => w.tasks[i]? = some (.wake false) → w.active.isSome = true
  | _ => True

section
variable {limit : Int} {w w' : World}

theorem owe_cases (w : World) (state : TurnState) (h : w1 = if rechecks state then w.owe else w) :
    w1 = w ∨ (w.limiter.inFlight = true ∧ rechecks state = true ∧
      w1 = { w with owed := w.owed ++ [w.claims] }) := by
  subst h
  cases hs : rechecks state with
  | false => exact .inl rfl
  | true =>
    unfold owe
    by_cases hf : w.limiter.inFlight = true
    · rw [if_pos rfl, if_pos hf]
      exact .inr ⟨hf, rfl, rfl⟩
    · rw [if_pos rfl, if_neg hf]
      exact .inl rfl

def HasHolder (w : World) : Prop :=
  w.limiter.inFlight = true → ∃ t ∈ w.tasks, t.holds = true

theorem HasHolder.takes (h : HasHolder w) (ht : Takes limit w call w') : HasHolder w' := by
  have hnew : ∀ {i : Nat} {old new : Task}, w.tasks[i]? = some old → new.holds = true →
      ∃ t ∈ replace w.tasks i [new], t.holds = true := fun _ hn =>
    ⟨_, mem_replace_new mem_cons_self, hn⟩
  intro hf
  cases ht with
  | publish _ | consider _ =>
    obtain ⟨t, ht, hh⟩ := h hf
    exact ⟨t, mem_append_left _ ht, hh⟩
  | startTurn | deliver _ _ => exact h hf
  | endTurn state _ he =>
    have hf' : w.limiter.inFlight = true := by
      rcases owe_cases w state he with rfl | ⟨hf', -, -⟩
      · exact hf
      · exact hf'
    obtain ⟨t, ht, hh⟩ := h hf'
    exact ⟨t, mem_append_left _ ht, hh⟩
  | claimed hi _ | busy hi _ | found hi _ | wakeOpens hi | wakeReturns hi => exact hnew hi rfl
  | stays _ _ _ hi | wakes _ _ _ hi => exact hnew hi rfl
  | taken hi | recheck hi | idleSkipped hi _ | idleDeferred hi _ | idleNow hi _ =>
    exact exists_replace hi (h hf) nofun
  | release _ | returned _ => cases hf

/-- What is owed is on its way: for the claim that is held there is a mark or the end of the turn is
still to be reported, and for any claim there is a mark or a goroutine that will look. -/
structure OnItsWay (w : World) : Prop where
  le : ∀ claim ∈ w.owed, claim ≤ w.claims
  here : w.limiter.inFlight = true → w.claims ∈ w.owed →
    w.limiter.recheck = true ∨ ∃ t ∈ w.tasks, t.notifies = true
  looks : w.owed ≠ [] → Deferred w ∨ ∃ t ∈ w.tasks, t.looks = true

section
variable (h : OnItsWay w)
include h

theorem OnItsWay.goOn (hi : w.tasks[i]? = some old) (hold : old.looks = false)
    (hlim : w'.limiter.inFlight =
      w.limiter.inFlight ∧ w'.limiter.recheck = w.limiter.recheck) (howed : w'.owed = w.owed)
    (hclaims : w'.claims = w.claims) (htasks : w'.tasks = replace w.tasks i new) : OnItsWay w' := by
  have hold' : old.notifies = false := by
    cases old with
    | idle state => exact hold
    | _ => rfl
  refine ⟨?_, ?_, ?_⟩
  · rw [howed, hclaims]
    exact h.le
  · rw [howed, hclaims, hlim.1, hlim.2, htasks]
    intro hf hmem
    refine (h.here hf hmem).imp_right fun hn => exists_replace hi hn fun ho => ?_
    rw [hold'] at ho
    cases ho
  · rw [howed, htasks]
    intro hne
    refine (h.looks hne).imp (fun hd => ?_) fun hl => exists_replace hi hl fun ho => ?_
    · exact ⟨hlim.1.trans hd.1, hlim.2.trans hd.2⟩
    · rw [hold] at ho
      cases ho

theorem OnItsWay.append (hlim : w'.limiter = w.limiter)
    (howed : w'.owed = w.owed) (hclaims : w'.claims = w.claims)
    (htasks : w'.tasks = w.tasks ++ more) : OnItsWay w' := by
  have happend : ∀ {P : Task → Prop}, (∃ t ∈ w.tasks, P t) → ∃ t ∈ w'.tasks, P t := by
    rintro P ⟨t, ht, hP⟩
    exact ⟨t, htasks ▸ mem_append_left _ ht, hP⟩
  refine ⟨?_, ?_, ?_⟩
  · rw [howed, hclaims]
    exact h.le
  · rw [howed, hclaims, hlim]
    exact fun hf hmem => (h.here hf hmem).imp_right happend
  · rw [howed]
    refine fun hne => (h.looks hne).imp (fun hd => ?_) happend
    unfold Deferred
    rw [hlim]
    exact hd

theorem OnItsWay.released (hi : w.tasks[i]? = some old) (hold : old.looks = false)
    (hmark : w.limiter.recheck = true → ∃ t ∈ new, t.looks = true) :
    OnItsWay ({ w with limiter := w.limiter.release.2 }.goOn i new) := by
  refine ⟨h.le, nofun, fun hne => .inr ?_⟩
  rcases h.looks hne with ⟨-, hd⟩ | hl
  · obtain ⟨t, ht, hlooks⟩ := hmark hd
    exact ⟨t, mem_replace_new ht, hlooks⟩
  · refine exists_replace hi hl fun ho => ?_
    rw [hold] at ho
    cases ho

theorem OnItsWay.endTurn {turn : Nat} (he : w1 = if rechecks state then w.owe else w) :
    OnItsWay { w1 with active := none, ended := some (turn, state),
                       tasks := w.tasks ++ [.idle state] } := by
  rcases owe_cases w state he with rfl | ⟨hf, hs, rfl⟩
  · exact h.append rfl rfl rfl rfl
  · have hidle : ∃ t ∈ w.tasks ++ [Task.idle state], t.notifies = true ∧ t.looks = true :=
      ⟨_, mem_concat_self, hs, hs⟩
    obtain ⟨t, ht, hn, hl⟩ := hidle
    refine ⟨?_, fun _ _ => .inr ⟨t, ht, hn⟩, fun _ => .inr ⟨t, ht, hl⟩⟩
    intro claim hc
    rcases mem_snoc.1 hc with hc | hc
    · exact h.le claim hc
    · exact Nat.le_of_eq hc

theorem OnItsWay.recheck (hi : w.tasks[i]? = some .recheck) (new : List Task) :
    OnItsWay (w.serve.goOn i new) := by
  have hmem : ∀ {claim : Nat}, claim ∈ w.serve.owed →
      claim ∈ w.owed ∧ w.limiter.inFlight = true ∧ claim = w.claims := by
    intro claim hc
    obtain ⟨hc, hp⟩ := mem_filter.1 hc
    obtain ⟨hf, he⟩ := Bool.and_eq_true_iff.1 hp
    exact ⟨hc, hf, eq_of_beq he⟩
  have hnotifies : ∀ {claim : Nat}, claim ∈ w.serve.owed → w.limiter.recheck = true ∨
      ∃ t ∈ replace w.tasks i new, t.notifies = true := by
    intro claim hc
    obtain ⟨hc, hf, rfl⟩ := hmem hc
    exact (h.here hf hc).imp_right fun hn => exists_replace hi hn nofun
  refine ⟨fun claim hc => h.le claim (hmem hc).1, fun _ hc => hnotifies hc, fun hne => ?_⟩
  obtain ⟨claim, hc⟩ := exists_mem_of_ne_nil _ hne
  rcases hnotifies hc with hmark | ⟨t, ht, hn⟩
  · exact .inl ⟨(hmem hc).2.1, hmark⟩
  · refine .inr ⟨t, ht, ?_⟩
    cases t with
    | idle state => exact hn
    | _ => cases hn

theorem OnItsWay.takes (hheard : Heard w call) (ht : Takes limit w call w') : OnItsWay w' := by
  cases ht with
  | publish _ | consider _ => exact h.append rfl rfl rfl rfl
  | startTurn | deliver _ _ => exact h.append rfl rfl rfl (append_nil _).symm
  | endTurn state _ he => exact h.endTurn he
  | claimed hi hf =>
    refine ⟨fun claim hc => Nat.le_succ_of_le (h.le claim hc), fun _ hc => ?_, fun hne => ?_⟩
    · exact absurd (h.le _ hc) (Nat.not_succ_le_self _)
    · rcases h.looks hne with ⟨hd, -⟩ | hl
      · rw [hf] at hd
        cases hd
      · exact .inr (exists_replace hi hl nofun)
  | taken hi | busy hi _ | found hi _ | wakeOpens hi | wakeReturns hi =>
    exact h.goOn hi rfl ⟨rfl, rfl⟩ rfl rfl rfl
  | stays _ _ _ hi | wakes _ _ _ hi => exact h.goOn hi rfl ⟨rfl, rfl⟩ rfl rfl rfl
  | release hi =>
    refine h.released hi rfl fun hmark => ?_
    rw [hheard _ hi] at hmark
    cases hmark
  | returned hi =>
    refine h.released hi rfl fun hmark => ?_
    rw [if_pos hmark]
    exact ⟨_, mem_cons_self, rfl⟩
  | recheck hi => exact h.recheck hi _
  | idleSkipped hi hs => exact h.goOn hi hs ⟨rfl, rfl⟩ rfl rfl rfl
  | idleDeferred hi hf =>
    refine ⟨?_, fun _ _ => .inl rfl, fun _ => .inl ⟨hf, rfl⟩⟩
    intro claim hc
    rcases mem_snoc.1 hc with hc | hc
    · exact h.le claim hc
    · exact Nat.le_of_eq hc
  | idleNow hi hf =>
    refine ⟨h.le, fun hf' => ?_, fun _ => .inr ⟨_, mem_replace_new mem_cons_self, rfl⟩⟩
    rw [show (w.goOn _ _).limiter.inFlight = w.limiter.inFlight from rfl, hf] at hf'
    cases hf'

end

/-- A notice whose only decision was made during the turn that ended last will be looked at again,
while no turn runs. -/
def Covered (w : World) : Prop :=
  ∀ notice ∈ w.pending, w.active = none → w.OnlyDuring notice.id →
    Deferred w ∨ ∃ t ∈ w.tasks, t.covers notice.id = true

theorem not_onlyDuring_decide (notice : Notice) (ha : w.active = none) :
    ¬ (w.decide notice).OnlyDuring notice.id := by
  rintro ⟨turn, state, -, -, hd⟩
  have hlast : (w.decide notice).decisionsOf notice.id = w.decisionsOf notice.id ++ [none] := by
    unfold World.decisionsOf World.decide
    rw [filter_append, map_append, ha]
    simp
  rw [hlast] at hd
  have := congrArg getLast? hd
  simp at this

theorem onlyDuring_decide {notice : Notice} {id : UUID} (hne : notice.id ≠ id) :
    (w.decide notice).OnlyDuring id ↔ w.OnlyDuring id := by
  have hsame : (w.decide notice).decisionsOf id = w.decisionsOf id := by
    unfold World.decisionsOf World.decide
    simp [hne]
  unfold OnlyDuring
  rw [hsame]
  rfl

theorem covers_next {rest : List Notice} {id : UUID} (h : rest.any (·.id == id) = true) :
    ∃ t ∈ World.next rest, t.covers id = true := by
  cases rest with
  | nil => cases h
  | cons => exact ⟨_, mem_cons_self, h⟩

theorem Covered.goOn (h : Covered w) (hi : w.tasks[i]? = some old) (hpend : w'.pending = w.pending)
    (hsame : w'.active = w.active ∧ w'.ended = w.ended ∧ w'.decided = w.decided)
    (hdeferred : Deferred w → Deferred w' ∨ ∃ t ∈ new, ∀ id, t.covers id = true)
    (htasks : w'.tasks = replace w.tasks i new)
    (hcovers : ∀ id, old.covers id = true → w.active = none →
      Deferred w' ∨ ∃ t ∈ new, t.covers id = true) : Covered w' := by
  intro notice hn ha honly
  rw [hpend] at hn
  rw [hsame.1] at ha
  have honly' : w.OnlyDuring notice.id := by
    unfold OnlyDuring decisionsOf at honly ⊢
    rw [hsame.2.1, hsame.2.2] at honly
    exact honly
  rcases h notice hn ha honly' with hd | ⟨t, ht, hc⟩
  · refine (hdeferred hd).imp_right fun ⟨t, ht, hall⟩ => ?_
    exact ⟨t, htasks ▸ mem_replace_new ht, hall _⟩
  · rw [htasks]
    rcases mem_replace hi ht with rfl | ht
    · refine (hcovers _ hc ha).imp_right fun ⟨t', ht', hc'⟩ => ?_
      exact ⟨t', mem_replace_new ht', hc'⟩
    · exact .inr ⟨t, ht, hc⟩

theorem Covered.decided (h : Covered w) (hi : w.tasks[i]? = some old)
    (hold : ∀ id, old.covers id = (notice :: rest).any (·.id == id))
    (hnew : ∀ id, rest.any (·.id == id) = true → ∃ t ∈ new, t.covers id = true) :
    Covered ((w.decide notice).goOn i new) := by
  intro other hn ha honly
  have hne : notice.id ≠ other.id := by
    intro he
    rw [← he] at honly
    exact not_onlyDuring_decide notice (show w.active = none from ha) honly
  refine (h other hn ha ((onlyDuring_decide hne).1 honly)).imp_right fun hc => ?_
  refine exists_replace hi hc fun ho => hnew _ ?_
  rw [hold] at ho
  simpa [hne] using ho

theorem Covered.takes (h : Covered w) (hheard : Heard w call) (ht : Takes limit w call w') :
    Covered w' := by
  cases ht with
  | publish =>
    intro other hn ha honly
    rcases mem_snoc.1 hn with hn | hn
    · refine (h other hn ha honly).imp_right fun ⟨t, ht, hc⟩ => ?_
      exact ⟨t, mem_append_left _ ht, hc⟩
    · rw [hn]
      simp [Task.covers]
  | consider =>
    intro other hn ha honly
    refine (h other hn ha honly).imp_right fun ⟨t, ht, hc⟩ => ?_
    exact ⟨t, mem_append_left _ ht, hc⟩
  | startTurn => exact nofun
  | deliver _ hactive =>
    intro _ _ ha
    rw [show w.active = none from ha] at hactive
    cases hactive
  | endTurn =>
    rintro notice - - ⟨turn', state', hend, hs, -⟩
    cases hend
    exact .inr ⟨_, mem_concat_self, hs⟩
  | claimed hi hf =>
    refine h.goOn hi rfl ⟨rfl, rfl, rfl⟩ (fun hd => ?_) rfl (fun id hc _ => ?_)
    · obtain ⟨hd, -⟩ := hd
      rw [hf] at hd
      cases hd
    · exact .inr ⟨_, mem_cons_self, hc⟩
  | taken hi => exact h.decided hi (fun _ => rfl) (fun id hr => covers_next hr)
  | busy hi _ | found hi _ =>
    exact h.decided hi (fun _ => rfl) (fun id hr => ⟨_, mem_cons_self, hr⟩)
  | stays _ _ _ hi =>
    exact h.goOn hi rfl ⟨rfl, rfl, rfl⟩ .inl rfl (fun id hc _ => .inr ⟨_, mem_cons_self, hc⟩)
  | wakes _ _ _ hi =>
    exact h.goOn hi rfl ⟨rfl, rfl, rfl⟩ .inl rfl (fun id hc _ => .inr ⟨_, mem_cons_self, rfl⟩)
  | release hi =>
    refine h.goOn hi rfl ⟨rfl, rfl, rfl⟩ (fun hd => ?_) rfl (fun id hc _ => .inr (covers_next hc))
    obtain ⟨-, hd⟩ := hd
    rw [hheard _ hi] at hd
    cases hd
  | returned hi =>
    refine h.goOn hi rfl ⟨rfl, rfl, rfl⟩ (fun hd => .inr ?_) rfl nofun
    rw [if_pos hd.2]
    exact ⟨_, mem_cons_self, fun _ => rfl⟩
  | recheck hi =>
    intro notice hn ha honly
    have hany : w.pending.any (·.id == notice.id) = true :=
      any_eq_true.2 ⟨notice, hn, beq_self_eq_true _⟩
    obtain ⟨t, ht, hc⟩ := covers_next hany
    exact .inr ⟨t, mem_replace_new ht, hc⟩
  | idleSkipped hi hs =>
    refine h.goOn hi rfl ⟨rfl, rfl, rfl⟩ .inl rfl (fun id hc => ?_)
    rw [show (Task.idle _).covers id = rechecks _ from rfl, hs] at hc
    cases hc
  | idleDeferred hi hf =>
    exact h.goOn hi rfl ⟨rfl, rfl, rfl⟩ (fun _ => .inl ⟨hf, rfl⟩) rfl (fun _ _ _ => .inl ⟨hf, rfl⟩)
  | idleNow hi _ =>
    exact h.goOn hi rfl ⟨rfl, rfl, rfl⟩ .inl rfl (fun id _ _ => .inr ⟨_, mem_cons_self, rfl⟩)
  | wakeOpens hi => exact nofun
  | @wakeReturns i opened hi =>
    refine h.goOn hi rfl ⟨rfl, rfl, rfl⟩ .inl rfl (fun id hc ha => ?_)
    cases opened with
    | true => cases hc
    | false =>
      have := hheard hi
      rw [ha] at this
      cases this

/-! ## Runs -/

/-- Once no claim is held and nobody is about to look, no re-check is owed. -/
def RechecksRun (w : World) : Prop :=
  w.limiter.inFlight = false → (∀ t ∈ w.tasks, t.looks = false) → w.owed = []

/-- An idle session with nothing under way, and a pending notice whose only decision was made during
the turn that ended. -/
def Stranded (w : World) : Prop :=
  w.active = none ∧ w.tasks = [] ∧ ∃ notice ∈ w.pending, w.OnlyDuring notice.id

/-- **No wake-up is lost when no deferred re-check is dropped.** In every run whose steps are heard,
in every state: a re-check that the end of a turn during a claim calls for has run once the claim is
released and nobody is about to look at the notices; and no idle session with nothing under way has
a pending notice whose only decision was made during the turn that ended. -/
theorem wakeups_kept (limit : Int) (calls : List Call) (hcalls : Along (step limit) Heard {} calls) :
    Always (step limit) (fun w => RechecksRun w ∧ ¬ Stranded w) {} calls := by
  have hrun : Always (step limit) (fun w => HasHolder w ∧ OnItsWay w ∧ Covered w) {} calls := by
    refine always_of_along (fun w call w' h hc hs => ?_) ⟨?_, ?_, ?_⟩ hcalls
    · have ht := takes_of_step hs
      exact ⟨h.1.takes ht, h.2.1.takes hc ht, h.2.2.takes hc ht⟩
    · exact nofun
    · exact ⟨nofun, nofun,
        fun hne => absurd rfl hne⟩
    · exact nofun
  refine hrun.mono fun w ⟨hholder, howed, hcovered⟩ => ⟨fun hf hlooks => ?_, ?_⟩
  · by_contra hne
    rcases howed.looks hne with ⟨hd, -⟩ | ⟨t, ht, hl⟩
    · rw [hf] at hd
      cases hd
    · rw [hlooks t ht] at hl
      cases hl
  · rintro ⟨ha, htasks, notice, hn, honly⟩
    have hnone : ∀ {P : Task → Prop}, ¬ ∃ t ∈ w.tasks, P t := by
      rintro P ⟨t, ht, -⟩
      rw [htasks] at ht
      exact absurd ht not_mem_nil
    rcases hcovered notice hn ha honly with ⟨hf, -⟩ | hc
    · exact hnone (hholder hf)
    · exact hnone hc

end

instance (w : World) : Decidable (RechecksRun w) := inferInstanceAs (Decidable (_ → _ → _))

instance (w : World) (id : UUID) : Decidable (w.OnlyDuring id) :=
  match h : w.ended with
  | none => .isFalse fun ⟨_, _, he, _⟩ => nomatch h.symm.trans he
  | some (turn, state) =>
    decidable_of_iff (rechecks state = true ∧ w.decisionsOf id = [some turn])
      ⟨fun hd => ⟨turn, state, h, hd⟩, fun ⟨_, _, he, hd⟩ => by cases h.symm.trans he; exact hd⟩

instance (w : World) : Decidable (Stranded w) := inferInstanceAs (Decidable (_ ∧ _ ∧ _))

instance (w : World) : ∀ call, Decidable (Heard w call)
  | .run i =>
    match h : w.tasks[i]? with
    | some (.release _) =>
      decidable_of_iff (w.limiter.recheck = false) ⟨fun hr _ _ => hr, fun hr => hr _ h⟩
    | some (.claim _ _) | some (.check _ _) | some (.lookup _ _) | some (.wake _)
    | some .returned | some .recheck | some (.idle _) | none =>
      .isTrue fun _ he => nomatch h.symm.trans he
  | .wakeReturns i =>
    inferInstanceAs (Decidable (w.tasks[i]? = some (.wake false) → w.active.isSome = true))
  | .publish _ | .consider _ | .startTurn | .deliver _ | .endTurn _ | .lookup _ _ _ | .wakeOpens _ =>
    .isTrue trivial

def wakeNotice : Notice := { id := 1, delivery := .wake }

/-- The event is published during a turn; the turn ends after the decision saw it and before the
decision releases its claim. -/
def endDuringDecision : List Call :=
  [.startTurn, .publish wakeNotice, .run 0, .run 0, .endTurn .completed, .run 1, .run 0]

/-- The re-check is left to the release, and the release drops it: nothing is under way, no re-check
has run, and the notice is left behind. -/
theorem recheck_dropped :
    ((exec (step 0) {} endDuringDecision).map fun w => (w.active, w.tasks, w.pending)) =
      some (none, [], [wakeNotice]) ∧
    ((exec (step 0) {} endDuringDecision).map fun w => (w.owed, w.ended, w.decisionsOf 1)) =
      some ([1, 1], some (0, .completed), [some 0]) ∧
    ¬ Always (step 0) RechecksRun {} endDuringDecision ∧
    ¬ Always (step 0) (fun w => ¬ Stranded w) {} endDuringDecision := by
  refine ⟨by decide +kernel, by decide +kernel, by decide +kernel, by decide +kernel⟩

/-- The turn ends after the decision released its claim; its re-check wakes the session, and the
wake turn ends while the claim is held. -/
def endAfterDecision : List Call :=
  [.startTurn, .publish wakeNotice, .run 0, .run 0, .run 0, .endTurn .completed, .run 0, .run 0,
    .run 0, .run 0, .lookup 0 (.found .unset) 5, .wakeOpens 0, .deliver [], .endTurn .completed,
    .run 1, .wakeReturns 0, .run 0, .run 0]

/-- Nothing is lost there. -/
theorem wakeups_kept_after :
    ((exec (step 0) {} endAfterDecision).map fun w => (w.turns, w.tasks, w.pending)) =
      some (2, [], []) ∧
    Along (step 0) Heard {} endAfterDecision ∧
    Always (step 0) (fun w => RechecksRun w ∧ ¬ Stranded w) {} endAfterDecision := by
  have hcalls : Along (step 0) Heard {} endAfterDecision := by decide +kernel
  exact ⟨by decide +kernel, hcalls, wakeups_kept 0 endAfterDecision hcalls⟩

end Peen.Wake
