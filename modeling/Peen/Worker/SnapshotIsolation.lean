import Peen.Lib.Purge
import Peen.Session.Snapshots

/-!
# Snapshots of different sessions

Each worker talks to its controller over a connection bound to one session, and the controller
refuses a request that names another (`assertSession`).
-/

namespace Peen.Snapshots

open Lts Purge List Bool

/-! ## The controllers' connections -/

inductive Reply where
  | ack
  | context (row : ContextSnapshot)
  | prompt (row : PromptSnapshot)

/-- The calls of a worker around snapshots. The time of a save is the store's clock. -/
inductive Call where
  | saveContextSnapshot (sessionID : UUID) (snapshot : Option ContextSnapshot) (now : Nat)
  | savePromptSnapshot (sessionID : UUID) (snapshot : Option PromptSnapshot) (now : Nat)
  | getContextSnapshot (sessionID : UUID) (hash : String)
  | getPromptSnapshot (sessionID : UUID) (hash : String)
  | finishTurn (sessionID turnID : UUID) (contextHash promptHash : Option String)

/-- The tables, and who saved what. -/
structure World where
  db : Tables
  contextSaved : List (UUID × ContextSnapshot) := []
  promptSaved : List (UUID × PromptSnapshot) := []

/-- `assertSession` of the controller of session `own`. -/
def assertSession (own sessionID : UUID) : Except Err Unit :=
  if sessionID = own then .ok ()
  else .error ⟨.permissionDenied, "a worker may only act on the session it was launched for"⟩

variable {σ α : Type}

/-- `saveContextSnapshot` and `savePromptSnapshot` of a controller. -/
def SnapshotKind.controllerSave (k : SnapshotKind σ) (own sessionID : UUID)
    (snapshot : Option σ) (now : Nat) (rows : List σ) : Except Err (List σ) := do
  assertSession own sessionID
  match snapshot with
  | none => throw ⟨.validationFailed, k.name ++ " snapshot is required"⟩
  | some snapshot => k.save now rows snapshot

def SnapshotKind.record (k : SnapshotKind σ) (own : UUID) (now : Nat) (snapshot : Option σ) :
    List (UUID × σ) :=
  snapshot.toList.map fun snapshot => (own, k.stamp now snapshot)

/-- `callHash`: a controller's read. -/
def SnapshotKind.controllerGet (k : SnapshotKind σ) (own sessionID : UUID) (db : Tables)
    (rows : List σ) (hash : String) : Except Err σ := do
  assertSession own sessionID
  k.get db.sessions db.turns rows sessionID hash

section
variable (jsonValid : String → Bool)

/-- A request over a connection bound to a session. -/
def step (w : World) (own : UUID) : Call → Except Err Reply × World
  | .saveContextSnapshot sessionID snapshot now =>
    match (contextKind jsonValid).controllerSave own sessionID snapshot now
        w.db.contextSnapshots with
    | .error err => (.error err, w)
    | .ok rows =>
      (.ok .ack, { w with
        db := { w.db with contextSnapshots := rows },
        contextSaved := w.contextSaved ++ (contextKind jsonValid).record own now snapshot })
  | .savePromptSnapshot sessionID snapshot now =>
    match promptKind.controllerSave own sessionID snapshot now w.db.promptSnapshots with
    | .error err => (.error err, w)
    | .ok rows =>
      (.ok .ack, { w with
        db := { w.db with promptSnapshots := rows },
        promptSaved := w.promptSaved ++ promptKind.record own now snapshot })
  | .getContextSnapshot sessionID hash =>
    (((contextKind jsonValid).controllerGet own sessionID w.db w.db.contextSnapshots hash).map
      .context, w)
  | .getPromptSnapshot sessionID hash =>
    ((promptKind.controllerGet own sessionID w.db w.db.promptSnapshots hash).map .prompt, w)
  | .finishTurn sessionID turnID contextHash promptHash =>
    match assertSession own sessionID >>= fun _ =>
        w.db.finishTurn jsonValid sessionID turnID contextHash promptHash with
    | .error err => (.error err, w)
    | .ok db => (.ok .ack, { w with db })

/-- What is compared of a row: its content, or all of it. -/
structure View (α : Type) where
  context : ContextSnapshot → α
  prompt : PromptSnapshot → α

def View.observe (view : View α) : Except Err Reply → Except Err (Option α)
  | .error err => .error err
  | .ok .ack => .ok none
  | .ok (.context row) => .ok (some (view.context row))
  | .ok (.prompt row) => .ok (some (view.prompt row))

def SnapshotKind.SavedBy (k : SnapshotKind σ) (own : UUID) (saved : List (UUID × σ))
    (hash : String) : Prop :=
  ∃ p ∈ saved, p.1 = own ∧ k.hash p.2 = hash

/-- The session may save the row: its hash is free, its own already, or holds the same. -/
def SnapshotKind.FreeFor (k : SnapshotKind σ) (view : σ → α) (own : UUID) (rows : List σ)
    (saved : List (UUID × σ)) (snapshot : σ) : Prop :=
  ∀ row, k.find rows (k.hash snapshot) = some row →
    k.SavedBy own saved (k.hash snapshot) ∨ view row = view snapshot

/-- No call of the session meets another session's content. -/
def Undisputed (view : View α) (own : UUID) (w : World) : UUID × Call → Prop
  | (i, .saveContextSnapshot _ (some snapshot) now) => i = own →
      (contextKind jsonValid).FreeFor view.context own w.db.contextSnapshots w.contextSaved
        ((contextKind jsonValid).stamp now snapshot)
  | (i, .savePromptSnapshot _ (some snapshot) now) => i = own →
      promptKind.FreeFor view.prompt own w.db.promptSnapshots w.promptSaved
        (promptKind.stamp now snapshot)
  | (i, .finishTurn _ _ contextHash promptHash) => i = own →
      (∀ hash ∈ contextHash, (contextKind jsonValid).SavedBy own w.contextSaved hash) ∧
        ∀ hash ∈ promptHash, promptKind.SavedBy own w.promptSaved hash
  | _ => True

end

/-! ## One table -/

section
variable {k : SnapshotKind σ} {view : σ → α} {own : UUID} {rows rows' : List σ}
  {saved : List (UUID × σ)} {hash : String}

/-- A table of the run and the table it would be with the session's own calls only: the second
holds what the session saved, and the first agrees with it in the view. -/
structure TableRel (k : SnapshotKind σ) (view : σ → α) (own : UUID) (rows rows' : List σ)
    (saved : List (UUID × σ)) : Prop where
  agree : ∀ hash row', k.find rows' hash = some row' →
    ∃ row, k.find rows hash = some row ∧ view row = view row'
  mine : ∀ hash row', k.find rows' hash = some row' → (own, row') ∈ saved
  kept : ∀ hash, k.SavedBy own saved hash → ∃ row', k.find rows' hash = some row'

theorem SnapshotKind.SavedBy.append (h : k.SavedBy own saved hash) (more : List (UUID × σ)) :
    k.SavedBy own (saved ++ more) hash := by
  obtain ⟨p, hp, he⟩ := h
  exact ⟨p, mem_append_left _ hp, he⟩

theorem SnapshotKind.savedBy_concat :
    k.SavedBy own (saved ++ [(i, snapshot)]) hash ↔
      k.SavedBy own saved hash ∨ (i = own ∧ k.hash snapshot = hash) := by
  unfold SnapshotKind.SavedBy
  simp only [mem_append, mem_singleton, or_and_right, exists_or, exists_eq_left]

theorem TableRel.otherSave (h : TableRel k view own rows rows' saved) (hi : i ≠ own)
    (snapshot : σ) :
    TableRel k view own (k.insert rows snapshot) rows' (saved ++ [(i, snapshot)]) where
  agree := by
    intro hash row' hrow'
    obtain ⟨row, hrow, hview⟩ := h.agree hash row' hrow'
    exact ⟨row, k.find_insert_of_some hrow snapshot, hview⟩
  mine := fun hash row' hrow' => mem_append_left _ (h.mine hash row' hrow')
  kept := by
    intro hash hsv
    rcases SnapshotKind.savedBy_concat.1 hsv with hsv | ⟨he, -⟩
    · exact h.kept hash hsv
    · exact absurd he hi

theorem TableRel.ownSave (h : TableRel k view own rows rows' saved)
    (hfree : k.FreeFor view own rows saved snapshot) :
    TableRel k view own (k.insert rows snapshot) (k.insert rows' snapshot)
      (saved ++ [(own, snapshot)]) where
  agree := by
    intro hash row' hrow'
    rcases k.find_insert_cases hrow' with hrow' | ⟨rfl, rfl, hnew⟩
    · obtain ⟨row, hrow, hview⟩ := h.agree hash row' hrow'
      exact ⟨row, k.find_insert_of_some hrow snapshot, hview⟩
    · -- The session's first save under this hash.
      cases hrow : k.find rows (k.hash row') with
      | none => exact ⟨row', k.find_insert_new hrow, rfl⟩
      | some row =>
        refine ⟨row, k.find_insert_of_some hrow row', (hfree row hrow).resolve_left ?_⟩
        intro hsv
        obtain ⟨first, hfst⟩ := h.kept _ hsv
        rw [hnew] at hfst
        cases hfst
  mine := by
    intro hash row' hrow'
    rcases k.find_insert_cases hrow' with hrow' | ⟨rfl, -, -⟩
    · exact mem_append_left _ (h.mine hash row' hrow')
    · exact mem_concat_self
  kept := by
    intro hash hsv
    rcases SnapshotKind.savedBy_concat.1 hsv with hsv | ⟨-, rfl⟩
    · obtain ⟨row', hrow'⟩ := h.kept hash hsv
      exact ⟨row', k.find_insert_of_some hrow' snapshot⟩
    · cases hold : k.find rows' (k.hash snapshot) with
      | none => exact ⟨snapshot, k.find_insert_new hold⟩
      | some first => exact ⟨first, k.find_insert_of_some hold snapshot⟩

theorem TableRel.empty : TableRel k view own [] [] [] where
  agree := nofun
  mine := nofun
  kept := fun _ ⟨_, hp, _⟩ => absurd hp not_mem_nil

end

/-! ## Turns -/

section
variable {own sessionID turnID : UUID} {turns turns' : List Turn} {hash : String}
  {contextHash promptHash : Option String}

def turnsOf (own : UUID) (turns : List Turn) : List Turn :=
  turns.filter fun turn => turn.sessionID == own

theorem any_turnsOf (p : Turn → Bool) (hp : ∀ turn, p turn = true → turn.sessionID = own)
    (turns : List Turn) : turns.any p = (turnsOf own turns).any p := by
  rw [turnsOf, any_filter]
  congr 1
  funext turn
  cases hturn : p turn with
  | false => exact (Bool.and_false _).symm
  | true => rw [beq_iff_eq.2 (hp turn hturn), Bool.true_and]

theorem SnapshotKind.referenced_turnsOf (k : SnapshotKind σ) (turns : List Turn) (own : UUID)
    (hash : String) : k.referenced turns own hash = k.referenced (turnsOf own turns) own hash := by
  refine any_turnsOf _ (fun turn hturn => ?_) turns
  exact eq_of_beq (and_eq_true_iff.1 hturn).1

theorem Turn.sessionID_of_matches {turn : Turn} (h : turn.matches sessionID turnID = true) :
    turn.sessionID = sessionID := by
  exact eq_of_beq (and_eq_true_iff.1 (and_eq_true_iff.1 h).1).2

def finished (sessionID turnID : UUID) (contextHash promptHash : Option String)
    (turns : List Turn) : List Turn :=
  turns.map fun turn =>
    if turn.matches sessionID turnID then turn.finish contextHash promptHash else turn

theorem turnsOf_finished_ne (hne : sessionID ≠ own) (turns : List Turn) :
    turnsOf own (finished sessionID turnID contextHash promptHash turns) = turnsOf own turns := by
  induction turns with
  | nil => rfl
  | cons turn turns ih =>
    unfold turnsOf finished at ih ⊢
    rw [map_cons]
    by_cases hm : turn.matches sessionID turnID = true
    · have hs : turn.sessionID ≠ own := by
        rw [Turn.sessionID_of_matches hm]
        exact hne
      rw [if_pos hm, filter_cons_of_neg (by simpa [Turn.finish] using hs),
        filter_cons_of_neg (by simpa using hs)]
      exact ih
    · rw [if_neg hm, filter_cons, filter_cons, ih]

theorem turnsOf_finished (turns : List Turn) :
    turnsOf own (finished own turnID contextHash promptHash turns) =
      finished own turnID contextHash promptHash (turnsOf own turns) := by
  unfold turnsOf finished
  rw [filter_map]
  congr 1
  refine filter_congr fun turn _ => ?_
  dsimp only [Function.comp]
  split <;> rfl

theorem or_eq_some_cases {given : Option String} (h : given.or old = some hash) :
    old = some hash ∨ given = some hash := by
  cases given with
  | none => exact .inl h
  | some _ => exact .inr h

theorem SnapshotKind.referenced_finished (k : SnapshotKind σ) (given : Option String)
    (hk : ∀ turn : Turn, k.reference (turn.finish contextHash promptHash) = some hash →
      k.reference turn = some hash ∨ given = some hash)
    (h : k.referenced (finished sessionID turnID contextHash promptHash turns) own hash = true) :
    k.referenced turns own hash = true ∨ given = some hash := by
  obtain ⟨turn, hturn, hown⟩ := any_eq_true.1 h
  obtain ⟨old, hold, rfl⟩ := mem_map.1 hturn
  obtain ⟨hs, hr⟩ := and_eq_true_iff.1 hown
  by_cases hm : old.matches sessionID turnID = true
  · rw [if_pos hm] at hs hr
    rcases hk old (eq_of_beq hr) with hr | hg
    · exact .inl (any_eq_true.2 ⟨old, hold, and_eq_true_iff.2 ⟨hs, beq_iff_eq.2 hr⟩⟩)
    · exact .inr hg
  · rw [if_neg hm] at hs hr
    exact .inl (any_eq_true.2 ⟨old, hold, and_eq_true_iff.2 ⟨hs, hr⟩⟩)

end

/-! ## Isolation -/

section
variable {jsonValid : String → Bool} {view : View α} {own : UUID} {w v : World}

theorem SnapshotKind.controllerSave_cases (k : SnapshotKind σ) (own sessionID : UUID)
    (snapshot : Option σ) (now : Nat) :
    (∃ err, ∀ rows, k.controllerSave own sessionID snapshot now rows = .error err) ∨
      ∃ s, snapshot = some s ∧ ∀ rows,
        k.controllerSave own sessionID snapshot now rows = .ok (k.insert rows (k.stamp now s)) := by
  unfold SnapshotKind.controllerSave SnapshotKind.save
  cases assertSession own sessionID with
  | error err => exact .inl ⟨err, fun _ => rfl⟩
  | ok _ =>
    cases snapshot with
    | none => exact .inl ⟨_, fun _ => rfl⟩
    | some s =>
      dsimp only
      cases k.checkSave s with
      | error err => exact .inl ⟨err, fun _ => rfl⟩
      | ok _ => exact .inr ⟨s, rfl, fun _ => rfl⟩

/-- Two worlds a session cannot tell apart. -/
structure Isolated (jsonValid : String → Bool) (view : View α) (own : UUID) (w v : World) :
    Prop where
  sessions : w.db.sessions = v.db.sessions
  turns : turnsOf own w.db.turns = turnsOf own v.db.turns
  context : TableRel (contextKind jsonValid) view.context own w.db.contextSnapshots
    v.db.contextSnapshots w.contextSaved
  prompt : TableRel promptKind view.prompt own w.db.promptSnapshots v.db.promptSnapshots
    w.promptSaved
  contextRefs : ∀ hash, (contextKind jsonValid).referenced w.db.turns own hash = true →
    (contextKind jsonValid).SavedBy own w.contextSaved hash
  promptRefs : ∀ hash, promptKind.referenced w.db.turns own hash = true →
    promptKind.SavedBy own w.promptSaved hash

theorem controllerGet_isolated {db db' : Tables} (hsessions : db.sessions = db'.sessions)
    (hts : turnsOf own db.turns = turnsOf own db'.turns)
    (hrows : TableRel k see own rows rows' saved)
    (hrefs : ∀ hash, k.referenced db.turns own hash = true → k.SavedBy own saved hash)
    (sessionID : UUID) (hash : String) :
    (k.controllerGet own sessionID db rows hash).map see =
      (k.controllerGet own sessionID db' rows' hash).map see := by
  unfold SnapshotKind.controllerGet SnapshotKind.get assertSession
  by_cases hs : sessionID = own
  · subst hs
    have href : k.referenced db'.turns sessionID hash = k.referenced db.turns sessionID hash := by
      rw [k.referenced_turnsOf db.turns, k.referenced_turnsOf db'.turns, hts]
    rw [if_pos rfl, hsessions, href]
    cases db'.sessions.contains sessionID with
    | false => rfl
    | true =>
      cases hr : k.referenced db.turns sessionID hash with
      | false => rfl
      | true =>
        obtain ⟨row', hrow'⟩ := hrows.kept hash (hrefs hash hr)
        obtain ⟨row, hrow, hview⟩ := hrows.agree hash row' hrow'
        rw [hrow, hrow']
        exact congrArg Except.ok hview
  · rw [if_neg hs]
    rfl

theorem finishTurn_eq (db : Tables) (sessionID turnID : UUID)
    (contextHash promptHash : Option String) :
    db.finishTurn jsonValid sessionID turnID contextHash promptHash =
      bif db.turns.any (·.matches sessionID turnID) then
        bif (contextKind jsonValid).keyExists db.contextSnapshots contextHash &&
            promptKind.keyExists db.promptSnapshots promptHash then
          .ok { db with turns := finished sessionID turnID contextHash promptHash db.turns }
        else .error ⟨.storage, "finish turn"⟩
      else .error ⟨.invalidState, "turn is no longer running"⟩ := by
  unfold Tables.finishTurn
  cases db.turns.any (·.matches sessionID turnID) with
  | false => rfl
  | true =>
    cases (contextKind jsonValid).keyExists db.contextSnapshots contextHash with
    | false => rfl
    | true =>
      cases promptKind.keyExists db.promptSnapshots promptHash with
      | false | true => rfl

theorem TableRel.keyExists (h : TableRel k see own rows rows' saved)
    (hsv : ∀ hash ∈ given, k.SavedBy own saved hash) :
    k.keyExists rows given = true ∧ k.keyExists rows' given = true := by
  cases given with
  | none => exact ⟨rfl, rfl⟩
  | some hash =>
    obtain ⟨row', hrow'⟩ := h.kept hash (hsv hash rfl)
    obtain ⟨row, hrow, -⟩ := h.agree hash row' hrow'
    refine ⟨?_, ?_⟩
    · show (k.find rows hash).isSome = true
      rw [hrow]
      rfl
    · show (k.find rows' hash).isSome = true
      rw [hrow']
      rfl

theorem assertSession_self (own : UUID) : assertSession own own = .ok () := if_pos rfl

theorem Isolated.setTurns (h : Isolated jsonValid view own w v) {turns : List Turn}
    (hts : turnsOf own turns = turnsOf own w.db.turns)
    (hw' : w' = { w with db := { w.db with turns } }) : Isolated jsonValid view own w' v := by
  subst hw'
  refine ⟨h.sessions, hts.trans h.turns, h.context, h.prompt, fun hash hr => ?_,
    fun hash hr => ?_⟩
  · rw [SnapshotKind.referenced_turnsOf, hts, ← SnapshotKind.referenced_turnsOf] at hr
    exact h.contextRefs hash hr
  · rw [SnapshotKind.referenced_turnsOf, hts, ← SnapshotKind.referenced_turnsOf] at hr
    exact h.promptRefs hash hr

theorem View.observe_read (view : View α)
    (hsee : ∀ row, view.observe (.ok (wrap row)) = .ok (some (see row))) {x y : Except Err σ}
    (h : x.map see = y.map see) : view.observe (x.map wrap) = view.observe (y.map wrap) := by
  cases x with
  | error err =>
    cases y with
    | error err' =>
      cases h
      rfl
    | ok row' => cases h
  | ok row =>
    cases y with
    | error err' => cases h
    | ok row' =>
      show view.observe (.ok (wrap row)) = view.observe (.ok (wrap row'))
      rw [hsee, hsee, Except.ok.inj h]

theorem Isolated.other (h : Isolated jsonValid view own w v) (hi : i ≠ own) (call : Call) :
    Isolated jsonValid view own (step jsonValid w i call).2 v := by
  cases call with
  | saveContextSnapshot sessionID snapshot now =>
    rcases (contextKind jsonValid).controllerSave_cases i sessionID snapshot now with
      ⟨err, herr⟩ | ⟨s, rfl, hok⟩
    · simp only [step, herr]
      exact h
    · simp only [step, hok]
      exact ⟨h.sessions, h.turns, h.context.otherSave hi _, h.prompt,
        fun hash hr => (h.contextRefs hash hr).append _, h.promptRefs⟩
  | savePromptSnapshot sessionID snapshot now =>
    rcases promptKind.controllerSave_cases i sessionID snapshot now with
      ⟨err, herr⟩ | ⟨s, rfl, hok⟩
    · simp only [step, herr]
      exact h
    · simp only [step, hok]
      exact ⟨h.sessions, h.turns, h.context, h.prompt.otherSave hi _, h.contextRefs,
        fun hash hr => (h.promptRefs hash hr).append _⟩
  | getContextSnapshot | getPromptSnapshot => exact h
  | finishTurn sessionID turnID contextHash promptHash =>
    by_cases hs : sessionID = i
    · subst hs
      simp only [step, assertSession_self, finishTurn_eq]
      cases w.db.turns.any (·.matches sessionID turnID) with
      | false => exact h
      | true =>
        cases (contextKind jsonValid).keyExists w.db.contextSnapshots contextHash &&
            promptKind.keyExists w.db.promptSnapshots promptHash with
        | false => exact h
        | true => exact h.setTurns (turnsOf_finished_ne hi _) rfl
    · simp only [step, assertSession, if_neg hs]
      exact h

theorem Isolated.own_step (h : Isolated jsonValid view own w v)
    (hfree : Undisputed jsonValid view own w (own, call)) :
    view.observe (step jsonValid w own call).1 = view.observe (step jsonValid v own call).1 ∧
      Isolated jsonValid view own (step jsonValid w own call).2 (step jsonValid v own call).2 := by
  cases call with
  | saveContextSnapshot sessionID snapshot now =>
    rcases (contextKind jsonValid).controllerSave_cases own sessionID snapshot now with
      ⟨err, herr⟩ | ⟨s, rfl, hok⟩
    · simp only [step, herr]
      exact ⟨trivial, h⟩
    · simp only [step, hok]
      exact ⟨trivial, h.sessions, h.turns, h.context.ownSave (hfree rfl), h.prompt,
        fun hash hr => (h.contextRefs hash hr).append _, h.promptRefs⟩
  | savePromptSnapshot sessionID snapshot now =>
    rcases promptKind.controllerSave_cases own sessionID snapshot now with
      ⟨err, herr⟩ | ⟨s, rfl, hok⟩
    · simp only [step, herr]
      exact ⟨trivial, h⟩
    · simp only [step, hok]
      exact ⟨trivial, h.sessions, h.turns, h.context, h.prompt.ownSave (hfree rfl), h.contextRefs,
        fun hash hr => (h.promptRefs hash hr).append _⟩
  | getContextSnapshot sessionID hash =>
    refine ⟨?_, h⟩
    have hget := controllerGet_isolated h.sessions h.turns h.context h.contextRefs sessionID hash
    exact view.observe_read (fun _ => rfl) hget
  | getPromptSnapshot sessionID hash =>
    refine ⟨?_, h⟩
    have hget := controllerGet_isolated h.sessions h.turns h.prompt h.promptRefs sessionID hash
    exact view.observe_read (fun _ => rfl) hget
  | finishTurn sessionID turnID contextHash promptHash =>
    by_cases hs : sessionID = own
    · subst hs
      obtain ⟨hctx, hpt⟩ := hfree rfl
      obtain ⟨hck, hck'⟩ := h.context.keyExists hctx
      obtain ⟨hpk, hpk'⟩ := h.prompt.keyExists hpt
      have hany : w.db.turns.any (·.matches sessionID turnID) =
          v.db.turns.any (·.matches sessionID turnID) := by
        rw [any_turnsOf _ (fun _ => Turn.sessionID_of_matches) w.db.turns,
          any_turnsOf _ (fun _ => Turn.sessionID_of_matches) v.db.turns, h.turns]
      simp only [step, assertSession_self, finishTurn_eq, hany, hck, hck', hpk, hpk', Bool.and_self]
      cases v.db.turns.any (·.matches sessionID turnID) with
      | false => exact ⟨rfl, h⟩
      | true =>
        refine ⟨rfl, h.sessions, ?_, h.context, h.prompt, ?_, ?_⟩
        · show turnsOf _ (finished ..) = turnsOf _ (finished ..)
          rw [turnsOf_finished, turnsOf_finished, h.turns]
        · intro hash hr
          rcases (contextKind jsonValid).referenced_finished contextHash
            (fun turn ht => or_eq_some_cases ht) hr with hr | hg
          · exact h.contextRefs hash hr
          · exact hctx hash hg
        · intro hash hr
          rcases promptKind.referenced_finished promptHash
            (fun turn ht => or_eq_some_cases ht) hr with hr | hg
          · exact h.promptRefs hash hr
          · exact hpt hash hg
    · simp only [step, assertSession, if_neg hs]
      exact ⟨rfl, h⟩

/-- Nothing is saved yet. -/
structure World.New (w : World) : Prop where
  contextSnapshots : w.db.contextSnapshots = []
  promptSnapshots : w.db.promptSnapshots = []
  contextSaved : w.contextSaved = []
  promptSaved : w.promptSaved = []
  turns : ∀ turn ∈ w.db.turns, turn.contextSnapshotHash = none ∧ turn.promptSnapshotHash = none

theorem Isolated.new (h : w.New) : Isolated jsonValid view own w w := by
  refine ⟨rfl, rfl, ?_, ?_, ?_, ?_⟩
  · rw [h.contextSnapshots, h.contextSaved]
    exact .empty
  · rw [h.promptSnapshots, h.promptSaved]
    exact .empty
  · intro hash hr
    obtain ⟨turn, hturn, hown⟩ := any_eq_true.1 hr
    have hnone : (contextKind jsonValid).reference turn = none := (h.turns turn hturn).1
    rw [hnone, and_eq_true_iff] at hown
    cases hown.2
  · intro hash hr
    obtain ⟨turn, hturn, hown⟩ := any_eq_true.1 hr
    have hnone : promptKind.reference turn = none := (h.turns turn hturn).2
    rw [hnone, and_eq_true_iff] at hown
    cases hown.2

/-- What the session reads under a hash is what it saved under it. -/
def SnapshotKind.ReadsOwn (k : SnapshotKind σ) (see : σ → α) (own : UUID) (db : Tables)
    (rows : List σ) (saved : List (UUID × σ)) : Prop :=
  ∀ hash row, k.get db.sessions db.turns rows own hash = .ok row →
    ∃ snapshot, (own, snapshot) ∈ saved ∧ k.hash snapshot = hash ∧ see row = see snapshot

theorem SnapshotKind.of_get {k : SnapshotKind σ} {hash : String}
    (h : k.get sessions turns rows own hash = .ok row) :
    k.referenced turns own hash = true ∧ k.find rows hash = some row := by
  unfold SnapshotKind.get at h
  cases hs : sessions.contains own with
  | false =>
    rw [hs] at h
    cases h
  | true =>
    cases hr : k.referenced turns own hash with
    | false =>
      rw [hs, hr] at h
      cases h
    | true =>
      rw [hs, hr] at h
      cases hf : k.find rows hash with
      | none =>
        rw [hf] at h
        cases h
      | some found =>
        rw [hf] at h
        cases h
        exact ⟨rfl, rfl⟩

theorem TableRel.readsOwn {db : Tables} (h : TableRel k see own rows rows' saved)
    (hrefs : ∀ hash, k.referenced db.turns own hash = true → k.SavedBy own saved hash) :
    k.ReadsOwn see own db rows saved := by
  intro hash row hget
  obtain ⟨href, hfind⟩ := SnapshotKind.of_get hget
  obtain ⟨row', hrow'⟩ := h.kept hash (hrefs hash href)
  obtain ⟨found, hfd, hview⟩ := h.agree hash row' hrow'
  rw [hfind] at hfd
  cases hfd
  exact ⟨row', h.mine hash row' hrow', SnapshotKind.hash_of_find hrow', hview⟩

def OwnReads (jsonValid : String → Bool) (view : View α) (own : UUID) (w : World) : Prop :=
  (contextKind jsonValid).ReadsOwn view.context own w.db w.db.contextSnapshots w.contextSaved ∧
    promptKind.ReadsOwn view.prompt own w.db w.db.promptSnapshots w.promptSaved

/-- **Snapshots are isolated between sessions while no hash is disputed.** In every run from a store
without snapshots whose steps meet the condition for a session, what the session reads is in every
state what it saved itself; and two such runs in which the session makes the same calls, whatever
the others send, give it the same answers. -/
theorem snapshots_isolated (jsonValid : String → Bool) (view : View α) (own : UUID) (w : World)
    (hw : w.New) (calls calls' : List (UUID × Call)) (hown : purge own calls = purge own calls')
    (h : Along (next (step jsonValid)) (Undisputed jsonValid view own) w calls)
    (h' : Along (next (step jsonValid)) (Undisputed jsonValid view own) w calls') :
    Always (next (step jsonValid)) (OwnReads jsonValid view own) w calls ∧
      (answers (step jsonValid) own w calls).map view.observe =
        (answers (step jsonValid) own w calls').map view.observe := by
  have hpurge : ∀ {calls : List (UUID × Call)},
      Along (next (step jsonValid)) (Undisputed jsonValid view own) w calls →
      (answers (step jsonValid) own w calls).map view.observe =
        (answers (step jsonValid) own w (purge own calls)).map view.observe := fun hcalls =>
    unwinding (R := Isolated jsonValid view own) (fun _ _ _ hr hc => hr.own_step hc)
      (fun _ _ _ a hi hr => hr.other hi a) (Isolated.new hw) hcalls
  refine ⟨?_, ?_⟩
  · have hrun : Always (next (step jsonValid)) (fun u => ∃ v, Isolated jsonValid view own u v) w
        calls := by
      refine always_of_along ?_ ⟨w, Isolated.new hw⟩ h
      rintro u ⟨i, a⟩ u' ⟨v, hv⟩ hc hu'
      cases hu'
      by_cases hi : i = own
      · subst hi
        exact ⟨_, (hv.own_step hc).2⟩
      · exact ⟨v, hv.other hi a⟩
    refine hrun.mono ?_
    rintro u ⟨v, hv⟩
    exact ⟨hv.context.readsOwn hv.contextRefs, hv.prompt.readsOwn hv.promptRefs⟩
  · rw [hpurge h, hpurge h', hown]

end

/-! ## A disputed hash -/

def contentView : View (String × String) where
  context row := (row.manifestJSON, row.resolvedContent)
  prompt row := (row.effectivePrompt, "")

def twoSessions : World := { db := { sessions := [1, 2], turns := [{ id := 10, sessionID := 1 }] } }

def contextOf (hash content : String) : ContextSnapshot :=
  { hash, manifestJSON := "[]", resolvedContent := content }

/-- What the first session does: it saves a context, names it in its turn and reads it. -/
def firstSession : List (UUID × Call) :=
  [(1, .saveContextSnapshot 1 (some (contextOf "h" "mine")) 5),
    (1, .finishTurn 1 10 (some "h") none), (1, .getContextSnapshot 1 "h")]

def sentBefore (content : String) : List (UUID × Call) :=
  (2, .saveContextSnapshot 2 (some (contextOf "h" content)) 4) :: firstSession

theorem twoSessions_new : twoSessions.New where
  contextSnapshots := rfl
  promptSnapshots := rfl
  contextSaved := rfl
  promptSaved := rfl
  turns := by decide

/-- The first session's save succeeds, and it reads what the second sent; without the second
session's call it reads its own. -/
theorem forged_snapshot_read :
    twoSessions.New ∧ purge 1 (sentBefore "forged") = purge 1 firstSession ∧
    ((answers (step fun _ => true) 1 twoSessions (sentBefore "forged")).map contentView.observe).map
      Except.toOption = [some none, some none, some (some ("[]", "forged"))] ∧
    ((answers (step fun _ => true) 1 twoSessions firstSession).map contentView.observe).map
      Except.toOption = [some none, some none, some (some ("[]", "mine"))] ∧
    ((exec (next (step fun _ => true)) twoSessions (sentBefore "forged")).map fun w =>
      (w.contextSaved.filter (·.1 == 1)).map fun p => contentView.context p.2) =
        some [("[]", "mine")] := by
  refine ⟨twoSessions_new, by rfl, by decide +kernel, by decide +kernel, by decide +kernel⟩

section
variable [DecidableEq α]

instance (k : SnapshotKind σ) (own : UUID) (saved : List (UUID × σ)) (hash : String) :
    Decidable (k.SavedBy own saved hash) := inferInstanceAs (Decidable (∃ p ∈ saved, _))

instance (k : SnapshotKind σ) (see : σ → α) (own : UUID) (rows : List σ)
    (saved : List (UUID × σ)) (snapshot : σ) :
    Decidable (k.FreeFor see own rows saved snapshot) :=
  inferInstanceAs (Decidable (∀ row ∈ k.find rows (k.hash snapshot), _))

instance (jsonValid : String → Bool) (view : View α) (own : UUID) (w : World) :
    ∀ call, Decidable (Undisputed jsonValid view own w call)
  | (_, .saveContextSnapshot _ (some _) _) => inferInstanceAs (Decidable (_ → _))
  | (_, .savePromptSnapshot _ (some _) _) => inferInstanceAs (Decidable (_ → _))
  | (_, .finishTurn _ _ contextHash promptHash) =>
    inferInstanceAs (Decidable (_ → (∀ hash ∈ contextHash, _) ∧ ∀ hash ∈ promptHash, _))
  | (_, .saveContextSnapshot _ none _) | (_, .savePromptSnapshot _ none _)
  | (_, .getContextSnapshot _ _) | (_, .getPromptSnapshot _ _) => .isTrue trivial

end

/-- Sharing the same content is no dispute. -/
theorem snapshots_isolated_shared :
    Along (next (step fun _ => true)) (Undisputed (fun _ => true) contentView 1) twoSessions
      (sentBefore "mine") ∧
    (answers (step fun _ => true) 1 twoSessions (sentBefore "mine")).map contentView.observe =
      (answers (step fun _ => true) 1 twoSessions firstSession).map contentView.observe := by
  have hshared : Along (next (step fun _ => true)) (Undisputed (fun _ => true) contentView 1)
      twoSessions (sentBefore "mine") := by decide +kernel
  have halone : Along (next (step fun _ => true)) (Undisputed (fun _ => true) contentView 1)
      twoSessions firstSession := by decide +kernel
  have hown : purge 1 (sentBefore "mine") = purge 1 firstSession := rfl
  exact ⟨hshared, (snapshots_isolated _ contentView 1 twoSessions twoSessions_new _ _ hown hshared
    halone).2⟩

end Peen.Snapshots
