import Peen.Tools.FileTools

/-!
# The ledger and the history

What matters of the ledger is the hash it has for a real path (`ToolState.hashAt`): a path that was
only seen has none.
-/

namespace Peen.Tools

open ToolState Files

/-! ## Hashes -/

def Observation.content? (o : Observation) : Option String :=
  if o.hasHash then some o.hash else none

/-- The hash the ledger has for a real path. -/
def ToolState.hashAt (s : ToolState) (l : Loc) : Option String :=
  (s.observed.find? (·.1 == l)).bind fun entry => entry.2.content?

section

variable {s : ToolState}

theorem find_replaced (observed : List (Path × Observation)) (key : Path) (o : Observation) :
    ((key, o) :: observed.filter (·.1 != key)).find? (·.1 == l) =
      if l = key then some (key, o) else observed.find? (·.1 == l) := by
  by_cases hl : l = key
  · rw [if_pos hl, hl]
    simp
  · have hne : (key == l) = false := beq_eq_false_iff_ne.2 fun h => hl h.symm
    have hfind (entry : Path × Observation) :
        decide ((entry.1 != key) = true ∧ (entry.1 == l) = true) = (entry.1 == l) := by
      by_cases hent : entry.1 = l
      · simp [hent, hl]
      · simp [hent]
    rw [if_neg hl, List.find?_cons, hne]
    simp only [List.find?_filter, hfind]

theorem hashAt_observeContent (hash : String) :
    (s.observeContent path hash).hashAt =
      Function.update s.hashAt (observationKey s.files path) (some hash) := by
  funext l
  unfold hashAt observeContent
  rw [find_replaced, Function.update_apply]
  split <;> rfl

theorem hashAt_recorded {files : Tree} (hf : files.resolve path = .ok f) (hash : String) :
    (({ s with files := files }).observeContent path hash).hashAt =
      Function.update s.hashAt f (some hash) := by
  rw [hashAt_observeContent]
  show Function.update s.hashAt (observationKey files path) _ = _
  rw [observationKey, hf]

theorem hashAt_observe : (s.observe path).hashAt = s.hashAt := by
  funext l
  unfold observe
  split
  · rfl
  next hseen =>
    unfold hashAt
    rw [find_replaced]
    split
    next hl =>
      -- what was there before had no hash either
      subst hl
      unfold seen at hseen
      cases hf : s.observed.find? (·.1 == observationKey s.files path) with
      | none => rfl
      | some entry =>
        rw [hf] at hseen
        have hno : entry.2.hasHash = false := by simpa using hseen
        simp [Observation.content?, hno]
    next => rfl

theorem hashAt_foldl_observe (paths : List Path) : (paths.foldl observe s).hashAt = s.hashAt := by
  induction paths generalizing s with
  | nil => rfl
  | cons path paths ih => exact ih.trans hashAt_observe

theorem of_requireObservedContent (h : requireObservedContent e s path content = .ok u)
    (hl : s.files.resolve path = .ok l) : s.hashAt l = some (e.hashBytes content) := by
  have hkey : observationKey s.files path = l := by rw [observationKey, hl]
  unfold requireObservedContent seen at h
  rw [hkey] at h
  unfold hashAt
  cases hf : s.observed.find? (·.1 == l) with
  | none =>
    rw [hf] at h
    cases h
  | some entry =>
    rw [hf] at h
    simp only [Option.map_some] at h
    split at h
    · cases h
    next hhas =>
      split at h
      · cases h
      next hhash =>
        have hhas : entry.2.hasHash = true := by simpa using hhas
        have hhash : entry.2.hash = e.hashBytes content := not_not.1 hhash
        simp [Observation.content?, hhas, hhash]

end

/-! ## Calls in order -/

/-- The call's history explains the ledger it leaves. -/
def Follows (e : Executor) : (Loc → Option String) → List FileEvent → (Loc → Option String) → Prop
  | ledger, [], ledger' => ledger' = ledger
  | ledger, .content l bytes :: events, ledger' =>
    Follows e (Function.update ledger l (some (e.hashBytes bytes))) events ledger'
  | ledger, .took l bytes :: events, ledger' =>
    ledger l = some (e.hashBytes bytes) ∧ Follows e ledger events ledger'

/-- A taken file hashed to what the executor had last read or written at its real path. -/
def Taken.AsKnown (e : Executor) (t : Taken) : Prop :=
  ∃ content, t.known = some content ∧ e.hashBytes t.bytes = e.hashBytes content

/-- The ledger has the hashes of what was last read or written, and every file that was taken hashed
to it. -/
structure Sound (e : Executor) (ledger : Loc → Option String) (h : History) : Prop where
  hashes : ∀ l hash, ledger l = some hash →
    ∃ content, h.knownAt l = some content ∧ hash = e.hashBytes content
  taken : ∀ t ∈ h.taken, t.AsKnown e

section

variable {h : History}

theorem Follows.append (h1 : Follows e ledger events ledger')
    (h2 : Follows e ledger' events' ledger'') : Follows e ledger (events ++ events') ledger'' := by
  induction events generalizing ledger with
  | nil =>
    cases h1
    exact h2
  | cons event events ih =>
    cases event with
    | content => exact ih h1
    | took => exact ⟨h1.1, ih h1.2⟩

theorem knownAt_add_content (k : Loc) : (h.add (.content l bytes)).knownAt k =
    if k = l then some bytes else h.knownAt k := by
  unfold History.knownAt History.add
  by_cases hk : k = l
  · simp [hk]
  · have hne : (l == k) = false := beq_eq_false_iff_ne.2 fun h => hk h.symm
    simp only [List.find?_cons, hne, if_neg hk]

theorem Sound.content (hs : Sound e ledger h) :
    Sound e (Function.update ledger l (some (e.hashBytes bytes))) (h.add (.content l bytes)) := by
  refine ⟨fun k hash hk => ?_, hs.taken⟩
  rw [Function.update_apply] at hk
  rw [knownAt_add_content]
  split at hk
  next hl =>
    cases hk
    exact ⟨bytes, if_pos hl, rfl⟩
  next hl =>
    rw [if_neg hl]
    exact hs.hashes k hash hk

theorem Sound.took (hs : Sound e ledger h) (hl : ledger l = some (e.hashBytes bytes)) :
    Sound e ledger (h.add (.took l bytes)) := by
  refine ⟨hs.hashes, fun t ht => ?_⟩
  rcases List.mem_append.1 ht with ht | ht
  · exact hs.taken t ht
  · rw [List.mem_singleton.1 ht]
    exact hs.hashes l _ hl

/-- **Calls in order keep the history sound.** -/
theorem Sound.follows (hs : Sound e ledger h) (hf : Follows e ledger events ledger') :
    Sound e ledger' (events.foldl History.add h) := by
  induction events generalizing ledger h with
  | nil =>
    cases hf
    exact hs
  | cons event events ih =>
    cases event with
    | content => exact ih hs.content hf
    | took => exact ih (hs.took hf.1) hf.2

end

end Peen.Tools
