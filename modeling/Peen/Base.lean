import Mathlib.Algebra.Ring.Nat

/-!
# Identifiers and errors

What every package shares: ids, errors by their sentinel and innermost message, texts as characters
and as bytes, and what the checks of a successful call found.
-/

namespace Peen

/-- Only equality and the nil value matter. -/
abbrev UUID := Nat

def UUID.nil : UUID := 0

/-- The sentinels an error is matched against with `errors.Is`, errors of the storage, of
`encoding/json` and of a socket, and a panic. -/
inductive ErrKind where
  | validationFailed
  | notFound
  | conflict
  | permissionDenied
  | invalidState
  | alreadyExists
  | requiredFieldNotSet
  | executionInboxPending
  | sessionBusy
  | storage
  | encoding
  | compactionUnavailable
  | compactionPlanMismatch
  | compactionInsufficient
  | compactionEmptySummary
  | connection
  | panicked
  deriving DecidableEq

/-- An error: its sentinel and the text it was first wrapped with. -/
structure Err where
  kind : ErrKind
  message : String
  deriving DecidableEq

/-! ## Texts -/

/-- A text as its characters. -/
abbrev Text := List Char

/-- `unicode.IsSpace`. -/
def isSpace (c : Char) : Bool :=
  [0x09, 0x0A, 0x0B, 0x0C, 0x0D, 0x20, 0x85, 0xA0, 0x1680, 0x2028, 0x2029, 0x202F, 0x205F,
    0x3000].contains c.toNat || (0x2000 ≤ c.toNat && c.toNat ≤ 0x200A)

/-- `strings.TrimSpace` leaves nothing of the text. -/
def isBlank (s : String) : Bool := s.toList.all isSpace

/-- `strings.TrimSpace`, and `bytes.TrimSpace` of a text. -/
def trimSpace (s : Text) : Text := ((s.dropWhile isSpace).reverse.dropWhile isSpace).reverse

abbrev Bytes := List UInt8

def newline : UInt8 := 0x0A

/-- The bytes of a text of ASCII characters. -/
def ascii (s : String) : Bytes := s.toList.map fun c => UInt8.ofNat c.toNat

/-! ## Checks -/

/-- A sequence of fallible steps succeeds exactly if each of them does. -/
theorem bind_eq_ok {ε α β : Type} {x : Except ε α} {f : α → Except ε β} {b : β} :
    (x >>= f) = .ok b ↔ ∃ a, x = .ok a ∧ f a = .ok b := by
  cases x with
  | error e => exact ⟨nofun, fun ⟨_, h, _⟩ => (nomatch h)⟩
  | ok a =>
    refine ⟨fun h => ⟨a, rfl, h⟩, ?_⟩
    intro h
    obtain ⟨a', ha, h⟩ := h
    cases ha
    exact h

theorem of_bind {ε α β : Type} {x : Except ε α} {f : α → Except ε β} {b : β}
    (h : (x >>= f) = .ok b) : ∃ a, x = .ok a ∧ f a = .ok b :=
  bind_eq_ok.1 h

section
variable {ε α : Type} {c : Prop} {_ : Decidable c} {e : ε} {x : Except ε α} {o : Option α} {a : α}

theorem of_check (h : (if c then .error e else x) = .ok a) : ¬ c ∧ x = .ok a := by
  split at h
  · cases h
  · exact ⟨‹_›, h⟩

theorem of_require (h : (if c then x else .error e) = .ok a) : c ∧ x = .ok a := by
  split at h
  · exact ⟨‹_›, h⟩
  · cases h

theorem of_guard (h : (if c then o else none) = some a) : c ∧ o = some a := by
  split at h
  · exact ⟨‹_›, h⟩
  · cases h

theorem of_unless (h : (if c then none else o) = some a) : ¬ c ∧ o = some a := by
  split at h
  · cases h
  · exact ⟨‹_›, h⟩

end

theorem map_eq_ok {ε α β : Type} {x : Except ε α} {f : α → β} {b : β} :
    x.map f = .ok b ↔ ∃ a, x = .ok a ∧ f a = b := by
  cases x with
  | error e => exact ⟨nofun, fun ⟨_, h, _⟩ => (nomatch h)⟩
  | ok a => simp [Except.map]

theorem mem_snoc {α : Type} {rows : List α} {row r : α} : r ∈ rows ++ [row] ↔ r ∈ rows ∨ r = row := by
  simp

/-- A row with a key of its own leaves the keys of a table distinct. -/
theorem nodup_snoc {α β : Type} {rows : List α} {key : α → β} {row : α} (h : (rows.map key).Nodup)
    (hne : ∀ r ∈ rows, key r ≠ key row) : ((rows ++ [row]).map key).Nodup := by
  rw [List.map_append, List.nodup_append]
  refine ⟨h, by simp, fun k hk k' hk' heq => ?_⟩
  obtain ⟨r, hr, rfl⟩ := List.mem_map.1 hk
  exact hne r hr (heq.trans (List.mem_singleton.1 hk'))

end Peen
