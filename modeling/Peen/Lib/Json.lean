import Mathlib.Data.List.Basic

/-!
# JSON texts

The grammar of JSON over bytes: which byte strings are values, and which are documents.
-/

namespace Json

open List

def isSpace (b : UInt8) : Bool := b == 0x20 || b == 0x09 || b == 0x0A || b == 0x0D

def Space (s : List UInt8) : Prop := ∀ b ∈ s, isSpace b = true

theorem Space.nil : Space [] := by
  intro b hb
  cases hb

/-! ## Numbers and words -/

def isDigit (b : UInt8) : Bool := 0x30 ≤ b && b ≤ 0x39

section
variable (s : List UInt8)

def Digits : Prop := s ≠ [] ∧ ∀ b ∈ s, isDigit b = true

/-- An integer without its sign: a zero alone, or digits that start with another one. -/
def Integer : Prop := Digits s ∧ (s.head? = some 0x30 → s = [0x30])

def Fraction : Prop := s = [] ∨ ∃ ds, Digits ds ∧ s = 0x2E :: ds

def Exponent : Prop :=
  s = [] ∨ ∃ e sign ds, (e = 0x65 ∨ e = 0x45) ∧ (sign = [] ∨ sign = [0x2B] ∨ sign = [0x2D]) ∧
    Digits ds ∧ s = e :: sign ++ ds

def Number : Prop :=
  ∃ sign int frac exp, (sign = [] ∨ sign = [0x2D]) ∧ Integer int ∧ Fraction frac ∧ Exponent exp ∧
    s = sign ++ int ++ frac ++ exp

def Primitive : Prop :=
  s = [0x6E, 0x75, 0x6C, 0x6C] ∨ s = [0x74, 0x72, 0x75, 0x65] ∨ s = [0x66, 0x61, 0x6C, 0x73, 0x65] ∨
    Number s

end

/-! ## Strings -/

def isHex (b : UInt8) : Bool :=
  isDigit b || (0x41 ≤ b && b ≤ 0x46) || (0x61 ≤ b && b ≤ 0x66)

def isEscape (b : UInt8) : Bool :=
  b == 0x22 || b == 0x5C || b == 0x2F || b == 0x62 || b == 0x66 || b == 0x6E || b == 0x72 || b == 0x74

/-- The characters of a string. Any byte from the space on passes. -/
inductive Chars : List UInt8 → Prop where
  | nil : Chars []
  | char {b : UInt8} {s : List UInt8} : 0x20 ≤ b → b ≠ 0x22 → b ≠ 0x5C → Chars s → Chars (b :: s)
  | escape {e : UInt8} {s : List UInt8} : isEscape e = true → Chars s → Chars (0x5C :: e :: s)
  | unicode {a b c d : UInt8} {s : List UInt8} : isHex a = true → isHex b = true → isHex c = true →
      isHex d = true → Chars s → Chars (0x5C :: 0x75 :: a :: b :: c :: d :: s)

def StringLiteral (s : List UInt8) : Prop := ∃ cs, Chars cs ∧ s = 0x22 :: cs ++ [0x22]

/-! ## Values -/

inductive Rule where
  | value
  | elements
  | members

/-- The byte strings each part derives: a value, the elements of an array that has some, the
members of an object that has some. -/
inductive Derives : Rule → List UInt8 → Prop where
  | primitive {s : List UInt8} : Primitive s → Derives .value s
  | string {s : List UInt8} : StringLiteral s → Derives .value s
  | emptyObject {w : List UInt8} : Space w → Derives .value (0x7B :: w ++ [0x7D])
  | object {ms : List UInt8} : Derives .members ms → Derives .value (0x7B :: ms ++ [0x7D])
  | emptyArray {w : List UInt8} : Space w → Derives .value (0x5B :: w ++ [0x5D])
  | array {es : List UInt8} : Derives .elements es → Derives .value (0x5B :: es ++ [0x5D])
  | lastElement {w v w' : List UInt8} : Space w → Derives .value v → Space w' →
      Derives .elements (w ++ v ++ w')
  | element {w v w' es : List UInt8} : Space w → Derives .value v → Space w' →
      Derives .elements es → Derives .elements (w ++ v ++ w' ++ 0x2C :: es)
  | lastMember {w k w₁ w₂ v w' : List UInt8} : Space w → StringLiteral k → Space w₁ → Space w₂ →
      Derives .value v → Space w' →
      Derives .members (w ++ (k ++ w₁ ++ 0x3A :: w₂) ++ v ++ w')
  | member {w k w₁ w₂ v w' ms : List UInt8} : Space w → StringLiteral k → Space w₁ → Space w₂ →
      Derives .value v → Space w' → Derives .members ms →
      Derives .members (w ++ (k ++ w₁ ++ 0x3A :: w₂) ++ v ++ w' ++ 0x2C :: ms)

def Value (s : List UInt8) : Prop := Derives .value s

/-- A value with white space around it. -/
def Document (s : List UInt8) : Prop :=
  ∃ w v w', Space w ∧ Value v ∧ Space w' ∧ s = w ++ v ++ w'

variable {s : List UInt8}

theorem Value.document (h : Value s) : Document s :=
  ⟨[], s, [], .nil, h, .nil, by simp⟩

open Classical in
noncomputable def accepts (s : List UInt8) : Bool := decide (Document s)

open Classical in
@[simp] theorem accepts_iff : accepts s = true ↔ Document s := by
  rw [accepts, decide_eq_true_iff]

/-! ## The bytes of a primitive -/

def isPlain (b : UInt8) : Bool :=
  isDigit b || (0x61 ≤ b && b ≤ 0x7A) || b == 0x45 || b == 0x2B || b == 0x2D || b == 0x2E

theorem isPlain_of_isDigit (h : isDigit b = true) : isPlain b = true := by
  simp [isPlain, h]

theorem Integer.plain (h : Integer s) : ∀ b ∈ s, isPlain b = true :=
  fun b hb => isPlain_of_isDigit (h.1.2 b hb)

theorem Fraction.plain (h : Fraction s) : ∀ b ∈ s, isPlain b = true := by
  rcases h with rfl | ⟨ds, hds, rfl⟩
  · intro b hb
    cases hb
  · intro b hb
    rcases mem_cons.1 hb with rfl | hb
    · rfl
    · exact isPlain_of_isDigit (hds.2 b hb)

theorem Exponent.plain (h : Exponent s) : ∀ b ∈ s, isPlain b = true := by
  rcases h with rfl | ⟨e, sign, ds, he, hsign, hds, rfl⟩
  · intro b hb
    cases hb
  · intro b hb
    rcases mem_append.1 hb with hb | hb
    · rcases mem_cons.1 hb with rfl | hb
      · rcases he with rfl | rfl <;> rfl
      · rcases hsign with rfl | rfl | rfl
        · cases hb
        · rw [mem_singleton.1 hb]; rfl
        · rw [mem_singleton.1 hb]; rfl
    · exact isPlain_of_isDigit (hds.2 b hb)

theorem Number.plain (h : Number s) : ∀ b ∈ s, isPlain b = true := by
  obtain ⟨sign, int, frac, exp, hsign, hint, hfrac, hexp, rfl⟩ := h
  intro b hb
  rcases mem_append.1 hb with hb | hb
  · rcases mem_append.1 hb with hb | hb
    · rcases mem_append.1 hb with hb | hb
      · rcases hsign with rfl | rfl
        · cases hb
        · rw [mem_singleton.1 hb]; rfl
      · exact hint.plain b hb
    · exact hfrac.plain b hb
  · exact hexp.plain b hb

theorem Primitive.plain (h : Primitive s) : ∀ b ∈ s, isPlain b = true := by
  rcases h with rfl | rfl | rfl | h
  · exact all_eq_true.1 rfl
  · exact all_eq_true.1 rfl
  · exact all_eq_true.1 rfl
  · exact h.plain

theorem Primitive.ne_nil (h : Primitive s) : s ≠ [] := by
  rcases h with rfl | rfl | rfl | ⟨sign, int, frac, exp, -, hint, -, -, rfl⟩
  · exact cons_ne_nil _ _
  · exact cons_ne_nil _ _
  · exact cons_ne_nil _ _
  · intro h
    exact hint.1.1 (by simp only [append_eq_nil_iff] at h; exact h.1.1.2)

end Json
