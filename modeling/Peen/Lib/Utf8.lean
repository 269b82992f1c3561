import Mathlib.Data.List.Basic

/-!
# Texts as bytes

UTF-8 as the standard library of Go reads it: a byte that begins no character stands for one
invalid character of width one.
-/

namespace Utf8

open List

def isTail (b : UInt8) : Bool := 0x80 ≤ b && b ≤ 0xBF

/-- How many bytes follow the first byte of a character, and between which bounds the first of
them lies. -/
def tailsAfter (a : UInt8) : Option (Nat × UInt8 × UInt8) :=
  if 0xC2 ≤ a && a ≤ 0xDF then some (1, 0x80, 0xBF)
  else if a = 0xE0 then some (2, 0xA0, 0xBF)
  else if a = 0xED then some (2, 0x80, 0x9F)
  else if 0xE1 ≤ a && a ≤ 0xEF then some (2, 0x80, 0xBF)
  else if a = 0xF0 then some (3, 0x90, 0xBF)
  else if a = 0xF4 then some (3, 0x80, 0x8F)
  else if 0xF1 ≤ a && a ≤ 0xF3 then some (3, 0x80, 0xBF)
  else none

def charLen : List UInt8 → Option Nat
  | [] => none
  | a :: rest =>
    if a < 0x80 then some 1
    else
      match tailsAfter a, rest with
      | some (n, low, high), b :: more =>
        if low ≤ b ∧ b ≤ high ∧ n - 1 ≤ more.length ∧ (more.take (n - 1)).all isTail then
          some (n + 1)
        else none
      | _, _ => none

/-- `utf8.Valid`, with the bytes of a character still to pass over. -/
def validFrom : Nat → List UInt8 → Bool
  | _, [] => true
  | skip + 1, _ :: rest => validFrom skip rest
  | 0, b :: rest =>
    match charLen (b :: rest) with
    | some n => validFrom (n - 1) rest
    | none => false

/-- No byte of the text begins no character. -/
def valid (s : List UInt8) : Bool := validFrom 0 s

/-- `utf8.RuneCount`, with the bytes of a character still to pass over. -/
def runeCountFrom : Nat → List UInt8 → Nat
  | _, [] => 0
  | skip + 1, _ :: rest => runeCountFrom skip rest
  | 0, b :: rest => runeCountFrom ((charLen (b :: rest)).getD 1 - 1) rest + 1

def runeCount (s : List UInt8) : Nat := runeCountFrom 0 s

theorem runeCount_pos (h : s ≠ []) : 0 < runeCount s := by
  cases s with
  | nil => exact absurd rfl h
  | cons => exact Nat.succ_pos _

/-! ## Validity of a concatenation -/

theorem charLen_append {n : Nat} (h : charLen s = some n) (t : List UInt8) :
    0 < n ∧ n ≤ s.length ∧ charLen (s ++ t) = some n := by
  cases s with
  | nil => cases h
  | cons a rest =>
    rw [cons_append]
    unfold charLen at h ⊢
    dsimp only at h ⊢
    split at h
    · next ha =>
      cases h
      rw [if_pos ha]
      exact ⟨Nat.one_pos, Nat.succ_le_succ (Nat.zero_le _), rfl⟩
    · next ha =>
      rw [if_neg ha]
      split at h
      · next m low high b more ht =>
        split at h
        · next hfit =>
          cases h
          obtain ⟨hlow, hhigh, hlen, hall⟩ := hfit
          rw [ht, cons_append]
          refine ⟨Nat.succ_pos _, ?_, if_pos ⟨hlow, hhigh, ?_, ?_⟩⟩
          · rw [length_cons, length_cons]
            omega
          · rw [length_append]
            omega
          · rwa [take_append_of_le_length hlen]
        · cases h
      · cases h

theorem validFrom_append {k : Nat} (hs : validFrom k s = true) (hk : k ≤ s.length)
    (ht : valid t = true) : validFrom k (s ++ t) = true := by
  induction s generalizing k with
  | nil =>
    obtain rfl : k = 0 := Nat.le_zero.1 hk
    exact ht
  | cons b rest ih =>
    cases k with
    | succ k => exact ih hs (Nat.le_of_succ_le_succ hk)
    | zero =>
      rw [validFrom] at hs
      rw [cons_append, validFrom]
      split at hs
      · next n hn =>
        obtain ⟨hpos, hle, happ⟩ := charLen_append hn t
        rw [cons_append] at happ
        rw [happ]
        refine ih hs ?_
        rw [length_cons] at hle
        omega
      · cases hs

theorem valid_append (hs : valid s = true) (ht : valid t = true) :
    valid (s ++ t) = true :=
  validFrom_append hs (Nat.zero_le _) ht

/-! ## White space -/

/-- The encodings of the characters `unicode.IsSpace` holds of. -/
def spaces : List (List UInt8) :=
  [[0x20], [0x09], [0x0A], [0x0B], [0x0C], [0x0D], [0xC2, 0x85], [0xC2, 0xA0], [0xE1, 0x9A, 0x80],
    [0xE2, 0x80, 0x80], [0xE2, 0x80, 0x81], [0xE2, 0x80, 0x82], [0xE2, 0x80, 0x83],
    [0xE2, 0x80, 0x84], [0xE2, 0x80, 0x85], [0xE2, 0x80, 0x86], [0xE2, 0x80, 0x87],
    [0xE2, 0x80, 0x88], [0xE2, 0x80, 0x89], [0xE2, 0x80, 0x8A], [0xE2, 0x80, 0xA8],
    [0xE2, 0x80, 0xA9], [0xE2, 0x80, 0xAF], [0xE2, 0x81, 0x9F], [0xE3, 0x80, 0x80]]

/-- What is left of a text without the given encodings in front, with the bytes of one still to pass
over. -/
def stripFrom (encodings : List (List UInt8)) : Nat → List UInt8 → List UInt8
  | _, [] => []
  | skip + 1, _ :: rest => stripFrom encodings skip rest
  | 0, b :: rest =>
    match encodings.find? (·.isPrefixOf (b :: rest)) with
    | some encoding => stripFrom encodings (encoding.length - 1) rest
    | none => b :: rest

/-- The text without the encodings of white space at its ends. -/
def trimSpace (s : List UInt8) : List UInt8 :=
  (stripFrom (spaces.map reverse) 0 (stripFrom spaces 0 s).reverse).reverse

theorem trimSpace_blank (s : List UInt8) : trimSpace (0x20 :: s) = trimSpace s := rfl

end Utf8
