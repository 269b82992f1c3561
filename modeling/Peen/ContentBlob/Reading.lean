import Peen.ContentBlob.Walker
import Peen.Lib.Json

/-!
# Reading JSON

What the walker makes of JSON.
-/

namespace Peen.ContentBlob

open List Option Json

/-! ## Scanning over known bytes -/

/-- `s` starts with a byte that neither is white space nor closes an array or object. -/
def Starts (s : Bytes) : Prop :=
  ∃ b t, s = b :: t ∧ Json.isSpace b = false ∧ b ≠ closeBracket ∧ b ≠ closeBrace

/-- `s` is empty or starts with a byte that ends a primitive. -/
def Follows (s : Bytes) : Prop := ∀ b ∈ s.head?, endsPrimitive b = true

variable {s w closing key : Bytes} {v : Layout}

theorem Starts.append (h : Starts s) (rest : Bytes) : Starts (s ++ rest) := by
  obtain ⟨b, t, rfl, hb⟩ := h
  exact ⟨b, t ++ rest, rfl, hb⟩

theorem Starts.head_not_space (h : Starts s) : ∀ b ∈ s.head?, Json.isSpace b = false := by
  obtain ⟨b, t, rfl, hb, -⟩ := h
  intro b' hb'
  cases hb'
  exact hb

theorem skipSpace_space (hw : Space w) (hs : ∀ b ∈ s.head?, Json.isSpace b = false) :
    skipSpace (w ++ s) = (w, s) := by
  have hw : ∀ b ∈ w, Json.isSpace b = true := hw
  have hdrop : s.takeWhile Json.isSpace = [] ∧ s.dropWhile Json.isSpace = s := by
    cases s with
    | nil => exact ⟨rfl, rfl⟩
    | cons b t =>
      have := hs b rfl
      simp [this]
  rw [skipSpace, takeWhile_append_of_pos hw, dropWhile_append_of_pos hw, hdrop.1, hdrop.2,
    append_nil]

theorem separator_comma (closing : UInt8) (hw : Space w) (hw' : Space w') (hs : Starts s) :
    separator closing (w ++ comma :: (w' ++ s)) = some (false, w ++ comma :: w', s) := by
  have h1 : skipSpace (w ++ comma :: (w' ++ s)) = (w, comma :: (w' ++ s)) :=
    skipSpace_space hw (by intro b hb; cases hb; rfl)
  have h2 := skipSpace_space hw' hs.head_not_space
  rw [separator, h1]
  simp only [if_true, h2]

theorem separator_closing {closing : UInt8} (hw : Space w)
    (hc : closing = closeBrace ∨ closing = closeBracket) :
    separator closing (w ++ closing :: s) = some (true, w ++ [closing], s) := by
  have h1 : skipSpace (w ++ closing :: s) = (w, closing :: s) := by
    refine skipSpace_space hw ?_
    intro b hb
    cases hb
    rcases hc with rfl | rfl <;> rfl
  have h2 : closing ≠ comma := by
    rcases hc with rfl | rfl <;> decide
  rw [separator, h1]
  simp only [if_neg h2, if_true]

theorem follows_space (hw : Space w) (hs : Follows s) : Follows (w ++ s) := by
  cases w with
  | nil => exact hs
  | cons b w =>
    intro b' hb'
    cases hb'
    have : Json.isSpace b = true := hw b mem_cons_self
    rw [endsPrimitive, this, Bool.or_true]

theorem follows_cons (s : Bytes) (h : endsPrimitive b = true) : Follows (b :: s) := by
  intro b' hb'
  cases hb'
  exact h

theorem stringLiteralEnd_plain (hb : b ≠ backslash) (hq : b ≠ quote) (s : Bytes) :
    stringLiteralEnd (b :: s) = (stringLiteralEnd s).map fun (body, rest) => (b :: body, rest) := by
  rw [stringLiteralEnd.eq_def]
  simp only [if_neg hb, if_neg hq]

theorem stringLiteralEnd_escape (e : UInt8) (s : Bytes) :
    stringLiteralEnd (backslash :: e :: s) =
      (stringLiteralEnd s).map fun (body, rest) => (backslash :: e :: body, rest) := by
  rw [stringLiteralEnd.eq_def]
  simp only [if_true]

theorem isHex_plain (h : isHex b = true) : b ≠ backslash ∧ b ≠ quote :=
  ⟨fun e => absurd (e ▸ h) (by decide), fun e => absurd (e ▸ h) (by decide)⟩

theorem stringLiteralEnd_chars (h : Chars cs) (rest : Bytes) :
    stringLiteralEnd (cs ++ quote :: rest) = some (cs ++ [quote], rest) := by
  induction h with
  | nil =>
    rw [stringLiteralEnd.eq_def]
    rfl
  | char _ hq hb _ ih =>
    rw [cons_append, stringLiteralEnd_plain hb hq, ih]
    rfl
  | escape _ _ ih =>
    simp only [cons_append]
    rw [show (0x5C : UInt8) = backslash from rfl, stringLiteralEnd_escape, ih]
    rfl
  | unicode ha hb hc hd _ ih =>
    simp only [cons_append]
    -- the four digits of the escape are plain characters to the walker
    rw [show (0x5C : UInt8) = backslash from rfl, stringLiteralEnd_escape,
      stringLiteralEnd_plain (isHex_plain ha).1 (isHex_plain ha).2,
      stringLiteralEnd_plain (isHex_plain hb).1 (isHex_plain hb).2,
      stringLiteralEnd_plain (isHex_plain hc).1 (isHex_plain hc).2,
      stringLiteralEnd_plain (isHex_plain hd).1 (isHex_plain hd).2, ih]
    rfl

theorem ne_of_isPlain (h : isPlain b = true) (hc : isPlain c = false) : b ≠ c := by
  intro e
  rw [e, hc] at h
  cases h

theorem isSpace_of_isPlain (h : isPlain b = true) : Json.isSpace b = false := by
  simp only [Json.isSpace, beq_eq_false_iff_ne.2 (ne_of_isPlain h (c := 0x20) (by decide)),
    beq_eq_false_iff_ne.2 (ne_of_isPlain h (c := 0x09) (by decide)),
    beq_eq_false_iff_ne.2 (ne_of_isPlain h (c := 0x0A) (by decide)),
    beq_eq_false_iff_ne.2 (ne_of_isPlain h (c := 0x0D) (by decide)), Bool.or_false]

theorem endsPrimitive_of_isPlain (h : isPlain b = true) : endsPrimitive b = false := by
  simp only [endsPrimitive, isSpace_of_isPlain h,
    beq_eq_false_iff_ne.2 (ne_of_isPlain h (c := comma) (by decide)),
    beq_eq_false_iff_ne.2 (ne_of_isPlain h (c := closeBrace) (by decide)),
    beq_eq_false_iff_ne.2 (ne_of_isPlain h (c := closeBracket) (by decide)), Bool.or_false]

theorem primitiveEnd_plain (hs : ∀ b ∈ s, isPlain b = true) (hrest : Follows rest) :
    primitiveEnd (s ++ rest) = (s, rest) := by
  have hall : ∀ x ∈ s, (!endsPrimitive x) = true := fun x hx => by
    rw [endsPrimitive_of_isPlain (hs x hx)]
    rfl
  have hstop : rest.takeWhile (fun x => !endsPrimitive x) = [] ∧
      rest.dropWhile (fun x => !endsPrimitive x) = rest := by
    cases rest with
    | nil => exact ⟨rfl, rfl⟩
    | cons c r =>
      have := hrest c rfl
      simp [this]
  rw [primitiveEnd, takeWhile_append_of_pos hall, dropWhile_append_of_pos hall, hstop.1,
    hstop.2, append_nil]

/-! ## The rules of reading -/

/-- Standing in front of `s`, the walker reads it as `v`, whatever follows. -/
structure Reads (s : Bytes) (v : Layout) : Prop where
  start : Starts s
  parse : ∀ fuel rest, 2 * s.length ≤ fuel → Follows rest →
    parseValue fuel (s ++ rest) = some (v, rest)

/-- In front of the elements `s` of an array, the walker reads `v` first and then `es`. -/
structure ReadsElements (s : Bytes) (v : Layout) (es : Items) (closing : Bytes) : Prop where
  start : Starts s
  parse : ∀ fuel gap rest, 2 * s.length + 1 ≤ fuel →
    parseElements fuel gap (s ++ closeBracket :: rest) = some (.cons gap v es, closing, rest)

/-- In front of the members `s` of an object, the walker reads a key and `v` first, then `ms`. -/
structure ReadsMembers (s key : Bytes) (v : Layout) (ms : Items) (closing : Bytes) : Prop where
  start : Starts s
  parse : ∀ fuel gap rest, 2 * s.length + 1 ≤ fuel →
    parseMembers fuel gap (s ++ closeBrace :: rest) = some (.cons (gap ++ key) v ms, closing, rest)

/-- In front of a value, the walker reads `key` as a key with its colon. -/
structure ReadsKey (key : Bytes) : Prop where
  start : Starts key
  parse : ∀ s, Starts s → memberValue (key ++ s) = some (key, s)

theorem exists_fuel {n fuel : Nat} (h : n + 1 ≤ fuel) : ∃ k, fuel = k + 1 ∧ n ≤ k :=
  ⟨fuel - 1, by omega, by omega⟩

theorem reads_primitive (h : Primitive s) : Reads s (.primitive s) := by
  obtain ⟨b, t, rfl⟩ := exists_cons_of_ne_nil h.ne_nil
  have hb := h.plain b mem_cons_self
  refine ⟨⟨b, t, rfl, isSpace_of_isPlain hb, ne_of_isPlain hb (by decide),
    ne_of_isPlain hb (by decide)⟩, fun fuel rest hf hrest => ?_⟩
  obtain ⟨fuel, rfl, -⟩ := exists_fuel hf
  have hend := primitiveEnd_plain h.plain hrest
  rw [cons_append] at hend ⊢
  rw [parseValue, if_neg (ne_of_isPlain hb (by decide)), if_neg (ne_of_isPlain hb (by decide)),
    if_neg (ne_of_isPlain hb (by decide)), hend]

theorem reads_string (h : StringLiteral s) : Reads s (.string s) := by
  obtain ⟨cs, hcs, rfl⟩ := h
  refine ⟨⟨quote, _, rfl, by decide⟩, fun fuel rest hf hrest => ?_⟩
  obtain ⟨fuel, rfl, -⟩ := exists_fuel hf
  have hs : 0x22 :: cs ++ [0x22] ++ rest = quote :: (cs ++ quote :: rest) := by
    simp [quote]
  rw [hs, parseValue, if_pos rfl, stringLiteralEnd_chars hcs]
  rfl

theorem reads_emptyObject (hw : Space w) :
    Reads (openBrace :: w ++ [closeBrace]) (.object .nil (w ++ [closeBrace])) := by
  refine ⟨⟨openBrace, _, rfl, by decide⟩, fun fuel rest hf hrest => ?_⟩
  obtain ⟨fuel, rfl, -⟩ := exists_fuel hf
  have hskip : skipSpace (w ++ closeBrace :: rest) = (w, closeBrace :: rest) :=
    skipSpace_space hw (by intro b hb; cases hb; rfl)
  have hs : openBrace :: w ++ [closeBrace] ++ rest = openBrace :: (w ++ closeBrace :: rest) := by
    simp
  rw [hs, parseValue, if_neg (by decide), if_pos rfl, hskip]
  exact if_pos rfl

theorem reads_emptyArray (hw : Space w) :
    Reads (openBracket :: w ++ [closeBracket]) (.array .nil (w ++ [closeBracket])) := by
  refine ⟨⟨openBracket, _, rfl, by decide⟩, fun fuel rest hf hrest => ?_⟩
  obtain ⟨fuel, rfl, -⟩ := exists_fuel hf
  have hskip : skipSpace (w ++ closeBracket :: rest) = (w, closeBracket :: rest) :=
    skipSpace_space hw (by intro b hb; cases hb; rfl)
  have hs : openBracket :: w ++ [closeBracket] ++ rest =
      openBracket :: (w ++ closeBracket :: rest) := by
    simp
  rw [hs, parseValue, if_neg (by decide), if_neg (by decide), if_pos rfl, hskip]
  exact if_pos rfl

theorem reads_object (hw : Space w) (h : ReadsMembers s key v ms closing) :
    Reads (openBrace :: (w ++ s) ++ [closeBrace]) (.object (.cons (w ++ key) v ms) closing) := by
  refine ⟨⟨openBrace, _, rfl, by decide⟩, fun fuel rest hf hrest => ?_⟩
  have hf : 2 * s.length + 1 + 1 ≤ fuel := by
    simp only [length_append, length_cons, length_nil] at hf
    omega
  obtain ⟨fuel, rfl, hf'⟩ := exists_fuel hf
  have hskip := skipSpace_space hw (h.start.append (closeBrace :: rest)).head_not_space
  have hm := h.parse fuel w rest hf'
  obtain ⟨b, t, rfl, -, -, hb⟩ := h.start
  have hs : openBrace :: (w ++ b :: t) ++ [closeBrace] ++ rest =
      openBrace :: (w ++ (b :: t ++ closeBrace :: rest)) := by
    simp
  rw [hs, parseValue, if_neg (by decide), if_pos rfl, hskip]
  simp only [cons_append, if_neg hb] at hm ⊢
  rw [hm]
  rfl

theorem reads_array (hw : Space w) (h : ReadsElements s v es closing) :
    Reads (openBracket :: (w ++ s) ++ [closeBracket]) (.array (.cons w v es) closing) := by
  refine ⟨⟨openBracket, _, rfl, by decide⟩, fun fuel rest hf hrest => ?_⟩
  have hf : 2 * s.length + 1 + 1 ≤ fuel := by
    simp only [length_append, length_cons, length_nil] at hf
    omega
  obtain ⟨fuel, rfl, hf'⟩ := exists_fuel hf
  have hskip := skipSpace_space hw (h.start.append (closeBracket :: rest)).head_not_space
  have he := h.parse fuel w rest hf'
  obtain ⟨b, t, rfl, -, hb, -⟩ := h.start
  have hs : openBracket :: (w ++ b :: t) ++ [closeBracket] ++ rest =
      openBracket :: (w ++ (b :: t ++ closeBracket :: rest)) := by
    simp
  rw [hs, parseValue, if_neg (by decide), if_neg (by decide), if_pos rfl, hskip]
  simp only [cons_append, if_neg hb] at he ⊢
  rw [he]
  rfl

theorem readsMembers_last (hk : ReadsKey key) (h : Reads s v) (hw : Space w) :
    ReadsMembers (key ++ s ++ w) key v .nil (w ++ [closeBrace]) := by
  refine ⟨(hk.start.append s).append w, fun fuel gap rest hf => ?_⟩
  obtain ⟨fuel, rfl, hf'⟩ := exists_fuel hf
  have hs : key ++ s ++ w ++ closeBrace :: rest = key ++ (s ++ (w ++ closeBrace :: rest)) := by
    simp
  have hfol : Follows (w ++ closeBrace :: rest) := follows_space hw (follows_cons _ rfl)
  have hv := h.parse fuel _ (by simp only [length_append] at hf'; omega) hfol
  rw [hs, parseMembers, hk.parse _ (h.start.append _)]
  simp only [bind_eq_bind, bind_some, hv, separator_closing hw (.inl rfl), if_true]

theorem readsMembers_cons (hk : ReadsKey key) (h : Reads s v) (hw : Space w) (hw' : Space w')
    (hms : ReadsMembers s' key' v' ms closing) :
    ReadsMembers (key ++ s ++ w ++ comma :: (w' ++ s')) key v
      (.cons (w ++ comma :: w' ++ key') v' ms) closing := by
  refine ⟨((hk.start.append s).append w).append _, fun fuel gap rest hf => ?_⟩
  obtain ⟨fuel, rfl, hf'⟩ := exists_fuel hf
  simp only [length_append, length_cons] at hf'
  have hs : key ++ s ++ w ++ comma :: (w' ++ s') ++ closeBrace :: rest =
      key ++ (s ++ (w ++ comma :: (w' ++ (s' ++ closeBrace :: rest)))) := by
    simp
  have hfol : Follows (w ++ comma :: (w' ++ (s' ++ closeBrace :: rest))) :=
    follows_space hw (follows_cons _ rfl)
  have hv := h.parse fuel _ (by omega) hfol
  have hsep := separator_comma closeBrace hw hw' (hms.start.append (closeBrace :: rest))
  have hrest := hms.parse fuel (w ++ comma :: w') rest (by omega)
  rw [hs, parseMembers, hk.parse _ (h.start.append _)]
  simp only [bind_eq_bind, bind_some, hv, hsep, Bool.false_eq_true, if_false, hrest]

theorem readsElements_last (h : Reads s v) (hw : Space w) :
    ReadsElements (s ++ w) v .nil (w ++ [closeBracket]) := by
  refine ⟨h.start.append w, fun fuel gap rest hf => ?_⟩
  obtain ⟨fuel, rfl, hf'⟩ := exists_fuel hf
  have hfol : Follows (w ++ closeBracket :: rest) := follows_space hw (follows_cons _ rfl)
  have hv := h.parse fuel _ (by simp only [length_append] at hf'; omega) hfol
  rw [append_assoc, parseElements]
  simp only [bind_eq_bind, bind_some, hv, separator_closing hw (.inr rfl), if_true]

theorem readsElements_cons (h : Reads s v) (hw : Space w) (hw' : Space w')
    (hes : ReadsElements s' v' es closing) :
    ReadsElements (s ++ w ++ comma :: (w' ++ s')) v (.cons (w ++ comma :: w') v' es) closing := by
  refine ⟨(h.start.append w).append _, fun fuel gap rest hf => ?_⟩
  obtain ⟨fuel, rfl, hf'⟩ := exists_fuel hf
  simp only [length_append, length_cons] at hf'
  have hs : s ++ w ++ comma :: (w' ++ s') ++ closeBracket :: rest =
      s ++ (w ++ comma :: (w' ++ (s' ++ closeBracket :: rest))) := by
    simp
  have hfol : Follows (w ++ comma :: (w' ++ (s' ++ closeBracket :: rest))) :=
    follows_space hw (follows_cons _ rfl)
  have hv := h.parse fuel _ (by omega) hfol
  have hsep := separator_comma closeBracket hw hw' (hes.start.append (closeBracket :: rest))
  have hrest := hes.parse fuel (w ++ comma :: w') rest (by omega)
  rw [hs, parseElements]
  simp only [bind_eq_bind, bind_some, hv, hsep, Bool.false_eq_true, if_false, hrest]

theorem readsKey (hk : StringLiteral k) (hw : Space w) (hw' : Space w') :
    ReadsKey (k ++ w ++ colon :: w') := by
  obtain ⟨cs, hcs, rfl⟩ := hk
  refine ⟨⟨quote, _, rfl, by decide⟩, fun s hs => ?_⟩
  have hkey : 0x22 :: cs ++ [0x22] ++ w ++ colon :: w' ++ s =
      quote :: (cs ++ quote :: (w ++ colon :: (w' ++ s))) := by
    simp [quote]
  have h1 : skipSpace (w ++ colon :: (w' ++ s)) = (w, colon :: (w' ++ s)) :=
    skipSpace_space hw (by intro b hb; cases hb; rfl)
  have h2 := skipSpace_space hw' hs.head_not_space
  rw [hkey, memberValue]
  simp only [ne_eq, not_true_eq_false, if_false, stringLiteralEnd_chars hcs, bind_eq_bind,
    bind_some, h1, h2]
  simp [quote]

/-! ## Every JSON value is read -/

/-- What the walker reads of each part of the grammar. -/
def ReadAs : Rule → Bytes → Prop
  | .value, s => ∃ v, Reads s v
  | .elements, s => ∃ w s' v es closing, Space w ∧ s = w ++ s' ∧ ReadsElements s' v es closing
  | .members, s => ∃ w s' key v ms closing, Space w ∧ s = w ++ s' ∧
      ReadsMembers s' key v ms closing

theorem readAs_of_derives (h : Derives r s) : ReadAs r s := by
  induction h with
  | primitive h => exact ⟨_, reads_primitive h⟩
  | string h => exact ⟨_, reads_string h⟩
  | emptyObject hw => exact ⟨_, reads_emptyObject hw⟩
  | object _ ih =>
    obtain ⟨w, s', key, v, ms, closing, hw, rfl, h⟩ := ih
    exact ⟨_, reads_object hw h⟩
  | emptyArray hw => exact ⟨_, reads_emptyArray hw⟩
  | array _ ih =>
    obtain ⟨w, s', v, es, closing, hw, rfl, h⟩ := ih
    exact ⟨_, reads_array hw h⟩
  | lastElement hw _ hw' ih =>
    obtain ⟨v, h⟩ := ih
    exact ⟨_, _, _, _, _, hw, append_assoc _ _ _, readsElements_last h hw'⟩
  | element hw _ hw' _ ih ihes =>
    obtain ⟨v, h⟩ := ih
    obtain ⟨w2, s', v', es, closing, hw2, rfl, hes⟩ := ihes
    exact ⟨_, _, _, _, _, hw, by simp [comma], readsElements_cons h hw' hw2 hes⟩
  | lastMember hw hk hw1 hw2 _ hw' ih =>
    obtain ⟨v, h⟩ := ih
    refine ⟨_, _, _, _, _, _, hw, ?_, readsMembers_last (readsKey hk hw1 hw2) h hw'⟩
    simp [colon]
  | member hw hk hw1 hw2 _ hw' _ ih ihms =>
    obtain ⟨v, h⟩ := ih
    obtain ⟨w3, s', key', v', ms, closing, hw3, rfl, hms⟩ := ihms
    refine ⟨_, _, _, _, _, _, hw, ?_, readsMembers_cons (readsKey hk hw1 hw2) h hw' hw3 hms⟩
    simp [colon, comma]

/-- **The walker reads every JSON value.** -/
theorem exists_reads (h : Value s) : ∃ v, Reads s v := readAs_of_derives h

theorem documentText_reads (sum : Bytes → Digest) (hw : Space w) (h : Reads s v) (hw' : Space w') :
    documentText sum (w ++ s ++ w') =
      some (.lit w ++ (v.compact sum).1 ++ .lit w', (v.compact sum).2) := by
  have hskip := skipSpace_space hw (h.start.append w').head_not_space
  have hfuel : 2 * s.length ≤ compactFuel (w ++ (s ++ w')) := by
    simp only [compactFuel, length_append]
    omega
  have hfol : Follows w' := by
    have := follows_space hw' (s := []) fun b hb => by cases hb
    simpa using this
  have hend : (skipSpace w').2 = [] := by
    have := skipSpace_space hw' (s := []) fun b hb => by cases hb
    rw [append_nil] at this
    rw [this]
  rw [append_assoc, documentText, hskip, h.parse _ _ hfuel hfol]
  simp only [hend, ne_eq, not_true_eq_false, if_false]

end Peen.ContentBlob
