import Peen.ContentBlob.Reading
import Peen.Lib.Sha256

/-!
# Compacting and expanding

`Expand` of what `Compact` returned.
-/

namespace Peen.ContentBlob

open List
open Text (render key)
open Json Sha256

/-! ## Hashes and envelopes -/

theorem hexDigit_inj {m n : Nat} (hm : m < 16) (hn : n < 16) (h : hexDigit m = hexDigit n) :
    m = n := by
  have hall : ∀ m < 16, ∀ n < 16, hexDigit m = hexDigit n → m = n := by decide
  exact hall m hm n hn h

theorem hexByte_inj {a b : UInt8} (h1 : hexDigit (a.toNat / 16) = hexDigit (b.toNat / 16))
    (h2 : hexDigit (a.toNat % 16) = hexDigit (b.toNat % 16)) : a = b := by
  have ha := a.toNat_lt
  have hb := b.toNat_lt
  have e1 := hexDigit_inj (by omega) (by omega) h1
  have e2 := hexDigit_inj (Nat.mod_lt _ (by decide)) (Nat.mod_lt _ (by decide)) h2
  exact UInt8.toNat_inj.1 (by omega)

theorem encodeToString_inj (h : encodeToString d = encodeToString e) : d = e := by
  have hlist : ∀ {l m : List UInt8},
      (l.flatMap fun b => [hexDigit (b.toNat / 16), hexDigit (b.toNat % 16)]) =
        (m.flatMap fun b => [hexDigit (b.toNat / 16), hexDigit (b.toNat % 16)]) → l = m := by
    intro l
    induction l with
    | nil =>
      intro m h
      cases m with
      | nil => rfl
      | cons b m => cases h
    | cons a l ih =>
      intro m h
      cases m with
      | nil => cases h
      | cons b m =>
        simp only [flatMap_cons, cons_append, nil_append, cons.injEq] at h
        rw [hexByte_inj h.1 h.2.1, ih h.2.2]
  exact Vector.toList_inj.1 (hlist h)

variable {raw : Bytes}

theorem contains_iff : contains raw text = true ↔ text <:+: raw := by
  induction raw with
  | nil => simp [contains, List.isEmpty_iff]
  | cons b raw ih =>
    rw [contains, Bool.or_eq_true, ih, isPrefixOf_iff_prefix, infix_cons_iff]

theorem marker_of_isCompacted (h : isCompacted raw = true) : markerText <:+: raw := by
  rw [isCompacted, Bool.and_eq_true, isPrefixOf_iff_prefix] at h
  have hmark : markerText <:+: envelopeStart := ⟨ascii "\x7b\"", _, rfl⟩
  exact hmark.trans h.1.isInfix

theorem isCompacted_envelope (body : Bytes) :
    isCompacted (envelopeStart ++ body ++ envelopeSuffix) = true := by
  rw [isCompacted, Bool.and_eq_true, isPrefixOf_iff_prefix, isSuffixOf_iff_suffix]
  exact ⟨by rw [append_assoc]; exact prefix_append _ _, suffix_append _ _⟩

theorem envelopeBody_envelope (body : Bytes) :
    envelopeBody (envelopeStart ++ body ++ envelopeSuffix) = body := by
  rw [envelopeBody, append_assoc, drop_left]
  have : (envelopeStart ++ (body ++ envelopeSuffix)).length - envelopeSuffix.length -
      envelopeStart.length = body.length := by
    simp only [length_append]
    omega
  rw [this, take_left]

section
variable (sum : Bytes → Digest)

/-- Everything `Compact` would move out of a document. -/
def movedParts (raw : Bytes) : List Text := ((documentText sum raw).map Prod.snd).getD []

/-- How many layers of moved parts lie over each other in a document. -/
def layers (raw : Bytes) : Nat := ((documentText sum raw).map fun r => r.1.depth).getD 0

/-- No two of these byte strings have the same hash. -/
def CollisionFree (s : Set Bytes) : Prop := Set.InjOn sum s

variable {sum}

theorem movedParts_eq_nil (h : layers sum raw = 0) : movedParts sum raw = [] := by
  cases hdoc : documentText sum raw with
  | none => rw [movedParts, hdoc]; rfl
  | some r =>
    obtain ⟨t, moved⟩ := r
    rw [layers, hdoc] at h
    rw [movedParts, hdoc]
    show moved = []
    rw [eq_nil_iff_forall_not_mem]
    intro x hx
    have := ((documentText_spec hdoc).2 x).2 hx
    rw [Text.moved_eq_nil h] at this
    cases this

theorem CollisionFree.hashOf_inj (h : CollisionFree sum s) (ha : a ∈ s) (hb : b ∈ s)
    (heq : hashOf sum a = hashOf sum b) : a = b :=
  h ha hb (encodeToString_inj heq)

theorem fetchFrom_recorded {parts : List Text} {c : Compactor}
    (hrec : c.Recorded sum (parts.map (render sum)))
    (hcf : CollisionFree sum {d | d ∈ parts.map (render sum)}) (hashes : List Hash)
    (s : Unit) : ∃ found s', fetchFrom c.blobs hashes s = (.ok found, s') ∧ ∀ i ∈ {i | i ∈ parts},
      key sum i ∈ hashes → found.lookup (key sum i) = some (i.render sum) := by
  refine ⟨_, _, rfl, fun i hi hk => ?_⟩
  have hfind : ∃ b, (c.blobs.find? fun b => b.hash == key sum i) = some b ∧
      b.data = i.render sum := by
    obtain ⟨b, hb, hbh⟩ := hrec.part _ (mem_map_of_mem hi)
    have hsome : (c.blobs.find? fun b => b.hash == key sum i).isSome := by
      rw [find?_isSome]
      exact ⟨b, hb, beq_iff_eq.2 hbh⟩
    obtain ⟨b', hb'⟩ := Option.isSome_iff_exists.1 hsome
    refine ⟨b', hb', ?_⟩
    obtain ⟨hdata, hhash⟩ := hrec.blob b' (mem_of_find?_eq_some hb')
    have heq : b'.hash = key sum i := by simpa using find?_some hb'
    exact hcf.hashOf_inj hdata (mem_map_of_mem hi) (by rw [← hhash, heq])
  obtain ⟨b, hb, hdata⟩ := hfind
  clear hrec hcf hi
  induction hashes with
  | nil => cases hk
  | cons h hs ih =>
    by_cases heq : h = key sum i
    · subst heq
      simp [hb, hdata]
    · rw [filterMap_cons]
      have htail := ih ((mem_cons.1 hk).resolve_left (Ne.symm heq))
      cases hf : c.blobs.find? fun b => b.hash == h with
      | none => simpa using htail
      | some b' =>
        simp only [Option.map_some]
        rw [lookup_cons, beq_eq_false_iff_ne.2 (Ne.symm heq)]
        exact htail

theorem expand_unmarked {σ : Type} (hm : ¬ markerText <:+: raw) (fetch : FetchFunc σ) (s : σ) :
    (expand raw fetch s).1 = .ok raw := by
  have : isCompacted raw = false := by
    cases h : isCompacted raw with
    | false => rfl
    | true => exact absurd (marker_of_isCompacted h) hm
  simp [expand, this]

theorem expand_envelope {σ : Type} {t : Text} (hm : ¬ markerText <:+: t.plain) (hd : t.depth ≠ 0)
    (fetch : FetchFunc σ) (s : σ) :
    expand (envelopeStart ++ t.render sum ++ envelopeSuffix) fetch s =
      expandLayers fetch maxExpandDepth (t.render sum) s := by
  have hne : (referencesIn (t.render sum)).isEmpty = false := by
    cases h : (referencesIn (t.render sum)).isEmpty with
    | false => rfl
    | true => exact absurd ((Text.referencesIn_isEmpty sum hm).1 h) hd
  simp only [expand, isCompacted_envelope, envelopeBody_envelope, Bool.not_true, hne,
    Bool.false_eq_true, if_false]

/-- What `Compact` returns for a document without the marker: the document itself, where nothing is
moved out of it, or an envelope around its text. -/
theorem compact_cases (sum : Bytes → Digest) (valid : Bytes → Bool) (hm : ¬ markerText <:+: raw) :
    (compact sum valid raw = (raw, []) ∧
      (raw.length < minBlobBytes ∨ valid raw = false ∨ layers sum raw = 0)) ∨
    (¬ raw.length < minBlobBytes ∧ valid raw = true ∧
      ∃ (t : Text) (moved : List Text), t.plain = raw ∧ (∀ x, x ∈ t.moved ↔ x ∈ moved) ∧
      movedParts sum raw = moved ∧ layers sum raw = t.depth ∧ t.depth ≠ 0 ∧
      compact sum valid raw = (envelopeStart ++ t.render sum ++ envelopeSuffix,
        (Compactor.recordAll sum {} (moved.map (render sum))).blobs)) := by
  have hcontains : contains raw markerText = false := by
    cases h : contains raw markerText with
    | false => rfl
    | true => exact absurd (contains_iff.1 h) hm
  rw [compact_eq, hcontains]
  by_cases hshort : raw.length < minBlobBytes
  · left
    simp [hshort]
  · cases hv : valid raw with
    | false => left; simp
    | true =>
      simp only [hshort, decide_false, Bool.or_false, Bool.not_true, Bool.false_eq_true, if_false,
        false_or, not_false_eq_true, true_and]
      cases hdoc : documentText sum raw with
      | none => left; exact ⟨rfl, .inr (by rw [layers, hdoc]; rfl)⟩
      | some r =>
        obtain ⟨t, moved⟩ := r
        obtain ⟨hpln, hmoved⟩ := documentText_spec hdoc
        have hlayers : layers sum raw = t.depth := by rw [layers, hdoc]; rfl
        dsimp only
        cases hmv : moved with
        | nil =>
          left
          refine ⟨rfl, .inr ?_⟩
          rw [hlayers, ← Text.tops_eq_nil_iff, eq_nil_iff_forall_not_mem]
          intro i hi
          have := (hmoved i).1 (Text.mem_moved_of_mem_tops hi)
          rw [hmv] at this
          cases this
        | cons i is =>
          right
          refine ⟨t, moved, hpln, hmoved, by rw [movedParts, hdoc]; rfl, hlayers, fun hd => ?_, ?_⟩
          · have := (hmoved i).2 (by rw [hmv]; exact mem_cons_self)
            rw [Text.moved_eq_nil hd] at this
            cases this
          · rw [hmv]; rfl

theorem part_of_mem_blobs (hb : b ∈ (compact sum valid raw).2) :
    ¬ raw.length < minBlobBytes ∧ b.hash = hashOf sum b.data ∧
      b.data ∈ (movedParts sum raw).map (render sum) := by
  cases hc : contains raw markerText with
  | true => simp [compact, hc] at hb
  | false =>
    have hm : ¬ markerText <:+: raw := fun h => by rw [contains_iff.2 h] at hc; cases hc
    rcases compact_cases sum valid hm with ⟨heq, -⟩ | ⟨hlong, -, t, moved, -, -, hparts, -, -, heq⟩
    · rw [heq] at hb
      cases hb
    · rw [heq] at hb
      obtain ⟨hdata, hhash⟩ := (Compactor.recorded_recordAll sum _).blob b hb
      rw [hparts]
      exact ⟨hlong, hhash, hdata⟩

theorem mem_blobs_of_part (hm : ¬ markerText <:+: raw) (hlong : ¬ raw.length < minBlobBytes)
    (hv : valid raw = true)
    (hcf : CollisionFree sum {d | d ∈ (movedParts sum raw).map (render sum)})
    (hd : d ∈ (movedParts sum raw).map (render sum)) :
    ⟨hashOf sum d, d⟩ ∈ (compact sum valid raw).2 := by
  rcases compact_cases sum valid hm with ⟨-, hwhy⟩ | ⟨-, -, t, moved, -, -, hparts, -, -, heq⟩
  · rcases hwhy with h | h | h
    · exact absurd h hlong
    · rw [hv] at h
      cases h
    · rw [movedParts_eq_nil h] at hd
      cases hd
  · rw [hparts] at hcf hd
    have hrec := Compactor.recorded_recordAll sum (moved.map (render sum))
    obtain ⟨b, hb, hbh⟩ := hrec.part d hd
    obtain ⟨hdata, hhash⟩ := hrec.blob b hb
    have hbd : b.data = d := hcf.hashOf_inj hdata hd (hhash.symm.trans hbh)
    obtain ⟨h', d'⟩ := b
    dsimp only at hbd hbh
    rw [heq, ← hbh, ← hbd]
    exact hb

theorem expand_compact_eq (valid : Bytes → Bool) (hm : ¬ markerText <:+: raw)
    (hcf : CollisionFree sum {d | d ∈ (movedParts sum raw).map (render sum)}) :
    (expand (compact sum valid raw).1 (fetchFrom (compact sum valid raw).2) ()).1 =
      if raw.length < minBlobBytes ∨ valid raw = false ∨ layers sum raw < maxExpandDepth
      then .ok raw else .error tooDeep := by
  rcases compact_cases sum valid hm with ⟨heq, hwhy⟩ |
    ⟨hlong, hv, t, moved, hpln, hmoved, hparts, hlayers, hd, heq⟩
  · have hwhy : raw.length < minBlobBytes ∨ valid raw = false ∨ layers sum raw < maxExpandDepth :=
      hwhy.imp id (Or.imp id fun h0 => by rw [h0]; decide)
    rw [heq, if_pos hwhy]
    exact expand_unmarked hm _ _
  · have hmt : ¬ markerText <:+: t.plain := by rw [hpln]; exact hm
    rw [hparts] at hcf
    have hfetch := fetchFrom_recorded (Compactor.recorded_recordAll sum _) hcf
    have hexp := Text.expandLayers_eq sum hfetch (n := maxExpandDepth) (t := t)
      (s := ()) hmt fun i hi => (hmoved i).1 hi
    rw [heq, expand_envelope hmt hd, hexp, hpln, hlayers, hv]
    exact if_congr (by simp [hlong]) rfl rfl

/-- **Compaction is lossless exactly for documents of fewer than 32 layers.** For every document
without the marker, whatever `json.Valid` says of it, and when no two of its moved parts collide:
expanding what `Compact` returned, from the blobs it returned, gives the document back byte for
byte if and only if it was too short or not valid, so that nothing was moved, or the moved parts
lie in fewer than `maxExpandDepth` layers over each other. -/
theorem expand_compact_iff (valid : Bytes → Bool) (raw : Bytes)
    (hm : contains raw markerText = false)
    (hcf : CollisionFree sum {d | d ∈ (movedParts sum raw).map (render sum)}) :
    (expand (compact sum valid raw).1 (fetchFrom (compact sum valid raw).2) ()).1 = .ok raw ↔
      raw.length < minBlobBytes ∨ valid raw = false ∨ layers sum raw < maxExpandDepth := by
  have hmark : ¬ markerText <:+: raw := fun h => by rw [contains_iff.2 h] at hm; cases hm
  rw [expand_compact_eq valid hmark hcf]
  refine ⟨fun h => ?_, fun h => if_pos h⟩
  by_contra hno
  rw [if_neg hno] at h
  cases h

theorem contains_marker_eq_false (h : ∀ b ∈ raw, b ≠ backslash) :
    contains raw markerText = false := by
  cases hc : contains raw markerText with
  | false => rfl
  | true =>
    have hmem : backslash ∈ raw := (contains_iff.1 hc).subset (by decide)
    exact absurd rfl (h _ hmem)

def filled (n : Nat) : Bytes := quote :: replicate n 0x78 ++ [quote]

theorem length_filled (n : Nat) : (filled n).length = n + 2 := by
  simp [filled]

theorem stringLiteral_filled (n : Nat) : StringLiteral (filled n) := by
  refine ⟨replicate n 0x78, ?_, rfl⟩
  induction n with
  | zero => exact .nil
  | succ n ih => exact .char (by decide) (by decide) (by decide) ih

theorem filled_no_backslash {n : Nat} : ∀ b ∈ filled n, b ≠ backslash := by
  intro b hb
  simp only [filled, cons_append, mem_cons, mem_append, mem_replicate, not_mem_nil, or_false] at hb
  rcases hb with rfl | ⟨-, rfl⟩ | rfl
  · decide
  · decide
  · decide

def longString : Bytes := filled 600

theorem movedParts_longString : movedParts sum longString = [.lit longString] := by
  have hread := documentText_reads sum Space.nil (reads_string (stringLiteral_filled 600)) Space.nil
  have hlen : (filled 600).length ≥ minBlobBytes := by
    rw [length_filled]
    decide
  rw [nil_append, append_nil, Layout.compact, if_pos hlen] at hread
  rw [movedParts, longString, hread]
  rfl

/-- A document that is one long string is moved out as a whole and comes back. -/
theorem expand_compact_longString : accepts longString = true ∧ ((expand
      (compact sum256 accepts longString).1
      (fetchFrom (compact sum256 accepts longString).2) ()).1 = .ok longString ↔
      longString.length < minBlobBytes ∨ accepts longString = false ∨
        layers sum256 longString < maxExpandDepth) := by
  refine ⟨?_, expand_compact_iff accepts longString ?_ ?_⟩
  · exact accepts_iff.2 (Value.document (.string (stringLiteral_filled 600)))
  · exact contains_marker_eq_false filled_no_backslash
  · rw [movedParts_longString]
    intro a ha b hb _
    have ha : a ∈ [render sum256 (.lit longString)] := ha
    have hb : b ∈ [render sum256 (.lit longString)] := hb
    rw [mem_singleton.1 ha, mem_singleton.1 hb]

end

/-! ## Documents that carry the marker -/

def fetchNothing : FetchFunc Unit := fun _ s => (.error ⟨.notFound, "no blobs"⟩, s)

theorem expand_fetchNothing (h : isCompacted raw = true) :
    (expand raw fetchNothing ()).1 ≠ .ok raw := by
  intro heq
  unfold expand at heq
  rw [h] at heq
  cases href : (referencesIn (envelopeBody raw)).isEmpty with
  | true => rw [href] at heq; cases heq
  | false =>
    rw [href] at heq
    simp only [Bool.not_true, Bool.false_eq_true, if_false, maxExpandDepth, expandLayers, href,
      fetchNothing] at heq
    cases heq

theorem compact_marked (sum : Bytes → Digest) (valid : Bytes → Bool)
    (hm : contains raw markerText = true) : compact sum valid raw = (raw, []) := by
  simp [compact, hm]

/-- **Which documents with the marker survive storage.** `Compact` stores each of them as it is.
`Expand` returns it for every fetch function exactly if it does not look like an envelope. -/
theorem expand_marked_iff (sum : Bytes → Digest) (valid : Bytes → Bool) (raw : Bytes)
    (hm : contains raw markerText = true) :
    compact sum valid raw = (raw, []) ∧
      ((∀ (σ : Type) (fetch : FetchFunc σ) (s : σ),
          (expand (compact sum valid raw).1 fetch s).1 = .ok raw) ↔ isCompacted raw = false) := by
  have hstored := compact_marked sum valid hm
  refine ⟨hstored, fun h => ?_, fun h σ fetch s => ?_⟩
  · rw [hstored] at h
    cases hc : isCompacted raw with
    | false => rfl
    | true => exact absurd (h Unit fetchNothing ()) (expand_fetchNothing hc)
  · rw [hstored]
    simp [expand, h]

/-- A JSON object with one member, whose key is spelt as the key of an envelope. -/
def envelopeLike : Bytes := envelopeStart ++ ascii "1" ++ envelopeSuffix

def markedArray : Bytes := ascii "[\"" ++ markerText ++ ascii "\"]"

/-- An array that holds the marker survives. -/
theorem expand_marked_array :
    contains markedArray markerText = true ∧ isCompacted markedArray = false ∧
      (compact sum256 accepts markedArray = (markedArray, []) ∧
      ((∀ (σ : Type) (fetch : FetchFunc σ) (s : σ),
          (expand (compact sum256 accepts markedArray).1 fetch s).1 =
            .ok markedArray) ↔ isCompacted markedArray = false)) :=
  ⟨by decide, by decide, expand_marked_iff sum256 accepts markedArray (by decide)⟩

/-- An object whose key is spelt as an envelope's is stored as it is, and cannot be read back. -/
theorem expand_refuses_envelopeLike :
    contains envelopeLike markerText = true ∧
      compact sum256 accepts envelopeLike = (envelopeLike, []) ∧
      (expand envelopeLike (fetchFrom []) ()).1 =
        .error ⟨.validationFailed, "compacted document holds no blob references"⟩ :=
  ⟨by decide, compact_marked _ _ (by decide), by decide⟩

end Peen.ContentBlob
