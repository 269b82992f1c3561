import Peen.ContentBlob.Expand

/-!
# Texts with references

A `Text` is a byte string in which some parts have been moved out and stand behind a reference; a
moved part may hold references of its own.
-/

namespace Peen.ContentBlob

open List

/-- Bytes, some of which stand behind a reference. -/
inductive Text where
  | nil
  | byte (b : UInt8) (rest : Text)
  | ref (inner rest : Text)
  deriving DecidableEq

namespace Text

def append : Text → Text → Text
  | nil, u => u
  | byte b t, u => byte b (append t u)
  | ref i t, u => ref i (append t u)

instance : Append Text := ⟨append⟩

def lit : Bytes → Text
  | [] => nil
  | b :: s => byte b (lit s)

/-- What the text stands for. -/
def plain : Text → Bytes
  | nil => []
  | byte b t => b :: plain t
  | ref i t => plain i ++ plain t

/-- How many layers of references lie over each other. -/
def depth : Text → Nat
  | nil => 0
  | byte _ t => depth t
  | ref i t => max (depth i + 1) (depth t)

/-- The text with its outer references replaced. -/
def peel : Text → Text
  | nil => nil
  | byte b t => byte b (peel t)
  | ref i t => i ++ peel t

def tops : Text → List Text
  | nil => []
  | byte _ t => tops t
  | ref i t => i :: tops t

/-- All parts that were moved out. -/
def moved : Text → List Text
  | nil => []
  | byte _ t => moved t
  | ref i t => i :: (moved i ++ moved t)

/-- What is stored. -/
def render (sum : Bytes → Digest) : Text → Bytes
  | nil => []
  | byte b t => b :: render sum t
  | ref i t => referenceText (hashOf sum (render sum i)) ++ render sum t

section
variable (sum : Bytes → Digest)

section
variable (s : Bytes) (t : Text)

theorem nil_append : nil ++ t = t := rfl

theorem byte_append (b : UInt8) (t u : Text) : byte b t ++ u = byte b (t ++ u) := rfl

theorem ref_append (i t u : Text) : ref i t ++ u = ref i (t ++ u) := rfl

@[simp] theorem append_nil : t ++ nil = t := by
  induction t with
  | nil => rfl
  | byte b t ih => rw [byte_append, ih]
  | ref i t _ ih => rw [ref_append, ih]

theorem append_assoc (t u v : Text) : t ++ u ++ v = t ++ (u ++ v) := by
  induction t with
  | nil => rfl
  | byte b t ih => rw [byte_append, byte_append, byte_append, ih]
  | ref i t _ ih => rw [ref_append, ref_append, ref_append, ih]

@[simp] theorem plain_append (t u : Text) : plain (t ++ u) = plain t ++ plain u := by
  induction t with
  | nil => rfl
  | byte b t ih => rw [byte_append, plain, plain, ih, cons_append]
  | ref i t _ ih => rw [ref_append, plain, plain, ih, List.append_assoc]

@[simp] theorem render_append (t u : Text) : render sum (t ++ u) = render sum t ++ render sum u := by
  induction t with
  | nil => rfl
  | byte b t ih => rw [byte_append, render, render, ih, cons_append]
  | ref i t _ ih => rw [ref_append, render, render, ih, List.append_assoc]

@[simp] theorem depth_append (t u : Text) : depth (t ++ u) = max (depth t) (depth u) := by
  induction t with
  | nil => rw [nil_append, depth, Nat.zero_max]
  | byte b t ih => rw [byte_append, depth, depth, ih]
  | ref i t _ ih => rw [ref_append, depth, depth, ih, Nat.max_assoc]

@[simp] theorem moved_append (t u : Text) : moved (t ++ u) = moved t ++ moved u := by
  induction t with
  | nil => rfl
  | byte b t ih => rw [byte_append, moved, moved, ih]
  | ref i t _ ih => rw [ref_append, moved, moved, ih, List.cons_append, List.append_assoc]

@[simp] theorem plain_lit : plain (lit s) = s := by
  induction s with
  | nil => rfl
  | cons b s ih => rw [lit, plain, ih]

@[simp] theorem render_lit : render sum (lit s) = s := by
  induction s with
  | nil => rfl
  | cons b s ih => rw [lit, render, ih]

@[simp] theorem depth_lit : depth (lit s) = 0 := by
  induction s with
  | nil => rfl
  | cons b s ih => rw [lit, depth, ih]

@[simp] theorem moved_lit : moved (lit s) = [] := by
  induction s with
  | nil => rfl
  | cons b s ih => rw [lit, moved, ih]

/-! ## Peeling -/

@[simp] theorem plain_peel : plain (peel t) = plain t := by
  induction t with
  | nil => rfl
  | byte b t ih => rw [peel, plain, plain, ih]
  | ref i t _ ih => rw [peel, plain_append, plain, ih]

@[simp] theorem depth_peel : depth (peel t) = depth t - 1 := by
  induction t with
  | nil => rfl
  | byte b t ih => rw [peel, depth, depth, ih]
  | ref i t _ ih => rw [peel, depth_append, depth, ih]; omega

theorem moved_peel : ∀ u ∈ moved (peel t), u ∈ moved t := by
  induction t with
  | nil => intro u hu; exact hu
  | byte b t ih => exact ih
  | ref i t _ ih =>
    intro u hu
    rw [peel, moved_append] at hu
    rcases mem_append.1 hu with hu | hu
    · exact mem_cons_of_mem _ (mem_append_left _ hu)
    · exact mem_cons_of_mem _ (mem_append_right _ (ih u hu))

end

theorem mem_moved_of_mem_tops (h : i ∈ tops t) : i ∈ moved t := by
  induction t with
  | nil => cases h
  | byte b t ih => exact ih h
  | ref j t _ ih =>
    rcases mem_cons.1 h with rfl | h
    · exact mem_cons_self
    · exact mem_cons_of_mem _ (mem_append_right _ (ih h))

theorem tops_eq_nil_iff (t : Text) : tops t = [] ↔ depth t = 0 := by
  induction t with
  | nil => exact ⟨fun _ => rfl, fun _ => rfl⟩
  | byte b t ih => exact ih
  | ref i t _ _ =>
    refine ⟨fun h => (by cases h), fun h => ?_⟩
    rw [depth] at h
    omega

theorem moved_eq_nil (h : depth t = 0) : moved t = [] := by
  induction t with
  | nil => rfl
  | byte b t ih => exact ih h
  | ref i t _ _ =>
    rw [depth] at h
    omega

theorem render_of_depth_eq_zero (h : depth t = 0) : render sum t = plain t := by
  induction t with
  | nil => rfl
  | byte b t ih => rw [render, plain, ih h]
  | ref i t _ _ =>
    rw [depth] at h
    omega

/-! ## Finding references -/

def lead : Text → Bytes
  | byte b t => b :: lead t
  | _ => []

theorem lead_prefix_plain (t : Text) : lead t <+: plain t := by
  induction t with
  | nil => exact nil_prefix
  | byte b t ih => exact (prefix_cons_inj b).2 ih
  | ref => exact nil_prefix

theorem render_eq_lead (t : Text) : ∃ tail, render sum t = lead t ++ tail ∧
    (tail = [] ∨ ∃ s, tail = openBrace :: s) := by
  induction t with
  | nil => exact ⟨[], rfl, .inl rfl⟩
  | byte b t ih =>
    obtain ⟨tail, ht, hs⟩ := ih
    exact ⟨tail, by rw [render, ht, lead, cons_append], hs⟩
  | ref => exact ⟨_, rfl, .inr ⟨_, rfl⟩⟩

theorem referenceStart_eq : referenceStart = [openBrace, quote] ++ (markerText ++
    (escapedClose ++ ascii "\":\"")) := by decide

theorem referenceHere_byte (b : UInt8) (t : Text) (hm : ¬ markerText <:+: plain (byte b t)) :
    referenceHere (render sum (byte b t)) = none := by
  unfold referenceHere
  split
  · next hpre =>
    exfalso
    have hpre : referenceStart <+: render sum (byte b t) := isPrefixOf_iff_prefix.1 hpre
    obtain ⟨tail, heq, htail⟩ := render_eq_lead sum (byte b t)
    rw [heq] at hpre
    rcases Nat.lt_or_ge (lead (byte b t)).length 17 with hlt | hge
    · -- the first brace of a reference behind would have to stand inside `referenceStart`
      have hpos : 0 < (lead (byte b t)).length := Nat.succ_pos _
      have hlen := hpre.length_le
      have h26 : referenceStart.length = 26 := by decide
      rcases htail with rfl | ⟨s, rfl⟩
      · simp only [List.append_nil] at hlen
        omega
      · have hget : referenceStart[(lead (byte b t)).length]? = some openBrace := by
          obtain ⟨u, hu⟩ := hpre
          rw [← getElem?_append_left (by omega : _ < referenceStart.length), hu]
          simp
        have hno : ∀ i < 17, 0 < i → referenceStart[i]? ≠ some openBrace := by decide
        exact hno _ hlt hpos hget
    · -- the marker lies inside the leading bytes
      have htake : referenceStart.take 17 <+: lead (byte b t) :=
        prefix_of_prefix_length_le ((List.take_prefix _ _).trans hpre)
          (prefix_append _ _) (Nat.le_trans (length_take_le _ _) hge)
      have hmark : markerText <:+: referenceStart.take 17 := ⟨[openBrace, quote], [], by decide⟩
      exact hm (hmark.trans (htake.isInfix.trans (lead_prefix_plain _).isInfix))
  · rfl

theorem length_encodeToString (d : Digest) : (encodeToString d).length = hashLength := by
  simp [encodeToString, hashLength, length_flatMap]

theorem length_hashOf (data : Bytes) : (hashOf sum data).length = hashLength :=
  length_encodeToString _

theorem referenceHere_ref (i t : Text) :
    referenceHere (render sum (ref i t)) =
      some (hashOf sum (render sum i), render sum t) := by
  have hlen := length_hashOf sum (render sum i)
  simp only [render, referenceText, List.append_assoc, referenceHere]
  rw [if_pos (List.isPrefixOf_iff_prefix.2 (List.prefix_append _ _)), List.drop_left,
    ← hlen, List.drop_left, List.take_left,
    if_pos (List.isPrefixOf_iff_prefix.2 (List.prefix_append _ _)), List.drop_left]

/-- What `splice` and `referencesIn` walk through, read off the text. -/
def pieces : Text → List (Bytes × Hash) × Bytes
  | nil => ([], [])
  | byte b t =>
    match pieces t with
    | ([], tail) => ([], b :: tail)
    | ((before, h) :: ps, tail) => ((b :: before, h) :: ps, tail)
  | ref i t => (([], hashOf sum (render sum i)) :: (pieces t).1, (pieces t).2)

theorem pieces_byte_eq {n : Nat} (h : referenceHere (b :: s) = none) :
    ContentBlob.pieces n (b :: s) =
      match ContentBlob.pieces n s with
      | ([], tail) => ([], b :: tail)
      | ((before, h) :: ps, tail) => ((b :: before, h) :: ps, tail) := by
  cases n with
  | zero => rfl
  | succ n =>
    simp only [ContentBlob.pieces, nextReference, h]
    cases nextReference s with
    | none | some => rfl

/-- **`nextReference` finds exactly the references of a text**, when its plain bytes do not hold the
marker. -/
theorem pieces_render (hm : ¬ markerText <:+: plain t) :
    ∀ {n : Nat}, (tops t).length ≤ n →
      ContentBlob.pieces n (render sum t) = pieces sum t := by
  induction t with
  | nil =>
    intro n _
    cases n with
    | zero | succ => rfl
  | byte b t ih =>
    intro n hn
    have hm' : ¬ markerText <:+: plain t := fun h =>
      hm (h.trans (suffix_cons b _).isInfix)
    have := referenceHere_byte sum b t hm
    rw [render] at this ⊢
    rw [pieces_byte_eq this, ih hm' hn]
    rfl
  | ref i t _ ih =>
    intro n hn
    have hm' : ¬ markerText <:+: plain t := fun h =>
      hm (h.trans (suffix_append (plain i) _).isInfix)
    cases n with
    | zero => simp [tops] at hn
    | succ n =>
      have hhere := referenceHere_ref sum i t
      have hnext : nextReference (render sum (ref i t)) =
          some ([], hashOf sum (render sum i), render sum t) := by
        rw [render, referenceText, referenceStart_eq] at hhere ⊢
        simp only [cons_append] at hhere ⊢
        rw [nextReference, hhere]
      rw [ContentBlob.pieces, hnext]
      simp only [ih hm' (Nat.le_of_succ_le_succ hn)]
      rfl

theorem length_tops_le (t : Text) : (tops t).length ≤ (render sum t).length := by
  induction t with
  | nil => exact Nat.le_refl _
  | byte b t ih => exact Nat.le_succ_of_le ih
  | ref i t _ ih =>
    rw [render, length_append, tops, length_cons, Nat.add_comm]
    have hend : 0 < referenceEnd.length := by decide
    simp only [referenceText, length_append]
    omega

abbrev key (i : Text) : Hash := hashOf sum (render sum i)

theorem pieces_hashes (t : Text) : (pieces sum t).1.map Prod.snd = (tops t).map (key sum) := by
  induction t with
  | nil => rfl
  | byte b t ih =>
    rw [tops, ← ih, pieces]
    split
    · next tail hp => rw [hp]
    · next before h ps tail hp => rw [hp]; rfl
  | ref i t _ ih => rw [tops, map_cons, ← ih]; rfl

section
variable (hm : ¬ markerText <:+: plain t)
include hm

theorem referencesIn_render : referencesIn (render sum t) = ((tops t).map (key sum)).eraseDups := by
  rw [referencesIn, pieces_render sum hm (length_tops_le sum t), pieces_hashes]

theorem mem_referencesIn : h ∈ referencesIn (render sum t) ↔ ∃ i ∈ tops t, key sum i = h := by
  rw [referencesIn_render sum hm, mem_eraseDups, mem_map]

theorem referencesIn_isEmpty : (referencesIn (render sum t)).isEmpty = true ↔ depth t = 0 := by
  rw [← tops_eq_nil_iff, List.isEmpty_iff, List.eq_nil_iff_forall_not_mem,
    eq_nil_iff_forall_not_mem]
  refine ⟨fun h i hi => h _ ((mem_referencesIn sum hm).2 ⟨i, hi, rfl⟩), fun h x hx => ?_⟩
  obtain ⟨i, hi, -⟩ := (mem_referencesIn sum hm).1 hx
  exact h i hi

/-- **One pass of `splice` is one `peel`**, when every reference finds what it names. -/
theorem splice_render {blobs : Found}
    (hb : ∀ i ∈ tops t, blobs.lookup (key sum i) = some (render sum i)) :
    splice (render sum t) blobs = render sum (peel t) := by
  rw [splice, pieces_render sum hm (length_tops_le sum t)]
  clear hm
  induction t with
  | nil => rfl
  | byte b t ih =>
    have := ih hb
    rw [peel, render, ← this, pieces]
    rcases pieces sum t with ⟨_ | ⟨⟨before, h⟩, ps⟩, tail⟩
    · rfl
    · rfl
  | ref i t _ ih =>
    have htail := ih fun j hj => hb j (List.mem_cons_of_mem _ hj)
    rw [peel, render_append, ← htail]
    simp only [pieces, List.flatMap_cons, hb i List.mem_cons_self, List.nil_append,
      Option.getD_some, List.append_assoc]

end

/-! ## Expanding a text -/

section
variable {σ : Type} {fetch : FetchFunc σ} {M : Set Text}

/-- **Expansion reaches the plain text exactly if there are layers enough**, when every fetch
answers with what was moved out. -/
theorem expandLayers_eq
    (hfetch : ∀ hashes s, ∃ blobs s', fetch hashes s = (.ok blobs, s') ∧
      ∀ i ∈ M, key sum i ∈ hashes → blobs.lookup (key sum i) = some (render sum i)) :
    ∀ {n : Nat} {t : Text} {s : σ}, ¬ markerText <:+: plain t → (∀ i ∈ moved t, i ∈ M) →
      (expandLayers fetch n (render sum t) s).1 =
        if depth t < n then .ok (plain t) else .error tooDeep := by
  intro n
  induction n with
  | zero =>
    intro t s _ _
    rfl
  | succ n ih =>
    intro t s hm hM
    rw [expandLayers]
    by_cases hd : depth t = 0
    · rw [if_pos ((referencesIn_isEmpty sum hm).2 hd), render_of_depth_eq_zero sum hd,
        if_pos (by omega)]
    · rw [if_neg fun h => hd ((referencesIn_isEmpty sum hm).1 h)]
      obtain ⟨blobs, s', hf, hb⟩ := hfetch (referencesIn (render sum t)) s
      have hlook : ∀ i ∈ tops t, blobs.lookup (key sum i) = some (render sum i) := fun i hi =>
        hb i (hM i (mem_moved_of_mem_tops hi)) ((mem_referencesIn sum hm).2 ⟨i, hi, rfl⟩)
      have hall : (referencesIn (render sum t)).find? (fun h => (blobs.lookup h).isNone) = none := by
        rw [find?_eq_none]
        intro h hh
        obtain ⟨i, hi, rfl⟩ := (mem_referencesIn sum hm).1 hh
        rw [hlook i hi]
        simp
      have hrec := ih (t := peel t) (s := s') (by rwa [plain_peel])
        (fun i hi => hM i (moved_peel t i hi))
      simp only [hf, hall, splice_render sum hm hlook]
      rw [hrec, plain_peel, depth_peel]
      exact if_congr (by omega) rfl rfl

/-- What every fetch keeps, an expansion keeps. -/
theorem expandLayers_keeps {I : σ → Prop} (hI : ∀ hashes s, I s → I (fetch hashes s).2) :
    ∀ (n : Nat) (body : Bytes) (s : σ), I s → I (expandLayers fetch n body s).2 := by
  intro n
  induction n with
  | zero => exact fun body s h => h
  | succ n ih =>
    intro body s h
    have hkeep := hI (referencesIn body) s h
    rw [expandLayers]
    split
    · exact h
    · cases hf : fetch (referencesIn body) s with
      | mk r s1 =>
        rw [hf] at hkeep
        cases r with
        | error e => exact hkeep
        | ok blobs =>
          dsimp only
          split
          · exact hkeep
          · exact ih _ _ hkeep

/-- **Expansion never leaves the plain text**, when every fetch that answers a hash of a moved part
answers with that part. It may rely on what every fetch keeps (`I`) and on what holds of the state
in the end and is inherited backwards (`J`). -/
theorem expandLayers_sound {I J : σ → Prop} (hI : ∀ hashes s, I s → I (fetch hashes s).2)
    (hJ : ∀ hashes s, I s → J (fetch hashes s).2 → J s)
    (hfetch : ∀ hashes s blobs, I s → J (fetch hashes s).2 → (fetch hashes s).1 = .ok blobs →
      ∀ i ∈ M, ∀ d, blobs.lookup (key sum i) = some d → d = render sum i) :
    ∀ {n : Nat} {t : Text} {s : σ} {out : Bytes}, ¬ markerText <:+: plain t →
      (∀ i ∈ moved t, i ∈ M) → I s → J (expandLayers fetch n (render sum t) s).2 →
      (expandLayers fetch n (render sum t) s).1 = .ok out → out = plain t := by
  have hback : ∀ n body s, I s → J (expandLayers fetch n body s).2 → J s := by
    intro n
    induction n with
    | zero => exact fun body s _ h => h
    | succ n ih =>
      intro body s hs h
      have hkeep := hI (referencesIn body) s hs
      rw [expandLayers] at h
      split at h
      · exact h
      · refine hJ (referencesIn body) s hs ?_
        cases hf : fetch (referencesIn body) s with
        | mk r s1 =>
          rw [hf] at h hkeep
          cases r with
          | error e => exact h
          | ok blobs =>
            dsimp only at h
            split at h
            · exact h
            · exact ih _ _ hkeep h
  intro n
  induction n with
  | zero => intro t s out _ _ _ _ h; cases h
  | succ n ih =>
    intro t s out hm hM hs hend h
    rw [expandLayers] at h hend
    by_cases hd : depth t = 0
    · rw [if_pos ((referencesIn_isEmpty sum hm).2 hd), render_of_depth_eq_zero sum hd] at h
      cases h
      rfl
    · rw [if_neg fun h => hd ((referencesIn_isEmpty sum hm).1 h)] at h hend
      have hkeep := hI (referencesIn (render sum t)) s hs
      have hget := hfetch (referencesIn (render sum t)) s
      cases hf : fetch (referencesIn (render sum t)) s with
      | mk r s1 =>
        rw [hf] at hkeep hget
        cases r with
        | error e => rw [hf] at h; cases h
        | ok blobs =>
          simp only [hf] at h hend
          cases hfind : (referencesIn (render sum t)).find? fun h => (blobs.lookup h).isNone with
          | some x => rw [hfind] at h; cases h
          | none =>
            rw [hfind] at h hend
            have hlook : ∀ i ∈ tops t, blobs.lookup (key sum i) = some (render sum i) := by
              intro i hi
              have hsome := find?_eq_none.1 hfind _ ((mem_referencesIn sum hm).2 ⟨i, hi, rfl⟩)
              cases hl : blobs.lookup (key sum i) with
              | none => rw [hl] at hsome; simp at hsome
              | some d =>
                rw [hget _ hs (hback _ _ _ hkeep hend) rfl i (hM i (mem_moved_of_mem_tops hi)) d hl]
            rw [splice_render sum hm hlook] at h hend
            rw [← plain_peel t]
            exact ih (by rwa [plain_peel]) (fun i hi => hM i (moved_peel t i hi)) hkeep hend h

end

end

end Text

end Peen.ContentBlob
