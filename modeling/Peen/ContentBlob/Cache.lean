import Peen.ContentBlob.RoundTrip

/-!
# The blob cache

`Cache` keeps recently used blobs up to a byte budget, and `CachedFetch` answers from it and reads
the rest through a load function.
-/

namespace Peen.ContentBlob

open Sha256
open List hiding sum
open Sha256 Json

structure CacheEntry where
  hash : Hash
  data : Bytes

/-- A list element, under the number it was allocated with: in the source it is a pointer. -/
structure Element where
  address : Nat
  value : CacheEntry

/-- `Cache`; `order` has the most recently used element in front. -/
structure Cache where
  budget : Int
  used : Int
  order : List Element
  entries : List (Hash × Element)
  /-- The next address to be allocated. -/
  next : Nat

def Cache.new (budget : Int) : Cache := ⟨budget, 0, [], [], 0⟩

def moveToFront (e : Element) (order : List Element) : List Element :=
  match order.find? fun x => x.address == e.address with
  | none => order
  | some x => x :: order.eraseP fun x => x.address == e.address

def Cache.get (c : Cache) (hash : Hash) : Option Bytes × Cache :=
  match c.entries.lookup hash with
  | none => (none, c)
  | some e => (some e.value.data, { c with order := moveToFront e c.order })

/-- The loop of `Cache.Add`. On an empty list `oldest.Value` would panic. -/
def Cache.evict : Nat → Cache → Option Cache
  | 0, _ => none
  | n + 1, c =>
    if c.used > c.budget then
      match c.order.getLast? with
      | none => none
      | some oldest => Cache.evict n
        { c with order := c.order.dropLast
                 entries := c.entries.filter fun p => p.1 != oldest.value.hash
                 used := c.used - oldest.value.data.length }
    else some c

/-- `Cache.Add`; `none` is a panic. The loop takes an element from the list each time. -/
def Cache.add (c : Cache) (hash : Hash) (data : Bytes) : Option Cache :=
  if data.length > c.budget then some c
  else
    match c.entries.lookup hash with
    | some e => some { c with order := moveToFront e c.order }
    | none =>
      let e : Element := ⟨c.next, ⟨hash, data⟩⟩
      Cache.evict (c.order.length + 2)
        { c with order := e :: c.order
                 entries := (hash, e) :: c.entries
                 used := c.used + data.length
                 next := c.next + 1 }

/-! ## CachedFetch -/

/-- What the goroutines share, and the data loads have answered with so far (for the statements
only). `turn` counts the calls of one fetch function. -/
structure Shared where
  cache : Cache
  turn : Nat
  loaded : List Bytes

/-- The first loop of `CachedFetch`: what the cache holds, and what is missing. -/
def lookupAll (c : Cache) : List Hash → Found × List Hash × Cache
  | [] => ([], [], c)
  | h :: hs =>
    match c.get h with
    | (some d, c) =>
      let (found, missing, c) := lookupAll c hs
      ((h, d) :: found, missing, c)
    | (none, c) =>
      let (found, missing, c) := lookupAll c hs
      (found, h :: missing, c)

section
variable (sum : Bytes → Digest) (valid : Bytes → Bool)

/-- The second loop of `CachedFetch`: only valid blobs are kept. -/
def keepValid : Found → Found → Cache → Option (Found × Cache)
  | found, [], c => some (found, c)
  | found, (h, d) :: loaded, c =>
    if validBlob sum valid h d then
      match c.add h d with
      | none => none
      | some c => keepValid ((h, d) :: found) loaded c
    else keepValid found loaded c

/-- `CachedFetch`. The load function is asked with the number of the call, so it may answer the
same hashes differently each time. -/
def cachedFetch (load : Nat → List Hash → Except Err Found) : FetchFunc Shared := fun hashes s =>
  let (found, missing, cache) := lookupAll s.cache hashes
  if missing.isEmpty then (.ok found, { s with cache := cache, turn := s.turn + 1 })
  else
    match load s.turn missing with
    | .error e => (.error e, { s with cache := cache, turn := s.turn + 1 })
    | .ok loaded =>
      match keepValid sum valid found loaded cache with
      | none =>
        (.error ⟨.panicked, "invalid memory address or nil pointer dereference"⟩,
          { s with turn := s.turn + 1 })
      | some (found, cache) =>
        (.ok found, ⟨cache, s.turn + 1, s.loaded ++ loaded.map Prod.snd⟩)

/-- A call of some `CachedFetch` function on the shared cache: the hashes it asks for and what its
load function answers. -/
structure Call where
  hashes : List Hash
  answer : List Hash → Except Err Found

def Call.run (call : Call) (s : Shared) : Shared :=
  { (cachedFetch sum valid (fun _ => call.answer) call.hashes s).2 with turn := s.turn }

def runCalls (calls : List Call) (s : Shared) : Shared :=
  calls.foldl (fun s call => call.run sum valid s) s

/-- A `CachedFetch` function in front of whose calls other goroutines use the cache. -/
def sharedFetch (others : Nat → List Call) (load : Nat → List Hash → Except Err Found) :
    FetchFunc Shared := fun hashes s =>
  cachedFetch sum valid load hashes (runCalls sum valid (others s.turn) s)

end

/-! ## What the cache holds -/

def Cache.Holds (P : Hash → Bytes → Prop) (c : Cache) : Prop :=
  ∀ p ∈ c.entries, P p.1 p.2.value.data

theorem mem_of_lookup {α β : Type} [BEq α] [LawfulBEq α] {k : α} {v : β} {l : List (α × β)}
    (h : l.lookup k = some v) : (k, v) ∈ l := by
  induction l with
  | nil => cases h
  | cons p l ih =>
    obtain ⟨k', v'⟩ := p
    rw [lookup_cons] at h
    split at h
    · next heq =>
      cases h
      rw [beq_iff_eq.1 heq]
      exact mem_cons_self
    · exact mem_cons_of_mem _ (ih h)

section
variable {c : Cache}

theorem Cache.Holds.get (h : c.Holds P) (hash : Hash) :
    (c.get hash).2.Holds P ∧ ∀ d, (c.get hash).1 = some d → P hash d := by
  unfold Cache.get
  split
  · refine ⟨h, fun d hd => ?_⟩
    cases hd
  · next e he =>
    refine ⟨h, fun d hd => ?_⟩
    cases hd
    exact h _ (mem_of_lookup he)

theorem Cache.Holds.evict {n : Nat} (h : c.Holds P) (heq : Cache.evict n c = some c') : c'.Holds P := by
  induction n generalizing c with
  | zero => cases heq
  | succ n ih =>
    rw [Cache.evict] at heq
    split at heq
    · split at heq
      · cases heq
      · exact ih (fun p hp => h p (mem_filter.1 hp).1) heq
    · cases heq
      exact h

theorem Cache.Holds.add {hash : Hash} {data : Bytes} {c' : Cache} (h : c.Holds P)
    (hP : P hash data) (heq : c.add hash data = some c') : c'.Holds P := by
  unfold Cache.add at heq
  split at heq
  · cases heq
    exact h
  · split at heq
    · cases heq
      exact h
    · refine Cache.Holds.evict (fun p hp => ?_) heq
      rcases mem_cons.1 hp with rfl | hp
      · exact hP
      · exact h p hp

theorem Cache.Holds.mono (h : c.Holds P) (hPQ : ∀ k d, P k d → Q k d) :
    c.Holds Q := fun p hp => hPQ _ _ (h p hp)

theorem holds_lookupAll (h : c.Holds P) (hashes : List Hash) :
    (lookupAll c hashes).2.2.Holds P ∧ ∀ p ∈ (lookupAll c hashes).1, P p.1 p.2 := by
  induction hashes generalizing c with
  | nil =>
    refine ⟨h, fun p hp => ?_⟩
    cases hp
  | cons k ks ih =>
    obtain ⟨hc, hd⟩ := h.get k
    rw [lookupAll]
    split
    · next d c1 heq =>
      rw [heq] at hc hd
      obtain ⟨ih1, ih2⟩ := ih hc
      refine ⟨ih1, fun p hp => ?_⟩
      rcases mem_cons.1 hp with rfl | hp
      · exact hd d rfl
      · exact ih2 p hp
    · next c1 heq =>
      rw [heq] at hc
      exact ih hc

theorem holds_keepValid (h : c.Holds P) (hfd : ∀ p ∈ found, P p.1 p.2)
    (hld : ∀ p ∈ loaded, validBlob sum valid p.1 p.2 = true → P p.1 p.2)
    (heq : keepValid sum valid found loaded c = some r) : r.2.Holds P ∧ ∀ p ∈ r.1, P p.1 p.2 := by
  induction loaded generalizing found c with
  | nil =>
    cases heq
    exact ⟨h, hfd⟩
  | cons p loaded ih =>
    obtain ⟨k, d⟩ := p
    have hrest := fun p hp => hld p (mem_cons_of_mem _ hp)
    rw [keepValid] at heq
    split at heq
    · next hv =>
      have hkd := hld (k, d) mem_cons_self hv
      split at heq
      · cases heq
      · next c1 hadd =>
        refine ih (h.add hkd hadd) (fun p hp => ?_) hrest heq
        rcases mem_cons.1 hp with rfl | hp
        · exact hkd
        · exact hfd p hp
    · exact ih h hfd hrest heq

end

/-! ## A store that lies -/

section
variable {sum : Bytes → Digest} (valid : Bytes → Bool)

theorem hashOf_of_validBlob (hv : validBlob sum valid h d = true) : hashOf sum d = h := by
  simp only [validBlob, Bool.and_eq_true, beq_iff_eq] at hv
  exact hv.1.2

/-- Every blob of the cache has been loaded, and has the hash it is kept under. -/
def Shared.Genuine (sum : Bytes → Digest) (s : Shared) : Prop :=
  s.cache.Holds fun h d => hashOf sum d = h ∧ d ∈ s.loaded

/-- **A cached fetch answers with loaded data under its own hash**, and so the cache stays. -/
theorem genuine_cachedFetch {s : Shared} (h : s.Genuine sum)
    (load : Nat → List Hash → Except Err Found) (hashes : List Hash) :
    (cachedFetch sum valid load hashes s).2.Genuine sum ∧
      s.loaded ⊆ (cachedFetch sum valid load hashes s).2.loaded ∧
      ∀ found, (cachedFetch sum valid load hashes s).1 = .ok found → ∀ p ∈ found,
        hashOf sum p.2 = p.1 ∧ p.2 ∈ (cachedFetch sum valid load hashes s).2.loaded := by
  obtain ⟨hc, hf⟩ := holds_lookupAll h hashes
  unfold cachedFetch
  dsimp only
  split
  · refine ⟨hc, fun d hd => hd, fun found hfd => ?_⟩
    cases hfd
    exact hf
  · split
    · refine ⟨hc, fun d hd => hd, fun found hfd => ?_⟩
      cases hfd
    · next loaded _ =>
      split
      · refine ⟨h, fun d hd => hd, fun found hfd => ?_⟩
        cases hfd
      · next found' cache' hkeep =>
        have hgrow : ∀ k d, hashOf sum d = k ∧ d ∈ s.loaded →
            hashOf sum d = k ∧ d ∈ s.loaded ++ loaded.map Prod.snd :=
          fun k d hd => ⟨hd.1, mem_append_left _ hd.2⟩
        obtain ⟨h1, h2⟩ := holds_keepValid (hc.mono hgrow) (fun p hp => hgrow _ _ (hf p hp))
          (fun p hp hv => ⟨hashOf_of_validBlob valid hv,
            mem_append_right _ (mem_map_of_mem hp)⟩) hkeep
        refine ⟨h1, fun d hd => mem_append_left _ hd, fun found hfd => ?_⟩
        cases hfd
        exact h2

theorem genuine_runCalls (calls : List Call) {s : Shared} (h : s.Genuine sum) :
    (runCalls sum valid calls s).Genuine sum ∧ s.loaded ⊆ (runCalls sum valid calls s).loaded := by
  induction calls generalizing s with
  | nil => exact ⟨h, fun d hd => hd⟩
  | cons call calls ih =>
    obtain ⟨h1, h2, -⟩ := genuine_cachedFetch valid h (fun _ => call.answer) call.hashes
    have hrun : (call.run sum valid s).Genuine sum := h1
    obtain ⟨h3, h4⟩ := ih hrun
    exact ⟨h3, fun d hd => h4 (h2 hd)⟩

theorem genuine_sharedFetch {s : Shared} (h : s.Genuine sum) (others : Nat → List Call)
    (load : Nat → List Hash → Except Err Found) (hashes : List Hash) :
    (sharedFetch sum valid others load hashes s).2.Genuine sum ∧
      s.loaded ⊆ (sharedFetch sum valid others load hashes s).2.loaded ∧
      ∀ found, (sharedFetch sum valid others load hashes s).1 = .ok found → ∀ p ∈ found,
        hashOf sum p.2 = p.1 ∧ p.2 ∈ (sharedFetch sum valid others load hashes s).2.loaded := by
  obtain ⟨h1, h2⟩ := genuine_runCalls valid (others s.turn) h
  obtain ⟨h3, h4, h5⟩ := genuine_cachedFetch valid h1 load hashes
  exact ⟨h3, fun d hd => h4 (h2 hd), h5⟩

end

section
variable (sum : Bytes → Digest) (valid : Bytes → Bool) (budget : Int) (history : List Call)

def usedCache : Shared :=
  runCalls sum valid history ⟨Cache.new budget, 0, []⟩

/-- `Expand(doc, CachedFetch(cache, load))` of what `Compact` made of `raw`. -/
def expandCached (s : Shared) (others : Nat → List Call) (load : Nat → List Hash → Except Err Found)
    (raw : Bytes) : Except Err Bytes × Shared :=
  expand (compact sum valid raw).1 (sharedFetch sum valid others load) s

/-- **A store that lies cannot change a document.** For every document without the marker, every
cache that calls of `CachedFetch` have filled, whatever other goroutines fetch meanwhile and
whatever the load function answers: expanding the compacted document fails or returns the document,
unless two of its moved parts and the loaded data have the same hash. -/
theorem expand_cachedFetch
     (others : Nat → List Call) (load : Nat → List Hash → Except Err Found)
    (raw : Bytes) (hm : contains raw markerText = false)
    (hcf : CollisionFree sum ({d | d ∈ (movedParts sum raw).map (Text.render sum)} ∪
      {d | d ∈ (expandCached sum valid (usedCache sum valid budget history) others load
        raw).2.loaded})) :
    (∃ e, (expandCached sum valid (usedCache sum valid budget history) others load raw).1 =
        .error e) ∨
      (expandCached sum valid (usedCache sum valid budget history) others load raw).1 =
        .ok raw := by
  have hmark : ¬ markerText <:+: raw := fun h => by rw [contains_iff.2 h] at hm; cases hm
  have hgen : (usedCache sum valid budget history).Genuine sum := by
    refine (genuine_runCalls valid history ?_).1
    intro p hp
    cases hp
  generalize usedCache sum valid budget history = s at hgen hcf ⊢
  rcases compact_cases sum valid hmark with ⟨heq, -⟩ |
    ⟨-, -, t, moved, hplain, hmoved, hparts, -, hd, heq⟩
  · right
    rw [expandCached, heq]
    exact expand_unmarked hmark _ _
  · have hmt : ¬ markerText <:+: t.plain := by rw [hplain]; exact hmark
    rw [hparts] at hcf
    rw [expandCached, heq, expand_envelope hmt hd] at hcf ⊢
    cases hres : (expandLayers (sharedFetch sum valid others load) maxExpandDepth
      (t.render sum) s).1 with
    | error e => exact .inl ⟨e, rfl⟩
    | ok out =>
      have hout := Text.expandLayers_sound sum (M := {i | i ∈ moved})
        (I := Shared.Genuine sum)
        (J := fun s => CollisionFree sum
          ({d | d ∈ moved.map (Text.render sum)} ∪ {d | d ∈ s.loaded}))
        (fun hashes s h => (genuine_sharedFetch valid h others load hashes).1)
        (fun hashes s h hcf => ?_) (fun hashes s blobs h hcf hok i hi d hl => ?_) hmt
        (fun i hi => (hmoved i).1 hi) hgen hcf hres
      · rw [hout, hplain]
        exact .inr rfl
      · exact Set.InjOn.mono (Set.union_subset_union_right _
          fun d hd => (genuine_sharedFetch valid h others load hashes).2.1 hd) hcf
      · obtain ⟨hhash, hloaded⟩ := (genuine_sharedFetch valid h others load hashes).2.2 blobs hok _
          (mem_of_lookup hl)
        exact CollisionFree.hashOf_inj hcf (.inr hloaded) (.inl (mem_map_of_mem hi)) hhash

end

/-! ## What can have been loaded -/

/-- A load function that only ever answers with data from `D`. -/
def AnswersFrom (D : Set Bytes) (answer : List Hash → Except Err Found) : Prop :=
  ∀ hashes found, answer hashes = .ok found → ∀ p ∈ found, p.2 ∈ D

section
variable (sum : Bytes → Digest) (valid : Bytes → Bool)

theorem loaded_cachedFetch (hload : ∀ k, AnswersFrom D (load k)) {s : Shared}
    (h : ∀ d ∈ s.loaded, d ∈ D) (hashes : List Hash) :
    ∀ d ∈ (cachedFetch sum valid load hashes s).2.loaded, d ∈ D := by
  unfold cachedFetch
  dsimp only
  split
  · exact h
  · split
    · exact h
    · next loaded hl =>
      split
      · exact h
      · intro d hd
        rcases mem_append.1 hd with hd | hd
        · exact h d hd
        · obtain ⟨p, hp, rfl⟩ := mem_map.1 hd
          exact hload _ _ _ hl p hp

theorem loaded_runCalls (hcl : ∀ c ∈ calls, AnswersFrom D c.answer) {s : Shared}
    (h : ∀ d ∈ s.loaded, d ∈ D) : ∀ d ∈ (runCalls sum valid calls s).loaded, d ∈ D := by
  induction calls generalizing s with
  | nil => exact h
  | cons call calls ih =>
    refine ih (fun c hc => hcl c (mem_cons_of_mem _ hc)) ?_
    exact loaded_cachedFetch sum valid (fun _ => hcl call mem_cons_self) h call.hashes

theorem loaded_expandCached {s : Shared} (hload : ∀ k, AnswersFrom D (load k))
    (hothers : ∀ k, ∀ c ∈ others k, AnswersFrom D c.answer) (h : ∀ d ∈ s.loaded, d ∈ D)
    (raw : Bytes) : ∀ d ∈ (expandCached sum valid s others load raw).2.loaded, d ∈ D := by
  have hkeep : ∀ n body (s : Shared), (∀ d ∈ s.loaded, d ∈ D) →
      ∀ d ∈ (expandLayers (sharedFetch sum valid others load) n body s).2.loaded, d ∈ D :=
    Text.expandLayers_keeps (I := fun s : Shared => ∀ d ∈ s.loaded, d ∈ D) fun hashes s hs =>
      loaded_cachedFetch sum valid hload (loaded_runCalls sum valid (hothers s.turn) hs) hashes
  unfold expandCached expand
  split
  · exact h
  · split
    · exact h
    · exact hkeep _ _ s h

end

/-- A store that holds one long string and answers everything with it. -/
def loadLongString (_turn : Nat) (hashes : List Hash) : Except Err Found :=
  .ok (hashes.map fun h => (h, longString))

theorem collisionFree_longString : CollisionFree sum256
    ({d | d ∈ (movedParts sum256 longString).map (Text.render sum256)} ∪
      {d | d ∈ (expandCached sum256 accepts
        (usedCache sum256 accepts 1024 []) (fun _ => []) loadLongString longString).2.loaded}) := by
  have hload : ∀ k, AnswersFrom {longString} (loadLongString k) := by
    intro k hashes found hf p hp
    cases hf
    obtain ⟨h, -, rfl⟩ := mem_map.1 hp
    rfl
  have hothers : ∀ k : Nat, ∀ c ∈ (fun _ => [] : Nat → List Call) k,
      AnswersFrom {longString} c.answer := by
    intro k c hc
    cases hc
  have hem : ∀ d ∈ (usedCache sum256 accepts 1024 []).loaded,
      d ∈ ({longString} : Set Bytes) := by
    intro d hd
    cases hd
  have hone : ∀ d ∈ ({d | d ∈ (movedParts sum256 longString).map
      (Text.render sum256)} ∪ {d | d ∈ (expandCached sum256 accepts
        (usedCache sum256 accepts 1024 []) (fun _ => []) loadLongString
        longString).2.loaded} : Set Bytes), d = longString := by
    intro d hd
    rcases hd with hd | hd
    · rw [movedParts_longString] at hd
      have hd : d ∈ [Text.render sum256 (.lit longString)] := hd
      rw [mem_singleton.1 hd, Text.render_lit]
    · exact loaded_expandCached sum256 accepts hload hothers hem longString d hd
  intro a ha b hb _
  rw [hone a ha, hone b hb]

/-- The long string comes back from an empty cache over its store, or not at all. -/
theorem expand_cachedFetch_longString :
    contains longString markerText = false ∧
    ((∃ e, (expandCached sum256 accepts
        (usedCache sum256 accepts 1024 []) (fun _ => []) loadLongString
        longString).1 = .error e) ∨
      (expandCached sum256 accepts (usedCache sum256 accepts 1024 []) (fun _ => []) loadLongString
        longString).1 = .ok longString) := by
  have hm := contains_marker_eq_false (filled_no_backslash (n := 600))
  exact ⟨hm, expand_cachedFetch sum256 accepts 1024 [] (fun _ => []) loadLongString
    longString hm collisionFree_longString⟩

end Peen.ContentBlob
