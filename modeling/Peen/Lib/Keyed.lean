import Mathlib.Data.List.Sort

/-!
# Lists ordered by a key

`sort` puts a list in ascending order of a key, `first k` keeps the `k` entries with the smallest
keys.
-/

namespace Keyed

open List

section
variable {α : Type*} (key : α → Nat)

def sort (l : List α) : List α := l.insertionSort fun a b => key a ≤ key b

/-- The `k` entries with the smallest keys, in ascending order. -/
def first (k : Nat) (l : List α) : List α := (sort key l).take k

/-- How many entries of `l` have a smaller key than `x`. -/
def rank (l : List α) (x : α) : Nat := l.countP fun y => key y < key x

def Distinct (l : List α) : Prop := (l.map key).Nodup

def Ascending (l : List α) : Prop := l.Pairwise fun a b => key a < key b

variable {key}

@[simp] theorem mem_sort : x ∈ sort key l ↔ x ∈ l :=
  mem_insertionSort _

theorem sort_perm (l : List α) : (sort key l).Perm l := perm_insertionSort _ _

@[simp] theorem length_sort (l : List α) : (sort key l).length = l.length :=
  length_insertionSort _ _

theorem length_first (k : Nat) (l : List α) : (first key k l).length = min k l.length := by
  simp [first]

theorem sort_map {β : Type*} {key' : β → Nat} {f : α → β} (hf : ∀ a, key' (f a) = key a)
    (l : List α) : sort key' (l.map f) = (sort key l).map f := by
  refine (map_insertionSort _ _ f l fun a _ b _ => ?_).symm
  rw [hf, hf]

theorem first_map {β : Type*} {key' : β → Nat} {f : α → β} (hf : ∀ a, key' (f a) = key a)
    (k : Nat) (l : List α) : first key' k (l.map f) = (first key k l).map f := by
  rw [first, sort_map hf, first, map_take]

theorem first_subset {k : Nat} (h : x ∈ first key k l) : x ∈ l :=
  mem_sort.1 (mem_of_mem_take h)

/-! ## Distinct keys -/

theorem Distinct.inj (h : Distinct key l) (hx : x ∈ l) (hy : y ∈ l) (hk : key x = key y) : x = y :=
  inj_on_of_nodup_map h hx hy hk

theorem Distinct.perm (h : Distinct key l) (hp : l.Perm l') : Distinct key l' :=
  (hp.map key).nodup_iff.1 h

theorem Distinct.filter (h : Distinct key l) (p : α → Bool) :
    Distinct key (l.filter p) :=
  Nodup.sublist (filter_sublist.map key) h

theorem Distinct.of_subset {l' : List α} (h : Distinct key l) (hn : l'.Nodup)
    (hs : ∀ x ∈ l', x ∈ l) : Distinct key l' :=
  hn.map_on fun x hx y hy hk => h.inj (hs x hx) (hs y hy) hk

theorem Distinct.ascending (h : Distinct key l) : Ascending key (sort key l) := by
  have hle := pairwise_insertionSort (fun a b : α => key a ≤ key b) l
  have hne : (sort key l).Pairwise fun a b => key a ≠ key b :=
    pairwise_map.1 (h.perm (sort_perm l).symm)
  exact (hle.and hne).imp fun h => Nat.lt_of_le_of_ne h.1 h.2

theorem Ascending.distinct (h : Ascending key l) : Distinct key l :=
  pairwise_map.2 (h.imp fun h => Nat.ne_of_lt h)

theorem Ascending.take (h : Ascending key l) (k : Nat) : Ascending key (l.take k) :=
  Pairwise.sublist (take_sublist _ _) h

theorem Ascending.le_getLast (h : Ascending key l) (ht : l.getLast? = some t) (hx : x ∈ l) :
    key x ≤ key t := by
  obtain ⟨l', rfl⟩ := getLast?_eq_some_iff.1 ht
  rcases mem_append.1 hx with hx | hx
  · exact Nat.le_of_lt ((pairwise_append.1 h).2.2 x hx t (by simp))
  · rw [mem_singleton.1 hx]

theorem Distinct.first (h : Distinct key l) (k : Nat) :
    Ascending key (first key k l) :=
  h.ascending.take k

/-- **A strictly ascending list is its set of entries.** -/
theorem ext (h : Ascending key l) (h' : Ascending key l') (hm : ∀ x, x ∈ l ↔ x ∈ l') : l = l' := by
  have hp : l.Perm l' :=
    (perm_ext_iff_of_nodup h.distinct.of_map h'.distinct.of_map).2 hm
  exact Perm.eq_of_pairwise
    (fun a b _ _ hab hba => absurd hab (Nat.not_lt.2 (Nat.le_of_lt hba))) h h' hp

theorem first_congr (h : Distinct key l) (h' : Distinct key l') (hm : ∀ x, x ∈ l ↔ x ∈ l')
    (k : Nat) : first key k l = first key k l' := by
  have : sort key l = sort key l' :=
    ext h.ascending h'.ascending fun x => by rw [mem_sort, mem_sort, hm]
  rw [first, this, first]

/-! ## Ranks -/

theorem rank_perm {l : List α} (h : l.Perm l') (x : α) : rank key l x = rank key l' x :=
  h.countP_eq _

theorem rank_mono (h : key x ≤ key y) : rank key l x ≤ rank key l y := by
  refine countP_mono_left fun z _ hz => ?_
  simp only [decide_eq_true_eq] at hz ⊢
  omega

theorem rank_le_of_subset (h : Distinct key l) (hs : ∀ x ∈ l, x ∈ l') (x : α) :
    rank key l x ≤ rank key l' x := by
  simp only [rank, countP_eq_length_filter]
  refine Subperm.length_le (subperm_of_subset (h.filter _).of_map fun y hy => ?_)
  obtain ⟨hy, hlt⟩ := mem_filter.1 hy
  exact mem_filter.2 ⟨hs y hy, hlt⟩

theorem Ascending.mem_take (h : Ascending key l) {k : Nat} :
    x ∈ l.take k ↔ x ∈ l ∧ rank key l x < k := by
  induction l generalizing k with
  | nil => simp
  | cons a t ih =>
    obtain ⟨ha, ht⟩ := pairwise_cons.1 h
    cases k with
    | zero => simp
    | succ k =>
      rw [take_succ_cons, mem_cons, mem_cons, ih ht]
      refine ⟨?_, ?_⟩
      · rintro (rfl | ⟨hx, hr⟩)
        · refine ⟨.inl rfl, ?_⟩
          have : rank key (x :: t) x = 0 := by
            simp only [rank, countP_eq_zero, mem_cons, decide_eq_true_eq]
            rintro y (rfl | hy)
            · omega
            · have := ha y hy; omega
          omega
        · refine ⟨.inr hx, ?_⟩
          have : rank key (a :: t) x ≤ rank key t x + 1 := by
            simp only [rank, countP_cons]; split <;> omega
          omega
      · rintro ⟨rfl | hx, hr⟩
        · exact .inl rfl
        · refine .inr ⟨hx, ?_⟩
          have hlt := ha x hx
          have : rank key (a :: t) x = rank key t x + 1 := by
            simp [rank, hlt]
          omega

/-- **The first `k` entries are those of rank below `k`.** -/
theorem mem_first (h : Distinct key l) {k : Nat} :
    x ∈ first key k l ↔ x ∈ l ∧ rank key l x < k := by
  rw [first, h.ascending.mem_take, mem_sort, rank_perm (sort_perm l)]

theorem length_first_of_le_rank {k : Nat} (hr : k ≤ rank key l x) : (first key k l).length = k := by
  have : rank key l x ≤ l.length := countP_le_length
  rw [length_first]
  omega

theorem le_rank_of_range {a n : Nat} (h : ∀ i, a ≤ i → i < a + n → ∃ y ∈ l, key y = i ∧ i < key x) :
    n ≤ rank key l x := by
  have hsub : range' a n ⊆ (l.filter fun y => key y < key x).map key := by
    intro i hi
    obtain ⟨h1, h2⟩ := mem_range'_1.1 hi
    obtain ⟨y, hy, rfl, hlt⟩ := h i h1 h2
    exact mem_map_of_mem (mem_filter.2 ⟨hy, decide_eq_true hlt⟩)
  have := (subperm_of_subset nodup_range' hsub).length_le
  simpa [rank, countP_eq_length_filter] using this

theorem Distinct.length_le_range (h : Distinct key l) {a n : Nat}
    (hb : ∀ x ∈ l, a ≤ key x ∧ key x < a + n) : l.length ≤ n := by
  have hsub : l.map key ⊆ range' a n := by
    intro i hi
    obtain ⟨x, hx, rfl⟩ := mem_map.1 hi
    exact mem_range'_1.2 (hb x hx)
  simpa using (subperm_of_subset h hsub).length_le

theorem mem_first_of_le {k : Nat} (h : l.length ≤ k) (hx : x ∈ l) : x ∈ first key k l := by
  rw [first, take_of_length_le (by rwa [length_sort])]
  exact mem_sort.2 hx

theorem exists_not_mem_first (h : Distinct key l) {k : Nat} :
    (∃ x ∈ l, x ∉ first key k l) ↔ k < l.length := by
  refine ⟨?_, fun hk => ?_⟩
  · rintro ⟨x, hx, hno⟩
    exact Nat.not_le.1 fun hle => hno (mem_first_of_le hle hx)
  · by_contra hall
    have hsub : l ⊆ first key k l := fun x hx => by_contra fun hno => hall ⟨x, hx, hno⟩
    have := (subperm_of_subset h.of_map hsub).length_le
    rw [length_first] at this
    omega

theorem lt_of_not_mem_first (h : Distinct key l) {k : Nat} (hx : x ∈ l) (hno : x ∉ first key k l)
    (hy : y ∈ first key k l) : key y < key x := by
  refine Nat.not_le.1 fun hle => hno ((mem_first h).2 ⟨hx, ?_⟩)
  exact (rank_mono hle).trans_lt ((mem_first h).1 hy).2

/-- **What `first k` may forget.** A list that keeps every entry of rank below `k` has the same
first `k`. -/
theorem first_eq_of_low {k : Nat} (h : Distinct key l) (h' : Distinct key l') (hs : ∀ x ∈ l', x ∈ l)
    (hlow : ∀ x ∈ l, rank key l x < k → x ∈ l') : first key k l' = first key k l := by
  refine ext (h'.first k) (h.first k) fun x => ?_
  rw [mem_first h', mem_first h]
  refine ⟨?_, ?_⟩
  · rintro ⟨hx, hr⟩
    refine ⟨hs x hx, Nat.lt_of_not_le fun hge => ?_⟩
    -- the first `k` of `l` are all in `l'` and all before `x`
    have hsub : ∀ y ∈ first key k l, y ∈ l'.filter fun y => key y < key x := by
      intro y hy
      have ⟨hyl, hyr⟩ := (mem_first h).1 hy
      refine mem_filter.2 ⟨hlow y hyl hyr, decide_eq_true ?_⟩
      by_contra hle
      have := rank_mono (l := l) (Nat.le_of_not_lt hle)
      omega
    have hlen := (subperm_of_subset (h.first k).distinct.of_map hsub).length_le
    rw [length_first_of_le_rank hge, ← countP_eq_length_filter] at hlen
    simp only [rank] at hr
    omega
  · rintro ⟨hx, hr⟩
    exact ⟨hlow x hx hr, Nat.lt_of_le_of_lt (rank_le_of_subset h' hs x) hr⟩

end

end Keyed
