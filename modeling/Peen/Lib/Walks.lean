import Peen.Lib.Files

/-!
# What walks depend on

A successful walk is a derivation (`Walks`), which records the entries it looked up.
-/

namespace Files

open List

def Node.isLink : Node → Bool
  | .link _ _ => true
  | .file _ _ | .dir => false

/-- Two nodes that differ at most in the content and mode of a file. -/
inductive Node.Alike : Node → Node → Prop
  | file (content content' : List UInt8) (mode mode' : Nat) :
      Alike (.file content mode) (.file content' mode')
  | dir : Alike .dir .dir
  | link (absolute : Bool) (target : List String) :
      Alike (.link absolute target) (.link absolute target)

theorem Node.Alike.refl (n : Node) : Alike n n := by
  cases n
  · exact .file _ _ _ _
  · exact .dir
  · exact .link _ _

theorem Node.Alike.isLink (h : Alike n n') : n'.isLink = n.isLink := by
  cases h <;> rfl

namespace Tree

/-- A walk that follows at most `n` links from a directory along names, looks up the entries of a
route, and ends at a location. -/
inductive Walks (t : Tree) : Nat → Loc → List String → List Loc → Loc → Prop
  | done {n : Nat} {d : Loc} : Walks t n d [] [] d
  | up {n : Nat} {d l : Loc} {rest : List String} {r : List Loc} (hd : t.node d = some .dir)
      (h : Walks t n d.tail rest r l) : Walks t n d (".." :: rest) r l
  | into {n : Nat} {d l : Loc} {c : String} {rest : List String} {r : List Loc} {m : Node}
      (hc : c ≠ "..") (hm : t.node (c :: d) = some m) (hl : m.isLink = false)
      (h : Walks t n (c :: d) rest r l) : Walks t n d (c :: rest) ((c :: d) :: r) l
  | jump {n : Nat} {d l : Loc} {c : String} {rest target : List String} {r : List Loc}
      {absolute : Bool} (hc : c ≠ "..") (hm : t.node (c :: d) = some (.link absolute target))
      (h : Walks t n (if absolute then [] else d) (target ++ rest) r l) :
      Walks t (n + 1) d (c :: rest) ((c :: d) :: r) l

theorem of_walkWith {t : Tree} {n : Nat} {jump : Loc → List String → Except Errno Loc}
    (hj : ∀ {d c rest absolute target}, c ≠ ".." → t.node (c :: d) = some (.link absolute target) →
      jump (if absolute then [] else d) (target ++ rest) = .ok l → ∃ r, Walks t n d (c :: rest) r l)
    (h : t.walkWith jump d names = .ok l) : ∃ r, Walks t n d names r l := by
  induction names generalizing d with
  | nil => cases h; exact ⟨[], .done⟩
  | cons c rest ih =>
    unfold walkWith at h
    split at h
    · cases h
    next hd =>
    split at h
    next hc =>
      obtain ⟨r, hr⟩ := ih h
      subst hc
      exact ⟨r, .up (not_not.1 hd) hr⟩
    next hc =>
    split at h
    · cases h
    next hm => exact hj hc hm h
    next m hlink hm =>
      obtain ⟨r, hr⟩ := ih h
      refine ⟨_, .into hc hm ?_ hr⟩
      cases m with
      | link a target => exact absurd rfl (hlink a target)
      | file | dir => rfl

theorem walk_eq_ok_iff {t : Tree} {n : Nat} :
    t.walk n d names = .ok l ↔ ∃ r, Walks t n d names r l := by
  refine ⟨?_, ?_⟩
  · induction n generalizing d names with
    | zero => exact of_walkWith nofun
    | succ n ih =>
      refine of_walkWith fun hc hm h => ?_
      obtain ⟨r, hr⟩ := ih h
      exact ⟨_, .jump hc hm hr⟩
  · intro h
    obtain ⟨r, h⟩ := h
    induction h with
    | @done n d => cases n <;> rfl
    | @up n d l rest r hd h ih =>
      cases n <;> simpa [walk, walkWith, hd] using ih
    | @into n d l c rest r m hc hm hl h ih =>
      have hd := (node_parent hm).1
      cases m with
      | link => cases hl
      | file | dir => cases n <;> simpa [walk, walkWith, hd, hc, hm] using ih
    | @jump n d l c rest target r absolute hc hm h ih =>
      have hd := (node_parent hm).1
      simpa [walk, walkWith, hd, hc, hm] using ih

namespace Walks

variable {t t' : Tree} {n m : Nat}

theorem unique (h : Walks t n d names r l) (h' : Walks t m d names r' l') : r' = r ∧ l' = l := by
  induction h generalizing m r' l' with
  | done => cases h'; exact ⟨rfl, rfl⟩
  | up hd h ih =>
    cases h' with
    | up hd' h' => exact ih h'
    | into hc' | jump hc' => exact absurd rfl hc'
  | into hc hm hl h ih =>
    cases h' with
    | up => exact absurd rfl hc
    | into hc' hm' hl' h' =>
      obtain ⟨hr, hl⟩ := ih h'
      exact ⟨by rw [hr], hl⟩
    | jump hc' hm' h' =>
      rw [hm] at hm'
      cases hm'
      cases hl
  | jump hc hm h ih =>
    cases h' with
    | up => exact absurd rfl hc
    | into hc' hm' hl' h' =>
      rw [hm] at hm'
      cases hm'
      cases hl'
    | jump hc' hm' h' =>
      rw [hm] at hm'
      cases hm'
      obtain ⟨hr, hl⟩ := ih h'
      exact ⟨by rw [hr], hl⟩

theorem mono (h : Walks t n d names r l) (m : Nat) : Walks t (n + m) d names r l := by
  induction h with
  | done => exact .done
  | up hd _ ih => exact .up hd ih
  | into hc hm hl _ ih => exact .into hc hm hl ih
  | @jump n d l c rest target r absolute hc hm _ ih =>
    rw [Nat.add_right_comm]
    exact .jump hc hm ih

theorem append (h : Walks t n d a r1 f) (h' : Walks t m f b r2 l) :
    Walks t (n + m) d (a ++ b) (r1 ++ r2) l := by
  induction h with
  | @done n d => rw [Nat.add_comm]; exact h'.mono n
  | up hd _ ih => exact .up hd (ih h')
  | into hc hm hl _ ih => exact .into hc hm hl (ih h')
  | @jump n d l c rest target r absolute hc hm _ ih =>
    rw [Nat.add_right_comm]
    have hrest := ih h'
    rw [append_assoc] at hrest
    exact .jump hc hm hrest

theorem split (h : Walks t n d (a ++ b) r l) :
    ∃ f m r1 r2, Walks t n d a r1 f ∧ Walks t m f b r2 l ∧ r = r1 ++ r2 := by
  generalize hab : a ++ b = names at h
  induction h generalizing a with
  | @done n d =>
    obtain ⟨ha, hb⟩ := append_eq_nil_iff.1 hab
    subst ha hb
    exact ⟨d, n, [], [], .done, .done, rfl⟩
  | @up n d l rest r hd h ih =>
    cases a with
    | nil => cases hab; exact ⟨d, n, [], r, .done, .up hd h, rfl⟩
    | cons c a =>
      cases hab
      obtain ⟨f, m, r1, r2, h1, h2, hr⟩ := ih rfl
      exact ⟨f, m, r1, r2, .up hd h1, h2, hr⟩
  | @into n d l c rest r x hc hm hl h ih =>
    cases a with
    | nil => cases hab; exact ⟨d, n, [], _, .done, .into hc hm hl h, rfl⟩
    | cons c a =>
      cases hab
      obtain ⟨f, m, r1, r2, h1, h2, hr⟩ := ih rfl
      exact ⟨f, m, _, r2, .into hc hm hl h1, h2, by rw [hr]; rfl⟩
  | @jump n d l c rest target r absolute hc hm h ih =>
    cases a with
    | nil => cases hab; exact ⟨d, n + 1, [], _, .done, .jump hc hm h, rfl⟩
    | cons c a =>
      cases hab
      obtain ⟨f, m, r1, r2, h1, h2, hr⟩ := ih (a := target ++ a) (append_assoc _ _ _)
      exact ⟨f, m, _, r2, .jump hc hm h1, h2, by rw [hr]; rfl⟩

theorem from_mem (h : Walks t n d names r l) (hk : k ∈ r) : ∃ c d' x m rest r',
    k = c :: d' ∧ t.node k = some x ∧ Walks t m d' (c :: rest) r' l := by
  induction h with
  | done => cases hk
  | up _ _ ih => exact ih hk
  | into hc hm hl h ih =>
    rcases mem_cons.1 hk with rfl | hk
    · exact ⟨_, _, _, _, _, _, rfl, hm, .into hc hm hl h⟩
    · exact ih hk
  | jump hc hm h ih =>
    rcases mem_cons.1 hk with rfl | hk
    · exact ⟨_, _, _, _, _, _, rfl, hm, .jump hc hm h⟩
    · exact ih hk

theorem single (h : Walks t n d [c] r l) (hc : c ≠ "..")
    (hlink : ∀ a target, t.node (c :: d) ≠ some (.link a target)) : l = c :: d := by
  cases h with
  | up => exact absurd rfl hc
  | into _ _ _ hdone =>
    cases hdone
    rfl
  | jump _ hm => exact absurd hm (hlink _ _)

section
variable (h : Walks t n d names r l)
include h

theorem of_not_dir (hd : t.node d ≠ some .dir) : names = [] ∧ l = d := by
  cases h with
  | done => exact ⟨rfl, rfl⟩
  | up hd' => exact absurd hd' hd
  | into _ hm | jump _ hm => exact absurd (node_parent hm).1 hd

theorem exists_end (hd : ∃ m, t.node d = some m ∧ m.isLink = false) :
    ∃ m, t.node l = some m ∧ m.isLink = false := by
  induction h with
  | done => exact hd
  | up hd' _ ih => exact ih ⟨_, node_tail hd', rfl⟩
  | into _ hm hl _ ih => exact ih ⟨_, hm, hl⟩
  | jump _ hm _ ih =>
    refine ih ?_
    split
    · exact ⟨_, t.node_nil, rfl⟩
    · exact ⟨_, (node_parent hm).1, rfl⟩

/-- **A walk to a directory looks up nothing that leads to a file.** -/
theorem not_file (hl : t.node l = some .dir)
    (h' : Walks t m d' [c] r1 f) (hf : t.node f ≠ some .dir) : c :: d' ∉ r := by
  intro hk
  obtain ⟨_, _, _, m', rest, r', heq, _, hw⟩ := h.from_mem hk
  cases heq
  obtain ⟨f', m'', r1', r2', h1, h2, _⟩ := split (a := [c]) (b := rest) hw
  obtain ⟨_, hff⟩ := h'.unique h1
  subst hff
  rw [(h2.of_not_dir hf).2] at hl
  exact hf hl

theorem end_of_file (hk : k ∈ r) (hx : t.node k = some x)
    (hlink : x.isLink = false) (hdir : x ≠ .dir) : l = k := by
  obtain ⟨c, d', _, m, rest, r', rfl, _, hw⟩ := h.from_mem hk
  cases hw with
  | up => exact absurd rfl (node_parent hx).2
  | into _ _ _ hrest =>
    refine (hrest.of_not_dir ?_).2
    rw [hx]
    exact fun h => hdir (Option.some.inj h)
  | jump _ hm =>
    rw [hx] at hm
    cases hm
    cases hlink

end

/-! ## Walks in another tree -/

/-- The other tree has at this location what differs at most in a file's content. -/
def Keeps (t t' : Tree) (k : Loc) : Prop :=
  ∀ n, t.node k = some n → ∃ n', t'.node k = some n' ∧ Node.Alike n n'

theorem Keeps.of_eq (h : t'.node k = t.node k) : Keeps t t' k :=
  fun n hn => ⟨n, h.trans hn, .refl n⟩

theorem Keeps.dir (h : Keeps t t' k) (hk : t.node k = some .dir) : t'.node k = some .dir := by
  obtain ⟨n', hn', ha⟩ := h _ hk
  cases ha
  exact hn'

theorem Keeps.tail (h : Keeps t t' d) (hd : t.node d = some .dir) : Keeps t t' d.tail := by
  intro m hm
  refine ⟨.dir, node_tail (h.dir hd), ?_⟩
  rw [node_tail hd] at hm
  cases hm
  exact .dir

/-- **A walk is kept** by a tree that keeps what it looks up. -/
theorem keep (h : Walks t n d names r l) (hr : ∀ k ∈ r, Keeps t t' k) (hd : Keeps t t' d) :
    Walks t' n d names r l := by
  induction h with
  | done => exact .done
  | up hd' _ ih => exact .up (hd.dir hd') (ih hr (hd.tail hd'))
  | into hc hm hl _ ih =>
    have hk := hr _ mem_cons_self
    obtain ⟨m', hm', ha⟩ := hk _ hm
    exact .into hc hm' (ha.isLink.trans hl) (ih (fun k h => hr k (mem_cons_of_mem _ h)) hk)
  | jump hc hm _ ih =>
    obtain ⟨m', hm', ha⟩ := hr _ mem_cons_self _ hm
    cases ha
    refine .jump hc hm' (ih (fun k h => hr k (mem_cons_of_mem _ h)) ?_)
    split
    · exact .of_eq (t'.node_nil.trans t.node_nil.symm)
    · exact hd

/-- What the first of two walks looked up is kept, or they go on from an entry that is not. -/
def Parts (t t' : Tree) (r : List Loc) (l l' : Loc) : Prop :=
  (∀ k ∈ r, Keeps t t' k) ∨ ∃ c d rest n r1 m r2, c :: d ∈ r ∧ c ≠ ".." ∧ ¬ Keeps t t' (c :: d) ∧
    Walks t n d (c :: rest) r1 l ∧ Walks t' m d (c :: rest) r2 l'

theorem Parts.cons (hk : Keeps t t' k) (h : Parts t t' r l l') : Parts t t' (k :: r) l l' := by
  rcases h with hr | ⟨c, d, rest, n, r1, m, r2, hmem, hpart⟩
  · exact .inl (forall_mem_cons.2 ⟨hk, hr⟩)
  · exact .inr ⟨c, d, rest, n, r1, m, r2, mem_cons_of_mem _ hmem, hpart⟩

/-- **Two walks along the same names** in two trees. -/
theorem parts (h : Walks t n d names r l) (hd : Keeps t t' d) (h' : Walks t' m d names r' l') :
    Parts t t' r l l' := by
  induction h generalizing m r' with
  | done => exact .inl nofun
  | up hd' _ ih =>
    cases h' with
    | up _ h' => exact ih (hd.tail hd') h'
    | into hc' | jump hc' => exact absurd rfl hc'
  | @into _ d _ c _ _ _ hc hm hl hrest ih =>
    by_cases hk : Keeps t t' (c :: d)
    · cases h' with
      | up => exact absurd rfl hc
      | into _ _ _ h' => exact (ih hk h').cons hk
      | jump _ hm' =>
        obtain ⟨m', hm'', ha⟩ := hk _ hm
        rw [hm''] at hm'
        cases hm'
        cases ha
        cases hl
    · exact .inr ⟨c, d, _, _, _, _, _, mem_cons_self, hc, hk, .into hc hm hl hrest, h'⟩
  | @jump _ d _ c _ _ _ _ hc hm hrest ih =>
    by_cases hk : Keeps t t' (c :: d)
    · obtain ⟨m', hm'', ha⟩ := hk _ hm
      cases ha
      cases h' with
      | up => exact absurd rfl hc
      | into _ hm' hl' =>
        rw [hm''] at hm'
        cases hm'
        cases hl'
      | jump _ hm' h' =>
        rw [hm''] at hm'
        cases hm'
        refine (ih ?_ h').cons hk
        split
        · exact .of_eq (t'.node_nil.trans t.node_nil.symm)
        · exact hd
    · exact .inr ⟨c, d, _, _, _, _, _, mem_cons_self, hc, hk, .jump hc hm hrest, h'⟩

/-- **A walk is blocked** in a tree that misses an entry it looks up and keeps the others. -/
theorem blocked (h : Walks t n d names r l) (hr : ∀ k ∈ r, Keeps t t' k ∨ t'.node k = none)
    (hd : Keeps t t' d) (hk : k ∈ r) (hnone : t'.node k = none) : ¬ Walks t' m d names r' l' := by
  intro h'
  rcases h.parts hd h' with hkept | ⟨c, d', _, _, _, _, _, hk', hc, hlost, _, hw⟩
  · obtain ⟨_, _, x, _, _, _, _, hx, _⟩ := h.from_mem hk
    obtain ⟨x', hx', _⟩ := hkept k hk x hx
    rw [hnone] at hx'
    cases hx'
  · have hgone := (hr _ hk').resolve_left hlost
    cases hw with
    | up => exact absurd rfl hc
    | into _ hm | jump _ hm => rw [hgone] at hm; cases hm

end Walks

end Tree

end Files
