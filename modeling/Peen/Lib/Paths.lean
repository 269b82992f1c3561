import Peen.Lib.Walks

/-!
# Where paths lead

The primitives of a tree, in terms of locations.
-/

namespace Files

open List

namespace Tree

variable {t t' : Tree} {c : String} {p : Path} {d l : Loc}

/-! ## Resolving -/

theorem resolve_eq_ok_iff :
    t.resolve p = .ok l ↔ ∃ r, Walks t maxLinks [] p.reverse r l := walk_eq_ok_iff

theorem keeps_nil (t t' : Tree) : Walks.Keeps t t' [] :=
  .of_eq (t'.node_nil.trans t.node_nil.symm)

theorem exists_of_resolve (h : t.resolve p = .ok l) :
    ∃ n, t.node l = some n ∧ n.isLink = false := by
  obtain ⟨r, hw⟩ := resolve_eq_ok_iff.1 h
  exact hw.exists_end ⟨_, t.node_nil, rfl⟩

variable {n : Node} {r : List Loc} {k : Loc}

theorem resolve_cons (h : t.resolve p = .ok d) (hc : c ≠ "..") (hn : t.node (c :: d) = some n)
    (hl : n.isLink = false) : t.resolve (c :: p) = .ok (c :: d) := by
  obtain ⟨r, hw⟩ := resolve_eq_ok_iff.1 h
  refine resolve_eq_ok_iff.2 ⟨r ++ [c :: d], ?_⟩
  rw [reverse_cons]
  exact hw.append (m := 0) (.into hc hn hl .done)

theorem resolve_of_cons (hw : Walks t maxLinks [] (c :: p).reverse r l) :
    ∃ d m r1 r2, Walks t maxLinks [] p.reverse r1 d ∧ Walks t m d [c] r2 l ∧ r = r1 ++ r2 := by
  rw [reverse_cons] at hw
  exact hw.split

theorem resolve_self (h : t.node l = some n) (hl : n.isLink = false) : t.resolve l = .ok l := by
  induction l generalizing n with
  | nil => exact resolve_eq_ok_iff.2 ⟨[], .done⟩
  | cons c d ih =>
    obtain ⟨hd, hc⟩ := node_parent h
    exact resolve_cons (ih hd rfl) hc h hl

theorem entry_self (h : t.node (c :: d) = some n) : t.entry (c :: d) = .ok (c :: d) := by
  obtain ⟨hd, hc⟩ := node_parent h
  rw [entry, if_neg hc, resolve_self hd rfl]
  exact if_pos hd

theorem entry_cons_iff : t.entry (c :: p) = .ok l ↔
    c ≠ ".." ∧ ∃ d, t.resolve p = .ok d ∧ t.node d = some .dir ∧ l = c :: d := by
  rw [entry]
  split
  next hc => exact ⟨nofun, fun h => absurd hc h.1⟩
  next hc =>
    cases hr : t.resolve p with
    | error e => exact ⟨nofun, fun ⟨_, _, h, _⟩ => (nomatch h)⟩
    | ok d =>
      dsimp only
      split
      next hd =>
        refine ⟨fun h => ⟨hc, d, rfl, hd, (Except.ok.inj h).symm⟩, ?_⟩
        intro h
        obtain ⟨_, d', hd', _, hl⟩ := h
        cases hd'
        rw [hl]
      next hd =>
        refine ⟨nofun, ?_⟩
        intro h
        obtain ⟨_, d', hd', hdir, _⟩ := h
        cases hd'
        exact absurd hdir hd

theorem resolve_of_entry (h : t.entry p = .ok l) (hn : t.node l = some n) (hl : n.isLink = false) :
    t.resolve p = .ok l := by
  cases p with
  | nil => exact h
  | cons c p =>
    obtain ⟨hc, d, hd, _, rfl⟩ := entry_cons_iff.1 h
    exact resolve_cons hd hc hn hl

theorem entry_of_resolve_file (h : t.resolve (c :: p) = .ok f) (hf : t.node f ≠ some .dir) :
    ∃ d m r n, t.entry (c :: p) = .ok (c :: d) ∧ Walks t m d [c] r f ∧
      t.node (c :: d) = some n ∧ n ≠ .dir := by
  obtain ⟨r, hw⟩ := resolve_eq_ok_iff.1 h
  obtain ⟨d, m, r1, r2, h1, h2, _⟩ := resolve_of_cons hw
  have hr : t.resolve p = .ok d := resolve_eq_ok_iff.2 ⟨r1, h1⟩
  cases h2 with
  | up hd hup =>
    cases hup
    exact absurd (node_tail hd) hf
  | @into _ _ _ _ _ _ n hc hn hl hrest =>
    have hfile : n ≠ .dir := by
      intro hdir
      subst hdir
      cases hrest
      exact hf hn
    have he := entry_cons_iff.2 ⟨hc, d, hr, (node_parent hn).1, rfl⟩
    exact ⟨d, m, _, n, he, .into hc hn hl hrest, hn, hfile⟩
  | @jump n' _ _ _ _ target _ absolute hc hn hrest =>
    have he := entry_cons_iff.2 ⟨hc, d, hr, (node_parent hn).1, rfl⟩
    exact ⟨d, n' + 1, _, _, he, .jump hc hn hrest, hn, nofun⟩

theorem not_suffix_cons (c : String) (d : Loc) : ¬ c :: d <:+ d := by
  intro h
  have := h.length_le
  rw [length_cons] at this
  omega

theorem node_suffix (h : t.node d = some .dir) (hk : k <:+ d) : t.node k = some .dir := by
  induction d with
  | nil => rw [suffix_nil.1 hk]; exact h
  | cons c d ih =>
    rcases suffix_cons_iff.1 hk with hk | hk
    · rw [hk]; exact h
    · exact ih (node_parent h).1 hk

/-! ## Places -/

/-- Where a path is a directory, or will be one once its missing directories are made. -/
def dirPlace (t : Tree) : Path → Option Loc
  | [] => some []
  | c :: p =>
    match t.resolve (c :: p) with
    | .ok l => if t.node l = some .dir then some l else none
    | .error _ =>
      match t.dirPlace p with
      | none => none
      | some d => if c ≠ ".." ∧ t.node (c :: d) = none then some (c :: d) else none

/-- Where the entry of a path will be once the directories above it are made. -/
def place (t : Tree) : Path → Option Loc
  | [] => none
  | c :: p => if c = ".." then none else (t.dirPlace p).map (c :: ·)

theorem dirPlace_of_resolve (h : t.resolve p = .ok d) (hd : t.node d = some .dir) :
    t.dirPlace p = some d := by
  cases p with
  | nil => cases h; rfl
  | cons c p => rw [dirPlace, h]; exact if_pos hd

theorem of_dirPlace_cons (h : t.dirPlace (c :: p) = some d) :
    (t.resolve (c :: p) = .ok d ∧ t.node d = some .dir) ∨
    (∃ e, t.resolve (c :: p) = .error e) ∧
      ∃ d', t.dirPlace p = some d' ∧ c ≠ ".." ∧ t.node (c :: d') = none ∧ d = c :: d' := by
  rw [dirPlace] at h
  cases hr : t.resolve (c :: p) with
  | ok l =>
    rw [hr] at h
    dsimp only at h
    split at h
    next hl => cases h; exact .inl ⟨rfl, hl⟩
    next => cases h
  | error e =>
    rw [hr] at h
    dsimp only at h
    split at h
    · cases h
    next d' hd' =>
      split at h
      next hn => cases h; exact .inr ⟨⟨e, rfl⟩, d', hd', hn.1, hn.2, rfl⟩
      next => cases h

theorem of_dirPlace (h : t.dirPlace p = some d) :
    (t.resolve p = .ok d ∧ t.node d = some .dir) ∨
    ((∀ l, t.resolve p ≠ .ok l) ∧ t.node d = none) := by
  cases p with
  | nil => cases h; exact .inl ⟨rfl, t.node_nil⟩
  | cons c p =>
    rcases of_dirPlace_cons h with hr | ⟨⟨e, hr⟩, d', _, _, hn, rfl⟩
    · exact .inl hr
    · exact .inr ⟨by simp [hr], hn⟩

theorem dirPlace_suffix (h : t.dirPlace p = some d) (hk : k <:+ d) :
    t.node k = none ∨ t.node k = some .dir := by
  induction p generalizing d with
  | nil =>
    cases h
    rw [suffix_nil.1 hk]
    exact .inr t.node_nil
  | cons c p ih =>
    rcases of_dirPlace_cons h with ⟨_, hd⟩ | ⟨_, d', hd', _, hn, rfl⟩
    · exact .inr (node_suffix hd hk)
    · rcases suffix_cons_iff.1 hk with hk | hk
      · rw [hk]; exact .inl hn
      · exact ih hd' hk

/-- Everything is kept, and what was missing of a directory's location is made. -/
def Made (t t' : Tree) (d : Loc) : Prop :=
  ∀ k, t'.node k = if k <:+ d ∧ t.node k = none then some .dir else t.node k

theorem Made.keep (h : Made t t' d) (hk : t.node k = some n) : t'.node k = some n := by
  rw [h k, if_neg (fun hx => by rw [hk] at hx; exact nomatch hx.2), hk]

theorem resolve_of_keep (hk : ∀ k n, t.node k = some n → t'.node k = some n)
    (h : t.resolve p = .ok l) : t'.resolve p = .ok l := by
  obtain ⟨r, hw⟩ := resolve_eq_ok_iff.1 h
  exact resolve_eq_ok_iff.2 ⟨r, hw.keep (fun k _ n hn => ⟨n, hk k n hn, .refl n⟩) (keeps_nil t t')⟩

theorem entry_of_keep (hk : ∀ k n, t.node k = some n → t'.node k = some n)
    (h : t.entry p = .ok l) : t'.entry p = .ok l := by
  cases p with
  | nil => exact h
  | cons c p =>
    obtain ⟨hc, d, hd, hdir, hl⟩ := entry_cons_iff.1 h
    exact entry_cons_iff.2 ⟨hc, d, resolve_of_keep hk hd, hk d _ hdir, hl⟩

theorem keep_of_free (hl : t.node l = none)
    (h : ∀ k, t'.node k = if k = l then some n' else t.node k) (k : Loc) (n : Node)
    (hk : t.node k = some n) : t'.node k = some n := by
  rw [h, if_neg, hk]
  intro hx
  rw [hx, hl] at hk
  cases hk

theorem stat_eq_dir_iff : t.stat p = .ok .dir ↔ ∃ l, t.resolve p = .ok l ∧ t.node l = some .dir := by
  unfold stat read
  cases hr : t.resolve p with
  | error e => exact ⟨nofun, fun ⟨_, h, _⟩ => (nomatch h)⟩
  | ok l =>
    dsimp only
    cases hn : t.node l with
    | none =>
      refine ⟨nofun, ?_⟩
      intro h
      obtain ⟨l', hl, hd⟩ := h
      cases hl
      rw [hn] at hd
      cases hd
    | some n =>
      refine ⟨fun h => ⟨l, rfl, by rw [hn, Except.ok.inj h]⟩, ?_⟩
      intro h
      obtain ⟨l', hl, hd⟩ := h
      cases hl
      rw [hn] at hd
      rw [Option.some.inj hd]

theorem mkdir_eq_ok (hr : t.resolve p = .ok d) (hc : c ≠ "..") (hd : t.node d = some .dir)
    (hn : t.node (c :: d) = none) :
    ∃ t', t.mkdir (c :: p) = .ok t' ∧
      ∀ k, t'.node k = if k = c :: d then some .dir else t.node k := by
  have he : t.entry (c :: p) = .ok (c :: d) := entry_cons_iff.2 ⟨hc, d, hr, hd, rfl⟩
  unfold mkdir
  rw [he]
  dsimp only
  rw [dif_pos ⟨hc, hd, hn⟩]
  exact ⟨_, rfl, node_put hc hd _⟩

/-- **Making directories.** Where the path has a place, the missing directories are made. -/
theorem mkdirAll_spec (h : t.dirPlace p = some d) :
    ∃ t', t.mkdirAll p = .ok t' ∧ Made t t' d ∧ t'.resolve p = .ok d ∧ t'.node d = some .dir := by
  induction p generalizing d with
  | nil =>
    cases h
    refine ⟨t, rfl, ?_, rfl, t.node_nil⟩
    intro k
    rw [if_neg]
    intro hk
    rw [suffix_nil.1 hk.1, t.node_nil] at hk
    exact nomatch hk.2
  | cons c p ih =>
    rcases of_dirPlace_cons h with ⟨hr, hd⟩ | ⟨⟨e, hr⟩, d', hd', hc, hn, rfl⟩
    · refine ⟨t, ?_, ?_, hr, hd⟩
      · rw [mkdirAll, stat_eq_dir_iff.2 ⟨d, hr, hd⟩]
      · intro k
        rw [if_neg]
        intro hk
        rw [node_suffix hd hk.1] at hk
        exact nomatch hk.2
    · obtain ⟨t1, h1, hmade, hres, hdir⟩ := ih hd'
      have hfree : t1.node (c :: d') = none := by
        rw [hmade, if_neg (fun hx => not_suffix_cons c _ hx.1)]
        exact hn
      obtain ⟨t2, h2, hnode⟩ := mkdir_eq_ok hres hc hdir hfree
      have hkeep := keep_of_free hfree hnode
      have hnew : t2.node (c :: d') = some .dir := by rw [hnode, if_pos rfl]
      refine ⟨t2, ?_, ?_, resolve_cons (resolve_of_keep hkeep hres) hc hnew rfl, hnew⟩
      · rw [mkdirAll, stat, hr]
        simp only [read, h1, h2]
      · intro k
        rw [hnode, hmade k]
        simp only [suffix_cons_iff]
        rcases Classical.em (k = c :: d') with hk | hk
        · subst hk
          simp [hn]
        · simp [hk]

theorem dirPlace_of_mkdirAll (h : t.mkdirAll p = .ok t') : ∃ d, t.dirPlace p = some d := by
  induction p generalizing t' with
  | nil => exact ⟨[], rfl⟩
  | cons c p ih =>
    rw [mkdirAll] at h
    cases hs : t.stat (c :: p) with
    | ok n =>
      rw [hs] at h
      cases n with
      | dir =>
        obtain ⟨l, hr, hl⟩ := stat_eq_dir_iff.1 hs
        exact ⟨l, dirPlace_of_resolve hr hl⟩
      | file | link => cases h
    | error e =>
      rw [hs] at h
      have hr : ∀ l, t.resolve (c :: p) ≠ .ok l := by
        intro l hl
        obtain ⟨n, hn, _⟩ := exists_of_resolve hl
        rw [stat, hl] at hs
        simp only [read, hn] at hs
        cases hs
      cases h1 : t.mkdirAll p with
      | error e => rw [h1] at h; cases h
      | ok t1 =>
        rw [h1] at h
        dsimp only at h
        obtain ⟨d, hd⟩ := ih h1
        obtain ⟨t1', h1', hmade, hres, hdir⟩ := mkdirAll_spec hd
        rw [h1] at h1'
        cases h1'
        have hc : c ≠ ".." := by
          intro hc
          have he : t1.entry (c :: p) = .error .invalid := by rw [entry, if_pos hc]
          simp only [mkdir, lstat, he, read] at h
          exact nomatch h
        have he : t1.entry (c :: p) = .ok (c :: d) := entry_cons_iff.2 ⟨hc, d, hres, hdir, rfl⟩
        have hnode : t1.node (c :: d) = t.node (c :: d) := by
          rw [hmade, if_neg (fun hx => not_suffix_cons c _ hx.1)]
        have hfree : t.node (c :: d) = none := by
          cases hn : t.node (c :: d) with
          | none => rfl
          | some n =>
            -- a name that is taken is not made, and a directory of this name would have resolved
            have hlink : n = .dir → False := by
              intro hdir'
              subst hdir'
              rcases of_dirPlace hd with ⟨hr', _⟩ | ⟨_, hnone⟩
              · exact hr _ (resolve_cons hr' hc hn rfl)
              · rw [(node_parent hn).1] at hnone; cases hnone
            have hm : ∃ e, t1.mkdir (c :: p) = .error e := by
              refine ⟨.alreadyExists, ?_⟩
              simp only [mkdir, he]
              rw [dif_neg]
              intro hx
              rw [hnode, hn] at hx
              exact nomatch hx.2.2
            obtain ⟨e', hm⟩ := hm
            rw [hm] at h
            simp only [lstat, read, he, hnode, hn] at h
            split at h
            next hdir' => exact absurd (Except.ok.inj hdir') hlink
            next => cases h
        refine ⟨c :: d, ?_⟩
        rw [dirPlace]
        cases hr' : t.resolve (c :: p) with
        | ok l => exact absurd hr' (hr l)
        | error e' =>
          simp only [hd]
          exact if_pos ⟨hc, hfree⟩

/-! ## Creating, replacing and removing files -/

def Created (t t' : Tree) (l : Loc) (n : Node) : Prop :=
  ∀ k, t'.node k = if k = l then some n else if k <:+ l ∧ t.node k = none then some .dir
    else t.node k

theorem of_place (h : t.place p = some l) :
    ∃ c q d, p = c :: q ∧ c ≠ ".." ∧ t.dirPlace q = some d ∧ l = c :: d := by
  cases p with
  | nil => cases h
  | cons c q =>
    rw [place] at h
    split at h
    · cases h
    next hc =>
      obtain ⟨d, hd, hl⟩ := Option.map_eq_some_iff.1 h
      exact ⟨c, q, d, rfl, hc, hd, hl.symm⟩

theorem place_suffix (h : t.place p = some l) (hk : k <:+ l) (hne : k ≠ l) :
    t.node k = none ∨ t.node k = some .dir := by
  obtain ⟨c, q, d, _, _, hd, hl⟩ := of_place h
  subst hl
  rcases suffix_cons_iff.1 hk with hk | hk
  · exact absurd hk hne
  · exact dirPlace_suffix hd hk

theorem node_place (h : t.place p = some l) (hn : t.lstat p = .error .noEntry) :
    t.node l = none := by
  obtain ⟨c, q, d, hp, hc, hd, hl⟩ := of_place h
  subst hp hl
  rcases of_dirPlace hd with ⟨hr, hdir⟩ | ⟨_, hnone⟩
  · rw [lstat, entry_cons_iff.2 ⟨hc, d, hr, hdir, rfl⟩] at hn
    unfold read at hn
    dsimp only at hn
    split at hn
    next h => exact h
    next => cases hn
  · exact node_cons_eq_none (by simp [hnone]) c

theorem publish_spec (he : t.entry p = .ok (c :: d)) (hn : t.node (c :: d) ≠ some .dir)
    (content : List UInt8) (mode : Nat) :
    ∃ t', t.publish p content mode = .ok t' ∧
      ∀ k, t'.node k = if k = c :: d then some (.file content mode) else t.node k := by
  have hcd : c ≠ ".." ∧ t.node d = some .dir := by
    cases p with
    | nil => cases he
    | cons c' q =>
      obtain ⟨hc, d', _, hd, hl⟩ := entry_cons_iff.1 he
      cases hl
      exact ⟨hc, hd⟩
  unfold publish
  rw [he]
  dsimp only
  rw [dif_pos ⟨hcd.1, hcd.2, hn⟩]
  exact ⟨_, rfl, node_put hcd.1 hcd.2 hn⟩

theorem of_publish {mode : Nat} (h : t.publish p content mode = .ok t') :
    ∃ c d, t.entry p = .ok (c :: d) ∧ t.node (c :: d) ≠ some .dir ∧
      ∀ k, t'.node k = if k = c :: d then some (.file content mode) else t.node k := by
  unfold publish at h
  split at h
  · cases h
  · cases h
  next c d he =>
    split at h
    next hcd => cases h; exact ⟨c, d, he, hcd.2.2, node_put hcd.1 hcd.2.1 hcd.2.2⟩
    next => cases h

/-- **Creating a file.** Where the path has a free place, the directories above it are made and the
file is published. -/
theorem create_spec (h : t.place p = some l) (hn : t.node l = none) (content : List UInt8)
    (mode : Nat) :
    ∃ t1 t', t.mkdirAll p.tail = .ok t1 ∧ t1.publishNew p content mode = .ok t' ∧
      Created t t' l (.file content mode) ∧ t'.entry p = .ok l := by
  obtain ⟨c, q, d, hp, hc, hd, hl⟩ := of_place h
  subst hp hl
  obtain ⟨t1, h1, hmade, hres, hdir⟩ := mkdirAll_spec hd
  have he : t1.entry (c :: q) = .ok (c :: d) := entry_cons_iff.2 ⟨hc, d, hres, hdir, rfl⟩
  have hfree : t1.node (c :: d) = none := by
    rw [hmade, if_neg (fun hx => not_suffix_cons c _ hx.1)]
    exact hn
  obtain ⟨t', h', hnode⟩ := publish_spec he (by simp [hfree]) content mode
  refine ⟨t1, t', h1, ?_, ?_, entry_of_keep (keep_of_free hfree hnode) he⟩
  · rw [publishNew, he]
    dsimp only
    rw [if_pos hfree]
    exact h'
  · intro k
    rw [hnode, hmade k]
    simp only [suffix_cons_iff]
    rcases Classical.em (k = c :: d) with hk | hk
    · simp [hk]
    · simp [hk]

theorem place_of_create {mode : Nat} (hp : p ≠ []) (h1 : t.mkdirAll p.tail = .ok t1)
    (h' : t1.publishNew p content mode = .ok t') : ∃ l, t.place p = some l ∧ t.node l = none := by
  cases p with
  | nil => exact absurd rfl hp
  | cons c q =>
    rw [tail_cons] at h1
    obtain ⟨d, hd⟩ := dirPlace_of_mkdirAll h1
    obtain ⟨t1', h1', hmade, hres, hdir⟩ := mkdirAll_spec hd
    rw [h1] at h1'
    cases h1'
    unfold publishNew at h'
    split at h'
    · cases h'
    next l he =>
      obtain ⟨hc, d', hd', _, hl⟩ := entry_cons_iff.1 he
      rw [hres] at hd'
      cases hd'
      subst hl
      refine ⟨c :: d, by rw [place, if_neg hc, hd]; rfl, ?_⟩
      split at h'
      next hfree =>
        rw [hmade, if_neg (fun hx => not_suffix_cons c _ hx.1)] at hfree
        exact hfree
      next => cases h'

theorem remove_spec (he : t.entry p = .ok (c :: d)) (hn : t.node (c :: d) = some n)
    (hdir : n ≠ .dir) :
    ∃ t', t.remove p = .ok t' ∧ ∀ k, t'.node k = if k = c :: d then none else t.node k := by
  have hne : t.node (c :: d) ≠ some .dir := by
    rw [hn]
    exact fun h => hdir (Option.some.inj h)
  have hem := hasEntries_eq_false hne
  unfold remove
  rw [he]
  dsimp only
  rw [if_neg (by rw [hn]; exact nofun), dif_pos hem]
  exact ⟨_, rfl, node_erase hem⟩

theorem of_remove (h : t.remove p = .ok t') :
    ∃ c d, t.entry p = .ok (c :: d) ∧ ∀ k, t'.node k = if k = c :: d then none else t.node k := by
  unfold remove at h
  split at h
  · cases h
  · cases h
  next c d he =>
    split at h
    · cases h
    · split at h
      next hem => cases h; exact ⟨c, d, he, node_erase hem⟩
      next => cases h

/-! ## Trees changed at files -/

def ToFile (t : Tree) (k : Loc) : Prop :=
  ∃ c d m r f, k = c :: d ∧ Walks t m d [c] r f ∧ t.node f ≠ some .dir

theorem ToFile.rest_nil (h : ToFile t (c :: d)) {n : Nat} (hw : Walks t n d (c :: rest) r l) :
    rest = [] := by
  obtain ⟨c', d', m, r', f, heq, hf, hfile⟩ := h
  cases heq
  obtain ⟨f', m', r1, r2, h1, h2, _⟩ := Walks.split (a := [c]) hw
  rw [← (h1.unique hf).2] at h2
  exact (h2.of_not_dir hfile).1

/-- The later tree keeps every entry of the earlier one that leads to a directory. -/
def Within (t t' : Tree) : Prop := ∀ k, Walks.Keeps t t' k ∨ ToFile t k

namespace Within

theorem refl (t : Tree) : Within t t := fun _ => .inl (.of_eq rfl)

section
variable (hw : Within t t')
include hw

theorem keeps_of_mem {n : Nat} (h : Walks t n d names r l)
    (hl : t.node l = some .dir) (hk : k ∈ r) : Walks.Keeps t t' k := by
  rcases hw k with hkeep | ⟨c, d', m, r', f, rfl, hf, hfile⟩
  · exact hkeep
  · exact absurd hk (h.not_file hl hf hfile)

theorem node_dir (hd : t.node d = some .dir) : t'.node d = some .dir := by
  rcases hw d with hkeep | ⟨c, d', m, r', f, rfl, hf, hfile⟩
  · exact hkeep.dir hd
  · obtain ⟨_, hc⟩ := node_parent hd
    have hself : Walks t 0 d' [c] [c :: d'] (c :: d') := .into hc hd rfl .done
    rw [(hself.unique hf).2] at hfile
    exact absurd hd hfile

/-- **Paths to directories lead where they led.** -/
theorem resolve_dir (h : t.resolve p = .ok d) (hd : t.node d = some .dir) :
    t'.resolve p = .ok d := by
  obtain ⟨r, hr⟩ := resolve_eq_ok_iff.1 h
  exact resolve_eq_ok_iff.2 ⟨r, hr.keep (fun k hk => hw.keeps_of_mem hr hd hk) (keeps_nil t t')⟩

theorem entry (h : t.entry p = .ok l) : t'.entry p = .ok l := by
  cases p with
  | nil => exact h
  | cons c p =>
    obtain ⟨hc, d, hd, hdir, hl⟩ := entry_cons_iff.1 h
    exact entry_cons_iff.2 ⟨hc, d, hw.resolve_dir hd hdir, hw.node_dir hdir, hl⟩

/-- **Places stay** as long as nothing but directories was made above them. -/
theorem dirPlace (h : t.dirPlace p = some d)
    (hfree : ∀ k, k <:+ d → t.node k = none → t'.node k = none ∨ t'.node k = some .dir) :
    t'.dirPlace p = some d := by
  induction p generalizing d with
  | nil => exact h
  | cons c p ih =>
    rcases of_dirPlace_cons h with ⟨hr, hd⟩ | ⟨_, d0, hd0, hc, hn, rfl⟩
    · exact dirPlace_of_resolve (hw.resolve_dir hr hd) (hw.node_dir hd)
    have ihd := ih hd0 fun k hk => hfree k (suffix_cons_iff.2 (.inr hk))
    rcases hfree _ (suffix_refl _) hn with hnone | hdir
    · rw [dirPlace, ihd]
      cases hr : t'.resolve (c :: p) with
      | error e => exact if_pos ⟨hc, hnone⟩
      | ok l =>
        -- the path would have to lead through the free place
        obtain ⟨r, hwalk⟩ := resolve_eq_ok_iff.1 hr
        obtain ⟨d', m, r1, r2, h1, h2, _⟩ := resolve_of_cons hwalk
        have hres : t'.resolve p = .ok d' := resolve_eq_ok_iff.2 ⟨r1, h1⟩
        have hd' : d' = d0 := by
          rcases of_dirPlace ihd with ⟨hr0, _⟩ | ⟨hr0, _⟩
          · rw [hres] at hr0; exact Except.ok.inj hr0
          · exact absurd hres (hr0 d')
        subst hd'
        cases h2 with
        | up => exact absurd rfl hc
        | into _ hn | jump _ hn => rw [hnone] at hn; cases hn
    · have hd0' := (node_parent hdir).1
      rcases of_dirPlace ihd with ⟨hr0, _⟩ | ⟨_, hnone⟩
      · exact dirPlace_of_resolve (resolve_cons hr0 hc hdir rfl) hdir
      · rw [hd0'] at hnone; cases hnone

theorem place (h : t.place p = some l)
    (hfree : ∀ k, k <:+ l → k ≠ l → t.node k = none → t'.node k = none ∨ t'.node k = some .dir) :
    t'.place p = some l := by
  obtain ⟨c, q, d, hp, hc, hd, hl⟩ := of_place h
  subst hp hl
  have hd' := hw.dirPlace hd fun k hk => hfree k (suffix_cons_iff.2 (.inr hk)) (by
    intro hx
    rw [hx] at hk
    exact not_suffix_cons c d hk)
  rw [place, if_neg hc, hd']
  rfl

end

end Within

/-- The later tree made no links, and keeps every entry of the earlier one that leads to a
directory. -/
structure Settled (t t' : Tree) : Prop where
  links : ∀ k a target, t'.node k = some (.link a target) → t.node k = some (.link a target)
  within : Within t t'

namespace Settled

theorem refl (t : Tree) : Settled t t := ⟨fun _ _ _ h => h, .refl t⟩

section
variable (hw : Settled t t')
include hw

theorem keeps_or_file (k : Loc) :
    Walks.Keeps t t' k ∨ (ToFile t k ∧ ∀ a target, t'.node k ≠ some (.link a target)) := by
  rcases hw.within k with hkeep | hfile
  · exact .inl hkeep
  · by_cases hlink : ∃ a target, t'.node k = some (.link a target)
    · obtain ⟨a, target, hn⟩ := hlink
      exact .inl (.of_eq (hn.trans (hw.links k a target hn).symm))
    · exact .inr ⟨hfile, fun a target hn => hlink ⟨a, target, hn⟩⟩

theorem of_changes {t'' : Tree}
    (h : ∀ k, t''.node k = t'.node k ∨ ((∀ a target, t''.node k ≠ some (.link a target)) ∧
      (Walks.Keeps t t'' k ∨ ToFile t k))) : Settled t t'' := by
  refine ⟨fun k a target hk => ?_, fun k => ?_⟩
  · rcases h k with hsame | ⟨hlink, _⟩
    · exact hw.links k a target (hsame ▸ hk)
    · exact absurd hk (hlink a target)
  · rcases h k with hsame | ⟨_, hkept⟩
    · refine (hw.within k).imp_left fun hkeep n hn => ?_
      rw [hsame]
      exact hkeep n hn
    · exact hkept

theorem of_none (hk : t'.node k = none) : t.node k = none ∨ ToFile t k := by
  rcases hw.within k with hkeep | hfile
  · cases hn : t.node k with
    | none => exact .inl rfl
    | some n =>
      obtain ⟨n', hn', _⟩ := hkeep n hn
      rw [hk] at hn'
      cases hn'
  · exact .inr hfile

/-- **A walk strays** at most to its own route. -/
theorem strays {n m : Nat} (h : Walks t n d names r l) (hd : Walks.Keeps t t' d)
    (h' : Walks t' m d names r' l') : l' = l ∨ l' ∈ r := by
  rcases h.parts hd h' with hkept | ⟨c, d', rest, _, _, _, _, hk, hc, hlost, hpart, hpart'⟩
  · exact .inl ((h.keep hkept hd).unique h').2
  · obtain ⟨hfile, hlink⟩ := (hw.keeps_or_file _).resolve_left hlost
    obtain rfl := hfile.rest_nil hpart
    exact .inr (hpart'.single hc hlink ▸ hk)

/-- **A directory that is placed in both trees** has the same place. -/
theorem dirPlace_eq (h : t.dirPlace p = some d) (h' : t'.dirPlace p = some d') : d' = d := by
  induction p generalizing d d' with
  | nil => cases h; cases h'; rfl
  | cons c p ih =>
    rcases of_dirPlace_cons h with ⟨hr, hd⟩ | ⟨_, d0, hd0, hc, hn, rfl⟩
    · rw [dirPlace_of_resolve (hw.within.resolve_dir hr hd) (hw.within.node_dir hd)] at h'
      exact (Option.some.inj h').symm
    rcases of_dirPlace_cons h' with ⟨hr, _⟩ | ⟨_, d1, hd1, _, _, rfl⟩
    · -- the path leads through the place of its parent, where no link was made
      obtain ⟨r, hwalk⟩ := resolve_eq_ok_iff.1 hr
      obtain ⟨x, m, r1, r2, h1, h2, _⟩ := resolve_of_cons hwalk
      have hx : t'.resolve p = .ok x := resolve_eq_ok_iff.2 ⟨r1, h1⟩
      cases h2 with
      | up => exact absurd rfl hc
      | into _ hn _ hdone =>
        cases hdone
        rw [ih hd0 (dirPlace_of_resolve hx (node_parent hn).1)]
      | jump _ hlink =>
        rw [ih hd0 (dirPlace_of_resolve hx (node_parent hlink).1)] at hlink
        rw [hw.links _ _ _ hlink] at hn
        cases hn
    · rw [ih hd0 hd1]

theorem place_eq (h : t.place p = some l) (h' : t'.place p = some l') : l' = l := by
  obtain ⟨c, q, d, hp, _, hd, hl⟩ := of_place h
  obtain ⟨c', q', d', hp', _, hd', hl'⟩ := of_place h'
  subst hp hl hl'
  cases hp'
  rw [hw.dirPlace_eq hd hd']

end

end Settled

/-- The later tree made no links, and changed only such entries of the earlier one as lead to files,
which no directory replaced. -/
structure Worn (t t' : Tree) : Prop where
  links : ∀ k a target, t'.node k = some (.link a target) → t.node k = some (.link a target)
  kept : ∀ k, Walks.Keeps t t' k ∨ (ToFile t k ∧ t'.node k ≠ some .dir)

namespace Worn

theorem settled (hw : Worn t t') : Settled t t' :=
  ⟨hw.links, fun k => (hw.kept k).imp_right And.left⟩

theorem within (hw : Worn t t') : Within t t' := hw.settled.within

theorem of_changes {t'' : Tree} (hw : Worn t t')
    (h : ∀ k, t''.node k = t'.node k ∨ ((∀ a target, t''.node k ≠ some (.link a target)) ∧
      (Walks.Keeps t t'' k ∨ (ToFile t k ∧ t''.node k ≠ some .dir)))) : Worn t t'' := by
  have hsettled := hw.settled.of_changes fun k => (h k).imp_right fun ⟨hlink, hkept⟩ =>
    ⟨hlink, hkept.imp_right And.left⟩
  refine ⟨hsettled.links, fun k => ?_⟩
  rcases h k with hsame | ⟨_, hkept⟩
  · rcases hw.kept k with hkeep | hfile
    · refine .inl fun n hn => ?_
      rw [hsame]
      exact hkeep n hn
    · rw [hsame]
      exact .inr hfile
  · exact hkept

end Worn

end Tree

end Files
