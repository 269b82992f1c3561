import Peen.Base
import Peen.Lib.Paths
import Peen.Tools.ApplyPatch

/-!
# What a prepared patch does

Every action of a patch is prepared against the same filesystem, so what it is to change has a place
there: the file an update's path leads to, the entry a delete or a move takes out, the place a new
file will have (`changes`).
-/

namespace Peen.Tools

open List Files Files.Tree

/-! ## Changes and their places -/

/-- What an action is to change. -/
inductive Change where
  | write (l : Loc) (n : Node)
  | erase (l : Loc)
  | create (l : Loc) (n : Node)

def Change.loc : Change → Loc
  | .write l _ | .erase l | .create l _ => l

open Change

def Change.after : Change → Option Node
  | .write _ n | .create _ n => some n
  | .erase _ => none

def PreparedPatchAction.file (item : PreparedPatchAction) : Node := .file item.newContent item.mode

def PreparedPatchAction.newPath (item : PreparedPatchAction) : Option Path :=
  match item.operation with
  | .add => some item.path
  | .move => some item.destination
  | .update | .delete => none

open PreparedPatchAction (newPath)

section
variable (t : Tree) (items : List PreparedPatchAction) (item : PreparedPatchAction)

def writeChange : List Change :=
  match t.resolve item.path with
  | .ok l => [.write l item.file]
  | .error _ => []

def eraseChange : List Change :=
  match t.entry item.path with
  | .ok l => [.erase l]
  | .error _ => []

def createChange (path : Path) : List Change :=
  match t.place path with
  | some l => [.create l item.file]
  | none => []

/-- The changes of an action, at their places in the tree. -/
def changes : List Change :=
  match item.operation with
  | .add => createChange t item item.path
  | .update => writeChange t item
  | .delete => eraseChange t item
  | .move => createChange t item item.destination ++ eraseChange t item

/-- The later tree has these changes and, apart from directories made for new files, no others. -/
structure Effect (t t' : Tree) (cs : List Change) : Prop where
  changed : ∀ c ∈ cs, t'.node c.loc = c.after
  other : ∀ l, (∀ c ∈ cs, c.loc ≠ l) → t'.node l = t.node l ∨
    (t.node l = none ∧ t'.node l = some .dir ∧ ∃ k n, .create k n ∈ cs ∧ l <:+ k)

/-- **Applied as written**: no action fails, no two actions change the same place, and the filesystem
ends up with the changes of all of them. -/
structure Applied (e : Executor) (s : ToolState) (items : List PreparedPatchAction) : Prop where
  succeeds : (applyPreparedPatch e s items).err = none
  apart : ((items.flatMap (changes s.files)).map loc).Nodup
  effect : Effect s.files (applyPreparedPatch e s items).state.files
    (items.flatMap (changes s.files))

def Clear (cs : List Change) : Prop :=
  ∀ k n l m, .create k n ∈ cs → .create l m ∈ cs → k ≠ l → ¬ k <:+ l

def Placed : Prop :=
  ∀ item ∈ items, ∀ p, item.newPath = some p → ∃ l, t.place p = some l

/-- No update goes through a link an earlier action takes out. -/
def LinksStay : Prop :=
  items.Pairwise fun i j => ∀ l r f, .erase l ∈ changes t i → j.operation = .update →
    Walks t maxLinks [] j.path.reverse r f → l ∉ r

/-- The places of a patch's changes do not get into each other's way. -/
structure Independent (t : Tree) (items : List PreparedPatchAction) : Prop where
  placed : Placed t items
  apart : ((items.flatMap (changes t)).map loc).Nodup
  clear : Clear (items.flatMap (changes t))
  links : LinksStay t items

/-! ## What preparation guarantees -/

def IsFile (n : Node) : Prop := ∃ content mode, n = .file content mode

/-- What a change is about before the patch: a file is written, an entry that leads to a file is taken
out, nothing is where a file is created. -/
def Change.Valid : Change → Prop
  | .write l n => (∃ m, t.node l = some m ∧ IsFile m) ∧ IsFile n
  | .erase l => ToFile t l ∧ ∃ n, t.node l = some n ∧ n ≠ .dir
  | .create l n => t.node l = none ∧ IsFile n

end

/-- What the action was prepared on is there. -/
structure ItemReady (t : Tree) (item : PreparedPatchAction) : Prop where
  reads : item.operation = .update ∨ item.operation = .delete ∨ item.operation = .move →
    ∃ f, t.resolve item.path = .ok f ∧ t.node f = some (.file item.oldContent item.mode)
  free : ∀ p, item.newPath = some p → t.lstat p = .error .noEntry

section Prepare
theorem of_readRegularFile {maximum : Nat} {mode : Nat}
    (h : readRegularFile t path maximum = .ok (content, mode)) :
    ∃ f, t.resolve path = .ok f ∧ t.node f = some (.file content mode) := by
  unfold readRegularFile at h
  split at h
  · cases h
  next c m hs =>
    obtain ⟨_, h⟩ := of_check h
    cases h
    unfold Tree.stat Tree.read at hs
    split at hs
    · cases hs
    next l hl =>
      split at hs
      · cases hs
      next n hn =>
        cases hs
        exact ⟨l, hl, hn⟩
  · cases h

theorem of_requireFree (h : requireFree t path m m' = .ok u) : t.lstat path = .error .noEntry := by
  unfold requireFree at h
  split at h
  · cases h
  next hs => exact hs
  · cases h

theorem ready_of_preparePatchAdd {item : PreparedPatchAction} (hop : item.operation = .add)
    (h : preparePatchAdd e s item content = .ok item') : ItemReady s.files item' := by
  obtain ⟨_, h⟩ := of_check h
  obtain ⟨_, hfree, h⟩ := of_bind h
  cases h
  refine ⟨?_, ?_⟩
  · intro hx
    rw [show _ = PatchOperation.add from hop] at hx
    rcases hx with hx | hx | hx <;> cases hx
  · intro p hp
    rw [show newPath _ = some item.path by
      simp only [newPath, hop]] at hp
    cases hp
    exact of_requireFree hfree

theorem ready_of_preparePatchUpdate {item : PreparedPatchAction}
    (hop : item.operation = .update ∨ item.operation = .move)
    (h : preparePatchUpdate e s item hunks = .ok item') : ItemReady s.files item' := by
  obtain ⟨_, hpaths, h⟩ := of_bind h
  obtain ⟨⟨content, mode⟩, hread, h⟩ := of_bind h
  obtain ⟨_, _, h⟩ := of_bind h
  obtain ⟨_, _, h⟩ := of_bind h
  obtain ⟨rewritten, _, h⟩ := of_bind h
  split at h
  · cases h
  cases h
  refine ⟨fun _ => of_readRegularFile hread, ?_⟩
  intro p hp
  rcases hop with hop | hop
  · rw [show newPath _ = none by
      simp only [newPath, hop]] at hp
    cases hp
  · rw [show newPath _ = some item.destination by
      simp only [newPath, hop]] at hp
    cases hp
    unfold validatePatchUpdatePaths at hpaths
    rw [if_neg (fun hx => hx hop)] at hpaths
    split at hpaths
    · cases hpaths
    · exact of_requireFree hpaths

theorem ready_of_preparePatchDelete {item : PreparedPatchAction} (hop : item.operation = .delete)
    (h : preparePatchDelete e s item = .ok item') : ItemReady s.files item' := by
  obtain ⟨_, h⟩ := of_check h
  obtain ⟨⟨content, mode⟩, hread, h⟩ := of_bind h
  obtain ⟨_, _, h⟩ := of_bind h
  cases h
  refine ⟨fun _ => of_readRegularFile hread, ?_⟩
  intro p hp
  rw [show newPath _ = none by
    simp only [newPath, hop]] at hp
  cases hp

theorem forall_of_preparePatch {P : PreparedPatchAction → Prop} {actions : List PatchAction}
    {items : List PreparedPatchAction} (h : preparePatch e s actions = .ok items)
    (hP : ∀ action ∈ actions, ∀ claimed path destination claimed' item,
      claimPatchPaths e action claimed = .ok (path, destination, claimed') →
      prepareOperation e s action ⟨action.operation, path, destination, [], [], 0⟩ = .ok item →
      P item) : ∀ item ∈ items, P item := by
  unfold preparePatch at h
  generalize ([] : List Path) = claimed at h
  generalize 0 = changed at h
  induction actions generalizing claimed changed items with
  | nil => cases h; exact nofun
  | cons action actions ih =>
    obtain ⟨⟨item, claimed'⟩, hitem, h⟩ := of_bind h
    obtain ⟨_, h⟩ := of_check h
    obtain ⟨rest, hrest, h⟩ := of_bind h
    cases h
    obtain ⟨⟨path, destination, claimed''⟩, hclm, hitem⟩ := of_bind hitem
    obtain ⟨item', hop, hitem⟩ := of_bind hitem
    cases hitem
    intro i hi
    rcases mem_cons.1 hi with hi | hi
    · subst hi
      exact hP action mem_cons_self _ _ _ _ _ hclm hop
    · exact ih (fun a ha => hP a (mem_cons_of_mem _ ha)) _ _ hrest i hi

/-- **What passes preparation is ready**: files that are to be read were read, and nothing was at the
paths of new files. -/
theorem ready_of_preparePatch (h : preparePatch e s actions = .ok items) :
    ∀ item ∈ items, ItemReady s.files item := by
  refine forall_of_preparePatch h fun action _ _ _ _ _ item _ hop => ?_
  unfold prepareOperation at hop
  split at hop
  next hadd => exact ready_of_preparePatchAdd hadd hop
  next hupd => exact ready_of_preparePatchUpdate (.inl hupd) hop
  next hmov => exact ready_of_preparePatchUpdate (.inr hmov) hop
  next hdel => exact ready_of_preparePatchDelete hdel hop

end Prepare

/-! ## One change at a time -/

section Changes
variable {S S' : Tree}

theorem ItemReady.writeChange_eq (hr : ItemReady t item) (hop : item.operation = .update) :
    ∃ l r, Walks t maxLinks [] item.path.reverse r l ∧
      t.node l = some (.file item.oldContent item.mode) ∧
      writeChange t item = [.write l item.file] := by
  obtain ⟨f, hf, hnode⟩ := hr.reads (.inl hop)
  obtain ⟨r, hw⟩ := resolve_eq_ok_iff.1 hf
  exact ⟨f, r, hw, hnode, by rw [writeChange, hf]⟩

theorem ItemReady.eraseChange_eq (hr : ItemReady t item)
    (hop : item.operation = .delete ∨ item.operation = .move) :
    ∃ l, t.entry item.path = .ok l ∧ eraseChange t item = [.erase l] ∧ (erase l).Valid t := by
  obtain ⟨f, hf, hnode⟩ := hr.reads (.inr hop)
  cases hp : item.path with
  | nil =>
    rw [hp] at hf
    cases hf
    rw [t.node_nil] at hnode
    cases hnode
  | cons name p =>
    rw [hp] at hf
    have hfile : t.node f ≠ some .dir := by rw [hnode]; exact nofun
    obtain ⟨d, m, r, n, he, hw, hn, hne⟩ := entry_of_resolve_file hf hfile
    exact ⟨name :: d, he, by rw [eraseChange, hp, he], ⟨name, d, m, r, f, rfl, hw, hfile⟩, n, hn, hne⟩

/-- **The changes of an action that is ready are valid.** -/
theorem valid_changes (hr : ItemReady t item) : ∀ c ∈ changes t item, c.Valid t := by
  have herase (hop : item.operation = .delete ∨ item.operation = .move) :
      ∀ c ∈ eraseChange t item, c.Valid t := by
    intro c hc
    obtain ⟨l, _, hec, hval⟩ := hr.eraseChange_eq hop
    rw [hec] at hc
    rw [mem_singleton.1 hc]
    exact hval
  have hcreate (p : Path) (hp : item.newPath = some p) :
      ∀ c ∈ createChange t item p, c.Valid t := by
    intro c hc
    unfold createChange at hc
    split at hc
    next l hl =>
      rw [mem_singleton.1 hc]
      exact ⟨node_place hl (hr.free p hp), _, _, rfl⟩
    next => cases hc
  intro c hc
  unfold changes at hc
  cases hop : item.operation with
  | add =>
    rw [hop] at hc
    exact hcreate _ (by simp only [newPath, hop]) c hc
  | update =>
    obtain ⟨l, r, _, hnode, hwc⟩ := hr.writeChange_eq hop
    rw [hop] at hc
    rw [hwc] at hc
    rw [mem_singleton.1 hc]
    exact ⟨⟨_, hnode, _, _, rfl⟩, _, _, rfl⟩
  | delete => rw [hop] at hc; exact herase (.inl hop) c hc
  | move =>
    rw [hop] at hc
    rcases mem_append.1 hc with hc | hc
    · exact hcreate _ (by simp only [newPath, hop]) c hc
    · exact herase (.inr hop) c hc

theorem Effect.nil (t : Tree) : Effect t t [] :=
  ⟨nofun, fun _ _ => .inl rfl⟩

section
variable (he : Effect t S cs)
include he

theorem Effect.node_cases (k : Loc) : (∃ c ∈ cs, c.loc = k ∧ S.node k = c.after) ∨ S.node k =
    t.node k ∨ (t.node k = none ∧ S.node k = some .dir) := by
  by_cases h : ∃ c ∈ cs, c.loc = k
  · obtain ⟨c, hc, rfl⟩ := h
    exact .inl ⟨c, hc, rfl, he.changed c hc⟩
  · rcases he.other k (fun c hc hk => h ⟨c, hc, hk⟩) with hsame | ⟨hnone, hdir, _⟩
    · exact .inr (.inl hsame)
    · exact .inr (.inr ⟨hnone, hdir⟩)

theorem Effect.keeps_or_erased (hv : ∀ c ∈ cs, c.Valid t) (k : Loc) :
    Walks.Keeps t S k ∨ .erase k ∈ cs := by
  rcases he.node_cases k with ⟨c, hc, rfl, haft⟩ | hsame | ⟨hnone, _⟩
  · have hval := hv c hc
    cases c with
    | write l n =>
      obtain ⟨⟨m, hm, content, mode, rfl⟩, content', mode', rfl⟩ := hval
      refine .inl fun m' hm' => ⟨_, haft, ?_⟩
      cases hm.symm.trans hm'
      exact .file _ _ _ _
    | erase l => exact .inr hc
    | create l n =>
      refine .inl fun m' hm' => ?_
      cases hval.1.symm.trans hm'
  · exact .inl (.of_eq hsame)
  · refine .inl fun m' hm' => ?_
    cases hnone.symm.trans hm'

theorem Effect.worn (hv : ∀ c ∈ cs, c.Valid t) : Worn t S := by
  refine ⟨?_, ?_⟩
  · intro k a target hk
    rcases he.node_cases k with ⟨c, hc, rfl, haft⟩ | hsame | ⟨_, hdir⟩
    · have hval := hv c hc
      rw [hk] at haft
      cases c with
      | erase => cases haft
      | write | create =>
        obtain ⟨_, content, mode, hfile⟩ := hval
        rw [hfile] at haft
        cases haft
    · rw [← hsame]; exact hk
    · cases hdir.symm.trans hk
  · intro k
    rcases he.keeps_or_erased hv k with hkeep | herase
    · exact .inl hkeep
    · refine .inr ⟨(hv _ herase).1, ?_⟩
      rw [show S.node k = none from he.changed _ herase]
      simp

theorem Effect.node_of_some (hl : l ∉ cs.map loc) (hn : t.node l = some n) : S.node l = some n := by
  rcases he.other l (fun c hc h => hl (mem_map.2 ⟨c, hc, h⟩)) with h | ⟨h, _⟩
  · rw [h, hn]
  · rw [hn] at h; cases h

theorem Effect.snoc {c : Change} (hc : S'.node c.loc = c.after)
    (hcs : ∀ c' ∈ cs, S'.node c'.loc = S.node c'.loc)
    (hoth : ∀ k, k ≠ c.loc → S'.node k = S.node k ∨
      (S.node k = none ∧ S'.node k = some .dir ∧ ∃ n, c = .create c.loc n ∧ k <:+ c.loc)) :
    Effect t S' (cs ++ [c]) := by
  refine ⟨?_, ?_⟩
  · intro c' hc'
    rcases mem_snoc.1 hc' with hc' | hc'
    · exact (hcs c' hc').trans (he.changed c' hc')
    · rw [hc']; exact hc
  · intro k hk
    have hkc : k ≠ c.loc := fun h => hk c mem_concat_self h.symm
    have hk' := he.other k fun c' hc' => hk c' (mem_append_left _ hc')
    rcases hoth k hkc with h | ⟨hnone, hdir, n, hcn, hsuf⟩
    · rw [h]
      rcases hk' with h' | ⟨h', h'', m, n', hm, hs⟩
      · exact .inl h'
      · exact .inr ⟨h', h'', m, n', mem_append_left _ hm, hs⟩
    · rcases hk' with h' | ⟨_, h'', _⟩
      · refine .inr ⟨h' ▸ hnone, hdir, c.loc, n, ?_, hsuf⟩
        exact mem_append_right _ (hcn ▸ mem_singleton_self _)
      · rw [hnone] at h''; cases h''

theorem Effect.snoc_put {c : Change} (hl : c.loc ∉ cs.map loc)
    (hS : ∀ k, S'.node k = if k = c.loc then c.after else S.node k) : Effect t S' (cs ++ [c]) := by
  refine he.snoc ?_ ?_ ?_
  · rw [hS, if_pos rfl]
  · intro c' hc'
    rw [hS, if_neg]
    intro h
    exact hl (mem_map.2 ⟨c', hc', h⟩)
  · intro k hk
    exact .inl (by rw [hS, if_neg hk])

theorem Effect.snoc_create (hv : ∀ c ∈ cs, c.Valid t) (hl : l ∉ cs.map loc)
    (hp : t.place p = some l) (hS : Created S S' l n) : Effect t S' (cs ++ [.create l n]) := by
  refine he.snoc (c := .create l n) ?_ ?_ ?_
  · show S'.node l = some n
    rw [hS, if_pos rfl]
  · intro c hc
    have hne : c.loc ≠ l := fun h => hl (mem_map.2 ⟨c, hc, h⟩)
    rw [hS, if_neg hne, if_neg]
    intro hx
    obtain ⟨hsuf, hnone⟩ := hx
    rw [he.changed c hc] at hnone
    cases c with
    | write | create => cases hnone
    | erase k =>
      obtain ⟨_, m, hm, hdir⟩ := hv _ hc
      rcases place_suffix hp hsuf hne with h | h
      · rw [show t.node k = none from h] at hm; cases hm
      · rw [show t.node k = some .dir from h] at hm; cases hm; exact hdir rfl
  · intro k hk
    change k ≠ l at hk
    rw [hS, if_neg hk]
    split
    next h => exact .inr ⟨h.2, rfl, n, rfl, h.1⟩
    next => exact .inl rfl

end

/-! ## Actions -/

theorem writeNewFileAtomic_eq_ok {mode : Nat} (h : S.publishNew p content mode = .ok S') :
    writeNewFileAtomic S p content mode = .ok S' := by
  unfold writeNewFileAtomic
  cases he : S.entry p with
  | error e =>
    unfold publishNew at h
    rw [he] at h
    cases h
  | ok l =>
    rw [h]
    rfl

section
variable (he : Effect t S cs) (hv : ∀ c ∈ cs, c.Valid t)
include he hv

/-- **A new file** can be created where its path's place was free and the earlier changes are out of
its way. -/
theorem Effect.create_ok (hp : t.place p = some l) (hn : t.node l = none) (hl : l ∉ cs.map loc)
    (hclr : ∀ k m, .create k m ∈ cs → ¬ k <:+ l ∧ ¬ l <:+ k) (content : Bytes) (mode : Nat) :
    ∃ S1 S', S.mkdirAll p.tail = .ok S1 ∧ writeNewFileAtomic S1 p content mode = .ok S' ∧
    Effect t S' (cs ++ [.create l (.file content mode)]) := by
  have hpc : S.place p = some l := by
    refine (he.worn hv).within.place hp fun k hsuf hne hnone => ?_
    rcases he.node_cases k with ⟨c, hc, rfl, _⟩ | hsame | ⟨_, hdir⟩
    · -- a change above the place would be a new file there
      have hval := hv c hc
      cases c with
      | write =>
        obtain ⟨⟨m', hm', _⟩, _⟩ := hval
        cases hnone.symm.trans hm'
      | erase =>
        obtain ⟨_, m', hm', _⟩ := hval
        cases hnone.symm.trans hm'
      | create k m => exact absurd hsuf (hclr k m hc).1
    · exact .inl (hsame.trans hnone)
    · exact .inr hdir
  have hfree : S.node l = none := by
    rcases he.other l (fun c hc h => hl (mem_map.2 ⟨c, hc, h⟩)) with h | ⟨_, _, k, m, hk, hsuf⟩
    · exact h.trans hn
    · exact absurd hsuf (hclr k m hk).2
  obtain ⟨S1, S', h1, h', hcr, _⟩ := create_spec hpc hfree content mode
  exact ⟨S1, S', h1, writeNewFileAtomic_eq_ok h', he.snoc_create hv hl hp hcr⟩

/-- **An entry** that leads to a file can be taken out where no earlier change was. -/
theorem Effect.erase_ok (hp : t.entry p = .ok l) (hval : (erase l).Valid t) (hl : l ∉ cs.map loc) :
    ∃ S', S.remove p = .ok S' ∧ Effect t S' (cs ++ [.erase l]) := by
  obtain ⟨⟨c, d, m, r, f, hcd, _, _⟩, n, hn, hdir⟩ := hval
  subst hcd
  have hent := (he.worn hv).within.entry hp
  obtain ⟨S', h, hS⟩ := remove_spec hent (he.node_of_some hl hn) hdir
  exact ⟨S', h, he.snoc_put (c := .erase (c :: d)) hl hS⟩

/-- **A file** is replaced where its path led before, unless an earlier change is on the way. -/
theorem Effect.write_ok {p : Path} (hp : Walks t maxLinks [] p.reverse r l) (hn : t.node l = some n)
    (hfile : IsFile n) (hl : l ∉ cs.map loc) (hlinks : ∀ k, .erase k ∈ cs → k ∉ r) (content : Bytes)
    (mode : Nat) : ∃ S', writeFileAtomic S p content mode = .ok S' ∧
    Effect t S' (cs ++ [.write l (.file content mode)]) := by
  have hkeep : ∀ k ∈ r, Walks.Keeps t S k := by
    intro k hk
    rcases he.keeps_or_erased hv k with hkeep | herase
    · exact hkeep
    · exact absurd hk (hlinks k herase)
  have hresolve : S.resolve p = .ok l :=
    resolve_eq_ok_iff.2 ⟨r, hp.keep hkeep (keeps_nil t S)⟩
  obtain ⟨c0, m0, hm0⟩ := hfile
  have hnode := he.node_of_some hl hn
  cases l with
  | nil =>
    rw [t.node_nil, hm0] at hn
    cases hn
  | cons c d =>
    obtain ⟨hd, hc⟩ := node_parent hnode
    have hent : S.entry (c :: d) = .ok (c :: d) :=
      entry_cons_iff.2 ⟨hc, d, resolve_self hd rfl, hd, rfl⟩
    have hne : S.node (c :: d) ≠ some .dir := by rw [hnode, hm0]; exact nofun
    obtain ⟨S', h, hS⟩ := publish_spec hent hne content mode
    refine ⟨S', ?_, he.snoc_put (c := .write (c :: d) (.file content mode)) hl hS⟩
    unfold writeFileAtomic resolveWriteTarget
    rw [hresolve]
    simp only [hent, h]
    rfl

end

theorem Clear.apart (h : Clear (cs ++ cs')) (hl : l ∉ cs.map loc) (hc : .create l n ∈ cs') :
    ∀ k m, .create k m ∈ cs → ¬ k <:+ l ∧ ¬ l <:+ k := by
  intro k m hk
  have hne : k ≠ l := fun hkl => hl (mem_map.2 ⟨_, hk, hkl⟩)
  have hk' : .create k m ∈ cs ++ cs' := mem_append_left _ hk
  have hl' : .create l n ∈ cs ++ cs' := mem_append_right _ hc
  exact ⟨h k m l n hk' hl' hne, h l n k m hl' hk' hne.symm⟩

/-- **One action** whose changes are out of the way of those before it succeeds and makes its
changes. -/
theorem apply_step {s : ToolState} (hr : ItemReady t item) (he : Effect t s.files cs)
    (hv : ∀ c ∈ cs, c.Valid t) (hpl : ∀ p, item.newPath = some p → ∃ l, t.place p = some l)
    (hap : ((cs ++ changes t item).map loc).Nodup) (hclr : Clear (cs ++ changes t item))
    (hlinks : ∀ k r f, .erase k ∈ cs → item.operation = .update →
      Walks t maxLinks [] item.path.reverse r f → k ∉ r) :
    (applyPreparedAction e s item).err = none ∧
      Effect t (applyPreparedAction e s item).state.files (cs ++ changes t item) := by
  have hfr : ∀ c ∈ changes t item, c.loc ∉ cs.map loc := by
    intro c hc hmem
    rw [map_append, nodup_append] at hap
    exact hap.2.2 _ hmem _ (mem_map_of_mem hc) rfl
  have hval := valid_changes hr
  unfold applyPreparedAction
  cases hop : item.operation with
  | add =>
    have hnew : item.newPath = some item.path := by rw [newPath, hop]
    obtain ⟨l, hl⟩ := hpl _ hnew
    have hcs : changes t item = [.create l item.file] := by
      simp only [changes, hop, createChange, hl]
    rw [hcs] at hfr hclr hval ⊢
    have hmem := mem_singleton_self (create l item.file)
    have hlcs := hfr _ hmem
    obtain ⟨S1, S', h1, h', he'⟩ := he.create_ok hv hl (hval _ hmem).1 hlcs
      (hclr.apart hlcs hmem) item.newContent item.mode
    simp only [applyPatchAdd, h1, h', finishPatchWrite]
    exact ⟨trivial, he'⟩
  | update =>
    obtain ⟨l, r, hw, hnode, hwc⟩ := hr.writeChange_eq hop
    have hcs : changes t item = [.write l item.file] := by simp only [changes, hop, hwc]
    rw [hcs] at hfr ⊢
    have hlcs := hfr _ (mem_singleton_self _)
    obtain ⟨S', h', he'⟩ := he.write_ok hv hw hnode ⟨_, _, rfl⟩ hlcs
      (fun k hk => hlinks k r l hk hop hw) item.newContent item.mode
    simp only [applyPatchUpdate, h', finishPatchWrite]
    exact ⟨trivial, he'⟩
  | delete =>
    obtain ⟨l, hent, hec, hval⟩ := hr.eraseChange_eq (.inl hop)
    have hcs : changes t item = [.erase l] := by simp only [changes, hop, hec]
    rw [hcs] at hfr ⊢
    obtain ⟨S', h', he'⟩ := he.erase_ok hv hent hval (hfr _ (mem_singleton_self _))
    simp only [applyPatchDelete, h']
    exact ⟨trivial, he'⟩
  | move =>
    have hnew : item.newPath = some item.destination := by rw [newPath, hop]
    obtain ⟨l, hl⟩ := hpl _ hnew
    obtain ⟨k, hent, hec, hvk⟩ := hr.eraseChange_eq (.inr hop)
    have hcs : changes t item = [.create l item.file, .erase k] := by
      simp only [changes, hop, createChange, hl, hec, singleton_append]
    rw [hcs] at hfr hclr hval hap ⊢
    have hmem : create l item.file ∈ [create l item.file, .erase k] :=
      mem_cons_self
    have hlcs := hfr _ hmem
    obtain ⟨S1, S', h1, h', he'⟩ := he.create_ok hv hl (hval _ hmem).1 hlcs
      (hclr.apart hlcs hmem) item.newContent item.mode
    have hv' : ∀ c ∈ cs ++ [create l item.file], c.Valid t := by
      intro c hc
      rcases mem_snoc.1 hc with hc | hc
      · exact hv c hc
      · rw [hc]; exact hval _ hmem
    have hk : k ∉ (cs ++ [create l item.file]).map loc := by
      rw [← singleton_append, ← append_assoc, map_append, nodup_append] at hap
      intro hx
      exact hap.2.2 k hx k (mem_singleton_self _) rfl
    obtain ⟨S'', h'', he''⟩ := he'.erase_ok hv' hent hvk hk
    have hremove : ((({ s with files := S' } : ToolState).observeContent item.destination
        (e.hashBytes item.newContent)).files.remove item.path) = .ok S'' := h''
    simp only [applyPatchMove, h1, h', removeMoveSource, hremove]
    refine ⟨trivial, ?_⟩
    rw [← singleton_append, ← append_assoc]
    exact he''

/-- A patch midway: the actions that are left, and the changes that were made. -/
structure Midway (t S : Tree) (cs : List Change) (items : List PreparedPatchAction) : Prop where
  ready : ∀ item ∈ items, ItemReady t item
  effect : Effect t S cs
  valid : ∀ c ∈ cs, c.Valid t
  placed : Placed t items
  apart : ((cs ++ items.flatMap (changes t)).map loc).Nodup
  clear : Clear (cs ++ items.flatMap (changes t))

theorem Midway.step {s : ToolState} (h : Midway t s.files cs (item :: items))
    (hbef : ∀ k r f, .erase k ∈ cs → item.operation = .update →
      Walks t maxLinks [] item.path.reverse r f → k ∉ r) :
    (applyPreparedAction e s item).err = none ∧
      Midway t (applyPreparedAction e s item).state.files (cs ++ changes t item) items := by
  have hap := h.apart
  have hclr := h.clear
  rw [flatMap_cons, ← append_assoc] at hap hclr
  have hitem := h.ready item mem_cons_self
  have hsub := subset_append_left (cs ++ changes t item) (items.flatMap (changes t))
  obtain ⟨herr, heff⟩ := apply_step (e := e) hitem h.effect h.valid (h.placed item mem_cons_self)
    (by rw [map_append] at hap; exact (nodup_append.1 hap).1)
    (fun k m l n hk hl => hclr k m l n (hsub hk) (hsub hl)) hbef
  refine ⟨herr, fun i hi => h.ready i (mem_cons_of_mem _ hi), heff, fun c hc => ?_,
    fun i hi => h.placed i (mem_cons_of_mem _ hi), hap, hclr⟩
  rcases mem_append.1 hc with hc | hc
  · exact h.valid c hc
  · exact valid_changes hitem c hc

/-- **The actions of an independent patch** succeed one after another, and each makes its changes. -/
theorem apply_run {s : ToolState} (h : Midway t s.files cs items) (hlinks : LinksStay t items)
    (hbef : ∀ item ∈ items, ∀ k r f, .erase k ∈ cs → item.operation = .update →
      Walks t maxLinks [] item.path.reverse r f → k ∉ r) :
    (applyPreparedPatch e s items).err = none ∧
      Effect t (applyPreparedPatch e s items).state.files (cs ++ items.flatMap (changes t)) := by
  induction items generalizing s cs with
  | nil => exact ⟨rfl, by simpa [applyPreparedPatch] using h.effect⟩
  | cons item items ih =>
    obtain ⟨herr, hnext⟩ := h.step (e := e) (hbef item mem_cons_self)
    obtain ⟨hfst, hlinks⟩ := pairwise_cons.1 hlinks
    rw [flatMap_cons, ← append_assoc, applyPreparedPatch]
    simp only [herr]
    refine ih hnext hlinks fun i hi k r f hk => ?_
    rcases mem_append.1 hk with hk | hk
    · exact hbef i (mem_cons_of_mem _ hi) k r f hk
    · exact hfst i hi k r f hk

end Changes

end Peen.Tools
