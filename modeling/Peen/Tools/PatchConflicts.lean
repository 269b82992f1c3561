import Peen.Tools.PatchEffect

/-!
# When a prepared patch is applied as written

A patch that was applied as written was independent, where every new file has a place and every
update changes its file.
-/

namespace Peen.Tools

open List Change Files Files.Tree

section Converse
variable {t S S' : Tree} {cs : List Change} {f : Loc} {n : Node}

/-! ## Where actions write in a worn tree -/

variable {p : Path} {x : Bytes} {mode xm : Nat} {s : ToolState}

theorem of_wrapPath (h : wrapPath message result = .ok a) : result = .ok a := by
  cases result with
  | ok => exact congrArg Except.ok (Except.ok.inj h)
  | error => cases h

theorem of_writeFileAtomic (h : writeFileAtomic S p content mode = .ok S') :
    ∃ c d, S.entry (resolveWriteTarget S p) = .ok (c :: d) ∧ S.node (c :: d) ≠ some .dir ∧
      ∀ k, S'.node k = if k = c :: d then some (.file content mode) else S.node k := by
  obtain ⟨_, _, h⟩ := of_bind h
  exact of_publish (of_wrapPath h)

theorem of_writeNewFileAtomic (hp : p ≠ []) (h1 : S.mkdirAll p.tail = .ok S1)
    (h : writeNewFileAtomic S1 p content mode = .ok S') :
    ∃ l, S.place p = some l ∧ S.node l = none ∧ Created S S' l (.file content mode) := by
  obtain ⟨_, _, h⟩ := of_bind h
  have hpub := of_wrapPath h
  obtain ⟨l, hl, hn⟩ := place_of_create hp h1 hpub
  obtain ⟨S2, S'', h2, h'', hcr, _⟩ := create_spec hl hn content mode
  rw [h1] at h2
  cases h2
  rw [hpub] at h''
  cases h''
  exact ⟨l, hl, hn, hcr⟩

/-- **An update writes** its file, or a link to it that was followed no further. -/
theorem write_target (hw : Worn t S) (hp : Walks t maxLinks [] p.reverse r f)
    (hf : t.node f = some (.file x xm)) (h : writeFileAtomic S p content mode = .ok S') :
    ∃ T, (∀ k, S'.node k = if k = T then some (.file content mode) else S.node k) ∧
      ((T = f ∧ (S.resolve p = .ok f ∨ S.node f = none)) ∨
        (ToFile t T ∧ ∃ a target, t.node T = some (.link a target))) := by
  obtain ⟨c, d, hent, hdir, hS⟩ := of_writeFileAtomic h
  refine ⟨c :: d, hS, ?_⟩
  unfold resolveWriteTarget at hent
  cases hres : S.resolve p with
  | ok l =>
    rw [hres] at hent
    obtain ⟨m, hm, hlink⟩ := exists_of_resolve hres
    cases l with
    | nil => cases hent
    | cons c' d' =>
      rw [entry_self hm] at hent
      cases hent
      obtain ⟨r', hwalk⟩ := resolve_eq_ok_iff.1 hres
      rcases hw.settled.strays hp (keeps_nil t S) hwalk with heq | hmem
      · exact .inl ⟨heq, .inl (heq ▸ rfl)⟩
      · obtain ⟨_, _, m', _, _, _, _, hm', _⟩ := hp.from_mem hmem
        cases m' with
        | file y ym =>
          have heq := hp.end_of_file hmem hm' rfl nofun
          exact .inl ⟨heq.symm, .inl (heq ▸ rfl)⟩
        | dir => exact absurd (hw.within.node_dir hm') hdir
        | link a target =>
          rcases hw.kept (c :: d) with hkeep | ⟨hfile, _⟩
          · obtain ⟨m'', hm'', ha⟩ := hkeep _ hm'
            cases ha
            rw [hm] at hm''
            cases hm''
            cases hlink
          · exact .inr ⟨hfile, a, target, hm'⟩
  | error e =>
    rw [hres] at hent
    cases p with
    | nil => cases hent
    | cons c' q =>
      have hfile : t.node f ≠ some .dir := by rw [hf]; exact nofun
      obtain ⟨d', m, r', n, het, hlast, hn, hne⟩ :=
        entry_of_resolve_file (resolve_eq_ok_iff.2 ⟨r, hp⟩) hfile
      rw [hw.within.entry het] at hent
      cases hent
      cases n with
      | dir => exact absurd rfl hne
      | link a target => exact .inr ⟨⟨c, d, m, r', f, rfl, hlast, hfile⟩, a, target, hn⟩
      | file y ym =>
        obtain ⟨_, hc⟩ := node_parent hn
        have hself : Walks t 0 d [c] [c :: d] (c :: d) := .into hc hn rfl .done
        have heq := (hlast.unique hself).2
        subst heq
        refine .inl ⟨rfl, ?_⟩
        cases hSn : S.node (c :: d) with
        | none => exact .inr rfl
        | some m' =>
          have hlink : m'.isLink = false := by
            cases m' with
            | file | dir => rfl
            | link => rw [hw.links _ _ _ hSn] at hn; cases hn
          exact .inl (hres ▸ resolve_of_entry (hw.within.entry het) hSn hlink)

/-! ## Worn trees stay worn -/

theorem worn_write (hw : Worn t S)
    (hS : ∀ k, S'.node k = if k = l then some (.file x xm) else S.node k)
    (hl : (∃ y ym, t.node l = some (.file y ym)) ∨ ToFile t l) : Worn t S' := by
  refine hw.of_changes fun k => ?_
  rw [hS]
  split
  next hk =>
    subst hk
    refine .inr ⟨nofun, ?_⟩
    rcases hl with ⟨y, ym, hy⟩ | hfile
    · refine .inl fun m hm => ⟨.file x xm, by rw [hS, if_pos rfl], ?_⟩
      rw [hy] at hm
      cases hm
      exact .file _ _ _ _
    · exact .inr ⟨hfile, nofun⟩
  next => exact .inl rfl

theorem worn_erase (hw : Worn t S) (hS : ∀ k, S'.node k = if k = l then none else S.node k)
    (hl : ToFile t l) : Worn t S' := by
  refine hw.of_changes fun k => ?_
  rw [hS]
  split
  next hk =>
    subst hk
    exact .inr ⟨by simp, .inr ⟨hl, by simp⟩⟩
  next => exact .inl rfl

theorem worn_create (hw : Worn t S) (hS : Created S S' l (.file x xm)) (hp : t.place p = some l)
    (hn : t.node l = none) : Worn t S' := by
  have hfree (k : Loc) (hk : t.node k = none) : Walks.Keeps t S' k := by
    intro m hm
    rw [hk] at hm
    cases hm
  refine hw.of_changes fun k => ?_
  have hk' := hS k
  split at hk'
  next hk =>
    subst hk
    rw [hk']
    exact .inr ⟨nofun, .inl (hfree _ hn)⟩
  next hne =>
    split at hk'
    next hmade =>
      rcases place_suffix hp hmade.1 hne with h | h
      · rw [hk']
        exact .inr ⟨nofun, .inl (hfree k h)⟩
      · have hd := hw.within.node_dir h
        rw [hmade.2] at hd
        cases hd
    next => exact .inl hk'

/-! ## Files no action has the place of -/

/-- What a successful action does to a worn tree: it stays worn, and a file the action does not have
the place of is left alone. -/
structure Leaves (t S S' : Tree) (cs : List Change) : Prop where
  worn : Worn t S'
  file : ∀ f x xm, t.node f = some (.file x xm) → f ∉ cs.map loc → S.node f ≠ none →
    S'.node f = S.node f

theorem Leaves.refl (hw : Worn t S) : Leaves t S S [] := ⟨hw, fun _ _ _ _ _ _ => rfl⟩

theorem Leaves.trans (h : Leaves t S S' cs) (h' : Leaves t S' S'' cs') :
    Leaves t S S'' (cs ++ cs') := by
  refine ⟨h'.worn, ?_⟩
  intro f x xm hf hmem hn
  rw [map_append, mem_append, not_or] at hmem
  have hfst := h.file f x xm hf hmem.1 hn
  rw [← hfst] at hn ⊢
  exact h'.file f x xm hf hmem.2 hn

section
variable (hw : Worn t S) (hr : ItemReady t item)
include hw hr

theorem leaves_create (hnew : item.newPath = some p) (hpl : ∃ l, t.place p = some l)
    (h1 : S.mkdirAll p.tail = .ok S1)
    (h : writeNewFileAtomic S1 p item.newContent item.mode = .ok S') :
    Leaves t S S' (createChange t item p) := by
  obtain ⟨l, hl⟩ := hpl
  have hne : p ≠ [] := by
    intro hp
    rw [hp] at hl
    cases hl
  obtain ⟨l', hl', hfree, hcr⟩ := of_writeNewFileAtomic hne h1 h
  have heq := hw.settled.place_eq hl hl'
  subst heq
  refine ⟨worn_create hw hcr hl (node_place hl (hr.free p hnew)), ?_⟩
  intro f x xm _ hmem hn
  have hfl : f ≠ l' := by
    intro hx
    refine hmem ?_
    rw [createChange, hl, hx]
    exact mem_singleton_self _
  rw [hcr, if_neg hfl, if_neg (fun hx => hn hx.2)]

theorem leaves_erase (hop : item.operation = .delete ∨ item.operation = .move)
    (h : S.remove item.path = .ok S') : Leaves t S S' (eraseChange t item) := by
  obtain ⟨l, hent, hec, hval⟩ := hr.eraseChange_eq hop
  obtain ⟨c, d, he, hS⟩ := of_remove h
  rw [hw.within.entry hent] at he
  cases he
  refine ⟨worn_erase hw hS hval.1, ?_⟩
  intro f x xm _ hmem _
  rw [hS, if_neg]
  intro hx
  refine hmem ?_
  rw [hec, hx]
  exact mem_singleton_self _

theorem leaves_write (hop : item.operation = .update)
    (h : writeFileAtomic S item.path item.newContent item.mode = .ok S') :
    Leaves t S S' (writeChange t item) := by
  obtain ⟨g, r, hwalk, hg, hwc⟩ := hr.writeChange_eq hop
  obtain ⟨T, hS, hT⟩ := write_target hw hwalk hg h
  refine ⟨worn_write hw hS ?_, ?_⟩
  · rcases hT with ⟨hT, _⟩ | ⟨hT, _⟩
    · exact .inl ⟨_, _, hT ▸ hg⟩
    · exact .inr hT
  · intro f x xm hf hmem _
    rw [hS, if_neg]
    intro hx
    subst hx
    rcases hT with ⟨hT, _⟩ | ⟨_, a, target, hlink⟩
    · refine hmem ?_
      rw [hwc, hT]
      exact mem_singleton_self _
    · rw [hf] at hlink
      cases hlink

end

/-- **One action** of a run that succeeds. -/
theorem leaves_step (hw : Worn t s.files) (hr : ItemReady t item)
    (hpl : ∀ p, item.newPath = some p → ∃ l, t.place p = some l)
    (herr : (applyPreparedAction e s item).err = none) :
    Leaves t s.files (applyPreparedAction e s item).state.files (changes t item) := by
  unfold applyPreparedAction at herr ⊢
  unfold changes
  cases hop : item.operation with
  | add =>
    rw [hop] at herr
    have hnew : item.newPath = some item.path := by rw [PreparedPatchAction.newPath, hop]
    dsimp only [applyPatchAdd] at herr ⊢
    cases h1 : s.files.mkdirAll item.path.tail with
    | error => rw [h1] at herr; cases herr
    | ok S1 =>
      rw [h1] at herr
      cases h : writeNewFileAtomic S1 item.path item.newContent item.mode with
      | error => simp only [h, finishPatchWrite, ToolState.failed] at herr; cases herr
      | ok S' =>
        simp only [h, finishPatchWrite]
        exact leaves_create hw hr hnew (hpl _ hnew) h1 h
  | update =>
    rw [hop] at herr
    dsimp only [applyPatchUpdate] at herr ⊢
    cases h : writeFileAtomic s.files item.path item.newContent item.mode with
    | error => rw [h] at herr; cases herr
    | ok S' => exact leaves_write hw hr hop h
  | delete =>
    rw [hop] at herr
    dsimp only [applyPatchDelete] at herr ⊢
    cases h : s.files.remove item.path with
    | error => rw [h] at herr; cases herr
    | ok S' => exact leaves_erase hw hr (.inl hop) h
  | move =>
    rw [hop] at herr
    have hnew : item.newPath = some item.destination := by rw [PreparedPatchAction.newPath, hop]
    dsimp only [applyPatchMove] at herr ⊢
    cases h1 : s.files.mkdirAll item.destination.tail with
    | error => rw [h1] at herr; cases herr
    | ok S1 =>
      rw [h1] at herr
      dsimp only at herr ⊢
      cases h : writeNewFileAtomic S1 item.destination item.newContent item.mode with
      | error => rw [h] at herr; cases herr
      | ok S2 =>
        rw [h] at herr
        have hfst := leaves_create hw hr hnew (hpl _ hnew) h1 h
        cases h' : S2.remove item.path with
        | error => simp [removeMoveSource, ToolState.observeContent, h'] at herr
        | ok S' =>
          have hfiles : (removeMoveSource e ⟨S2, s.observed, s.observationRevision⟩ item).state.files =
              S' := by simp [removeMoveSource, ToolState.observeContent, h']
          rw [hfiles]
          exact hfst.trans (leaves_erase hfst.worn hr (.inr hop) h')

theorem applyPreparedPatch_cons (herr : (applyPreparedPatch e s (item :: items)).err = none) :
    (applyPreparedAction e s item).err = none ∧
      (applyPreparedPatch e (applyPreparedAction e s item).state items).err = none ∧
      (applyPreparedPatch e s (item :: items)).state =
        (applyPreparedPatch e (applyPreparedAction e s item).state items).state := by
  rw [applyPreparedPatch] at herr ⊢
  cases h : (applyPreparedAction e s item).err with
  | some err => simp only [h] at herr; cases herr
  | none =>
    simp only [h] at herr ⊢
    exact ⟨trivial, herr, trivial⟩

/-- **A run that succeeds** leaves alone every file no action of it has the place of. -/
theorem leaves_run (items : List PreparedPatchAction) (hw : Worn t s.files)
    (hr : ∀ item ∈ items, ItemReady t item) (hpl : Placed t items)
    (herr : (applyPreparedPatch e s items).err = none) :
    Leaves t s.files (applyPreparedPatch e s items).state.files (items.flatMap (changes t)) := by
  induction items generalizing s with
  | nil => exact .refl hw
  | cons item items ih =>
    obtain ⟨hitem, hit, hst⟩ := applyPreparedPatch_cons herr
    have hfst := leaves_step hw (hr item mem_cons_self) (hpl item mem_cons_self) hitem
    rw [hst, flatMap_cons]
    exact hfst.trans (ih hfst.worn (fun i hi => hr i (mem_cons_of_mem _ hi))
      (fun i hi => hpl i (mem_cons_of_mem _ hi)) hit)

/-! ## Updates whose link is gone -/

/-- **An update through a link that was taken out** leaves its file as it was. -/
theorem update_strays (he : Effect t s.files cs) (hv : ∀ c ∈ cs, c.Valid t) (hr : ItemReady t item)
    (hop : item.operation = .update) (hwalk : Walks t maxLinks [] item.path.reverse r f)
    (hf : t.node f = some (.file item.oldContent item.mode)) (hfr : f ∉ cs.map loc)
    (hk : .erase k ∈ cs) (hmem : k ∈ r) (herr : (applyPreparedAction e s item).err = none) :
    Worn t (applyPreparedAction e s item).state.files ∧
      (applyPreparedAction e s item).state.files.node f = t.node f := by
  unfold applyPreparedAction at herr ⊢
  rw [hop] at herr ⊢
  dsimp only [applyPatchUpdate] at herr ⊢
  cases h : writeFileAtomic s.files item.path item.newContent item.mode with
  | error => rw [h] at herr; cases herr
  | ok S' =>
    have hw := he.worn hv
    have hnode := he.node_of_some hfr hf
    refine ⟨(leaves_write hw hr hop h).worn, ?_⟩
    obtain ⟨T, hS, hT⟩ := write_target hw hwalk hf h
    show S'.node f = t.node f
    rw [hS, if_neg, hnode, hf]
    intro hx
    subst hx
    rcases hT with ⟨_, hres | hnone⟩ | ⟨_, a, target, hlink⟩
    · -- the walk would have to go past the entry that is missing
      obtain ⟨r', hwalk'⟩ := resolve_eq_ok_iff.1 hres
      refine hwalk.blocked ?_ (keeps_nil t s.files) hmem (he.changed _ hk) hwalk'
      intro k' _
      exact (he.keeps_or_erased hv k').imp_right (he.changed (.erase k'))
    · rw [hnode] at hnone
      cases hnone
    · rw [hf] at hlink
      cases hlink

/-- **In a run that is applied as written** no update goes through a link that was taken out. -/
theorem links_run (h : Midway t s.files cs items)
    (hnew : ∀ item ∈ items, item.operation = .update → item.newContent ≠ item.oldContent)
    (herr : (applyPreparedPatch e s items).err = none) (hend : ∀ c ∈ items.flatMap (changes t),
      (applyPreparedPatch e s items).state.files.node c.loc = c.after) :
    LinksStay t items ∧ ∀ item ∈ items, ∀ k r f, .erase k ∈ cs → item.operation = .update →
      Walks t maxLinks [] item.path.reverse r f → k ∉ r := by
  induction items generalizing s cs with
  | nil => exact ⟨.nil, by simp⟩
  | cons item items ih =>
    obtain ⟨hok, hoks, hst⟩ := applyPreparedPatch_cons herr
    rw [hst] at hend
    have hitem := h.ready item mem_cons_self
    have hfr : ∀ c ∈ changes t item, c.loc ∉ cs.map loc ∧
        c.loc ∉ (items.flatMap (changes t)).map loc := by
      intro c hc
      have hap := h.apart
      rw [flatMap_cons, map_append, map_append, nodup_append, nodup_append] at hap
      have hloc := mem_map_of_mem (f := loc) hc
      exact ⟨fun hx => hap.2.2 _ hx _ (mem_append_left _ hloc) rfl,
        fun hx => hap.2.1.2.2 _ hloc _ hx rfl⟩
    have hfst : ∀ k r f, .erase k ∈ cs → item.operation = .update →
        Walks t maxLinks [] item.path.reverse r f → k ∉ r := by
      intro k r f hk hop hwalk hmem
      obtain ⟨g, r', hwalk', hg, hwc⟩ := hitem.writeChange_eq hop
      obtain ⟨hrr, hff⟩ := hwalk.unique hwalk'
      subst hrr hff
      have hc : write g item.file ∈ changes t item := by
        simp only [changes, hop, hwc, mem_singleton]
      obtain ⟨hbef, haft⟩ := hfr _ hc
      obtain ⟨hworn, hnode⟩ := update_strays h.effect h.valid hitem hop hwalk' hg hbef hk hmem hok
      have hleft := (leaves_run items hworn (fun i hi => h.ready i (mem_cons_of_mem _ hi))
        (fun i hi => h.placed i (mem_cons_of_mem _ hi)) hoks).file g _ _ hg haft
        (by simp [hnode, hg])
      have hlast := hend _ (mem_flatMap.2 ⟨item, mem_cons_self, hc⟩)
      rw [show (write g item.file).loc = g from rfl, hleft, hnode, hg] at hlast
      have hsame : Node.file item.oldContent item.mode = item.file := Option.some.inj hlast
      exact hnew item mem_cons_self hop (Node.file.inj hsame).1.symm
    obtain ⟨hlinks, hbef⟩ := ih (h.step (e := e) hfst).2
      (fun i hi => hnew i (mem_cons_of_mem _ hi)) hoks
      fun c hc => hend c (mem_append_right _ hc)
    refine ⟨pairwise_cons.2 ⟨?_, hlinks⟩, ?_⟩
    · intro i hi k r f hk
      exact hbef i hi k r f (mem_append_right _ hk)
    · intro i hi k r f hk
      rcases mem_cons.1 hi with hi | hi
      · subst hi; exact hfst k r f hk
      · exact hbef i hi k r f (mem_append_left _ hk)

theorem Effect.clear (he : Effect t S cs) (hv : ∀ c ∈ cs, c.Valid t) : Clear cs := by
  intro k n l m hk hl hne hsuf
  have hkn : S.node k = some n := he.changed _ hk
  have hlm : S.node l = some m := he.changed _ hl
  obtain ⟨_, content, mode, hfile⟩ := hv _ hk
  cases l with
  | nil => exact hne (suffix_nil.1 hsuf)
  | cons c d =>
    rcases suffix_cons_iff.1 hsuf with heq | hsuf
    · exact hne heq
    · rw [node_suffix (node_parent hlm).1 hsuf, hfile] at hkn
      cases hkn

end Converse

/-! ## The main result -/

/-- **A prepared patch is applied as written** when its places are independent: every new file has
one, no two actions have the same, no new file is where another needs a directory, and no update goes
through a link an earlier action takes out. Where every new file has a place and every update changes
its file, that is also what it takes. -/
theorem preparePatch_applied {e : Executor} {s : ToolState} {actions : List PatchAction}
    {items : List PreparedPatchAction} (h : preparePatch e s actions = .ok items) :
    (Independent s.files items → Applied e s items) ∧
    (Placed s.files items →
      (∀ item ∈ items, item.operation = .update → item.newContent ≠ item.oldContent) →
      Applied e s items → Independent s.files items) := by
  have hr := ready_of_preparePatch h
  have hv : ∀ c ∈ items.flatMap (changes s.files), c.Valid s.files := by
    intro c hc
    obtain ⟨item, hitem, hc⟩ := mem_flatMap.1 hc
    exact valid_changes (hr item hitem) c hc
  have hnil : ∀ c ∈ ([] : List Change), c.Valid s.files := nofun
  refine ⟨?_, ?_⟩
  · intro hi
    have hmid : Midway s.files s.files [] items :=
      ⟨hr, .nil s.files, hnil, hi.placed, hi.apart, hi.clear⟩
    obtain ⟨herr, heff⟩ := apply_run hmid hi.links nofun
    exact ⟨herr, hi.apart, heff⟩
  · intro hplaced hnew ha
    have hclear := ha.effect.clear hv
    obtain ⟨hlinks, _⟩ := links_run ⟨hr, .nil s.files, hnil, hplaced, ha.apart, hclear⟩ hnew
      ha.succeeds ha.effect.changed
    exact ⟨hplaced, ha.apart, hclear, hlinks⟩

/-! ## A link beside its file -/

/-- An executor whose files are all text, and have the same hash. -/
def plainExecutor : Executor := ⟨["w"], none, 100, 100, fun _ => true, fun _ => "h"⟩

/-- A workspace with the file `a`, of two lines, and a link `l` to it. -/
def linkedFiles : Tree where
  entries := [([], .dir), (["w"], .dir), (["a", "w"], .file [120, 10, 121, 10] newFileMode),
    (["l", "w"], .link false ["a"])]
  root := by decide
  inner := by decide

def linkedState : ToolState := ⟨linkedFiles, [(["a", "w"], ⟨"h", true, 1⟩)], 1⟩

def replaceLine (path : String) (old new : UInt8) : PatchAction :=
  ⟨.update, path, "", [], [⟨[], [⟨.delete, [old]⟩, ⟨.add, [new]⟩], false⟩]⟩

def addNested : PatchAction := ⟨.add, "d/b", "", [122, 10], []⟩

/-- The first line is replaced and a file is added beside: all places are apart. -/
theorem preparePatch_applied_apart :
    ∃ items, preparePatch plainExecutor linkedState [replaceLine "a" 120 88, addNested] = .ok items ∧
      Applied plainExecutor linkedState items := by
  refine ⟨[⟨.update, ["a", "w"], [], [120, 10, 121, 10], [88, 10, 121, 10], newFileMode⟩,
    ⟨.add, ["b", "d", "w"], [], [], [122, 10], newFileMode⟩], by rfl, ?_⟩
  refine (preparePatch_applied (show preparePatch plainExecutor linkedState
    [replaceLine "a" 120 88, addNested] = .ok _ by rfl)).1 ?_
  refine ⟨?_, by decide +kernel, ?_, ?_⟩
  · intro item hitem p hp
    rcases mem_cons.1 hitem with h | h
    · subst h; cases hp
    · rw [mem_singleton.1 h] at hp
      cases hp
      exact ⟨["b", "d", "w"], by decide +kernel⟩
  · intro k n l m hk hl hne
    change _ ∈ [write ["a", "w"] (.file [88, 10, 121, 10] newFileMode),
      .create ["b", "d", "w"] (.file [122, 10] newFileMode)] at hk hl
    simp only [mem_cons, reduceCtorEq, create.injEq, not_mem_nil, or_false, false_or] at hk hl
    exact absurd (hk.1.trans hl.1.symm) hne
  · refine pairwise_pair.2 ?_
    intro l r f _ hop
    cases hop

/-- **An update is lost** when two paths of a patch lead to the same file: both updates are prepared
from the content before the patch, both succeed, and the file ends with the second one only. -/
theorem preparePatch_loses_update :
    ∃ items, preparePatch plainExecutor linkedState [replaceLine "a" 120 88, replaceLine "l" 121 89] =
        .ok items ∧
      (applyPreparedPatch plainExecutor linkedState items).err = none ∧
      (applyPreparedPatch plainExecutor linkedState items).state.files.node ["a", "w"] =
        some (.file [120, 10, 89, 10] newFileMode) ∧
      ¬ Applied plainExecutor linkedState items := by
  refine ⟨[⟨.update, ["a", "w"], [], [120, 10, 121, 10], [88, 10, 121, 10], newFileMode⟩,
    ⟨.update, ["l", "w"], [], [120, 10, 121, 10], [120, 10, 89, 10], newFileMode⟩], by rfl, by rfl,
    by rfl, ?_⟩
  intro h
  exact absurd h.apart (by decide +kernel)

end Peen.Tools
