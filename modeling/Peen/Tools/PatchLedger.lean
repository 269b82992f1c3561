import Peen.Tools.Ledger
import Peen.Tools.PatchConflicts

/-!
# The ledger during a patch

A patch checks all its files before it changes the first, so while it is applied a check may be about
a file that an earlier action has changed since, or one to which the path leads no longer.
-/

namespace Peen.Tools

open Function List Files Files.Tree

/-! ## What was checked -/

/-- The file of an action that is no add was read, and its content had the hash of the ledger. -/
def ItemSeen (e : Executor) (s : ToolState) (item : PreparedPatchAction) : Prop :=
  item.operation ≠ .add → ∃ f, s.files.resolve item.path = .ok f ∧
    s.files.node f = some (.file item.oldContent item.mode) ∧
    s.hashAt f = some (e.hashBytes item.oldContent)

section

variable {e : Executor} {s : ToolState} {item item' : PreparedPatchAction}

theorem seen_of_reads {maximum : Nat}
    (hread : readRegularFile s.files item.path maximum = .ok (item.oldContent, item.mode))
    (hseen : requireObservedContent e s item.path item.oldContent = .ok u) : ItemSeen e s item := by
  intro _
  obtain ⟨f, hf, hnode⟩ := of_readRegularFile hread
  exact ⟨f, hf, hnode, of_requireObservedContent hseen hf⟩

/-- The prepared action has the operation and the destination of the action. -/
def SameMove (item item' : PreparedPatchAction) : Prop :=
  item'.operation = item.operation ∧ item'.destination = item.destination

theorem seen_of_preparePatchUpdate (h : preparePatchUpdate e s item hunks = .ok item') :
    ItemSeen e s item' ∧ SameMove item item' := by
  obtain ⟨_, _, h⟩ := of_bind h
  obtain ⟨⟨content, mode⟩, hread, h⟩ := of_bind h
  obtain ⟨_, _, h⟩ := of_bind h
  obtain ⟨_, hseen, h⟩ := of_bind h
  obtain ⟨rewritten, _, h⟩ := of_bind h
  split at h
  · cases h
  cases h
  exact ⟨seen_of_reads hread hseen, rfl, rfl⟩

theorem seen_of_preparePatchDelete (h : preparePatchDelete e s item = .ok item') :
    ItemSeen e s item' ∧ SameMove item item' := by
  obtain ⟨_, h⟩ := of_check h
  obtain ⟨⟨content, mode⟩, hread, h⟩ := of_bind h
  obtain ⟨_, hseen, h⟩ := of_bind h
  cases h
  exact ⟨seen_of_reads hread hseen, rfl, rfl⟩

theorem seen_of_preparePatchAdd (hop : item.operation = .add)
    (h : preparePatchAdd e s item content = .ok item') :
    ItemSeen e s item' ∧ SameMove item item' := by
  obtain ⟨_, h⟩ := of_check h
  obtain ⟨_, _, h⟩ := of_bind h
  cases h
  exact ⟨fun hne => absurd hop hne, rfl, rfl⟩

theorem seen_of_prepareOperation {action : PatchAction} (hop : item.operation = action.operation)
    (h : prepareOperation e s action item = .ok item') :
    ItemSeen e s item' ∧ SameMove item item' := by
  unfold prepareOperation at h
  split at h
  next hadd => exact seen_of_preparePatchAdd (hop.trans hadd) h
  next => exact seen_of_preparePatchUpdate h
  next => exact seen_of_preparePatchUpdate h
  next => exact seen_of_preparePatchDelete h

/-- **What passes preparation was seen.** -/
theorem seen_of_preparePatch (h : preparePatch e s actions = .ok items) :
    ∀ item ∈ items, ItemSeen e s item :=
  forall_of_preparePatch h fun _ _ _ _ _ _ _ _ hop => (seen_of_prepareOperation rfl hop).1

/-- The path a destination names is known before the patch to have a place. -/
def placedDestination (e : Executor) (files : Tree) (raw : String) : Bool :=
  match resolvePath e raw with
  | .ok path => (files.place path).isSome
  | .error _ => true

theorem placed_of_preparePatch (h : preparePatch e s actions = .ok items)
    (hpl : ∀ action ∈ actions, action.operation = .move →
      placedDestination e s.files action.destination = true) :
    ∀ item ∈ items, item.operation = .move → ∃ l, s.files.place item.destination = some l := by
  have hrdy := ready_of_preparePatch h
  have hnm : ∀ item ∈ items, item.operation = .move →
      item.destination = [] ∨ ∃ l, s.files.place item.destination = some l := by
    refine forall_of_preparePatch h fun action ha claimed path destination claimed' item hc hop => ?_
    obtain ⟨_, hsame, hdest⟩ := seen_of_prepareOperation rfl hop
    intro hmove
    rw [hdest]
    obtain ⟨_, _, hc⟩ := of_bind hc
    obtain ⟨_, _, hc⟩ := of_bind hc
    split at hc
    · cases hc
      exact .inl rfl
    · obtain ⟨path', hpath', hc⟩ := of_bind hc
      obtain ⟨_, _, hc⟩ := of_bind hc
      cases hc
      have hp := hpl action ha (hsame.symm.trans hmove)
      rw [placedDestination, hpath'] at hp
      exact .inr (Option.isSome_iff_exists.1 hp)
  intro item hi hmove
  rcases hnm item hi hmove with hnil | hl
  · -- the root is not free
    have hfree := (hrdy item hi).free item.destination
      (by simp only [PreparedPatchAction.newPath, hmove])
    rw [hnil, Tree.lstat, Tree.entry, Tree.read, s.files.node_nil] at hfree
    cases hfree
  · exact hl

end

/-! ## Files written and taken -/

section

variable {e : Executor} {S S' : Tree} {mode : Nat}

theorem writeNew_spec (h : writeNewFileAtomic S p x mode = .ok S') :
    ∃ c d, S.entry p = .ok (c :: d) ∧ S.node (c :: d) = none ∧
      (∀ k, S'.node k = if k = c :: d then some (.file x mode) else S.node k) ∧
      S'.resolve p = .ok (c :: d) := by
  obtain ⟨_, _, h⟩ := of_bind h
  have hpub := of_wrapPath h
  unfold publishNew at hpub
  split at hpub
  · cases hpub
  next l hl =>
    obtain ⟨hnone, hpub⟩ := of_require hpub
    obtain ⟨c, d, hent, _, hS⟩ := of_publish hpub
    rw [hl] at hent
    cases hent
    have hnew : S'.node (c :: d) = some (.file x mode) := by rw [hS, if_pos rfl]
    exact ⟨c, d, hl, hnone, hS,
      resolve_of_entry (entry_of_keep (keep_of_free hnone hS) hl) hnew rfl⟩

theorem publishEvents_new (h : S.entry p = .ok l) (hl : S.node l = none) :
    publishEvents S p x = [.content l x] := by
  rw [publishEvents, h]
  simp only [takeEvents, hl, nil_append]

theorem resolve_written {ym : Nat} (hp : S.resolve p = .ok l) (hl : S.node l = some (.file y ym))
    (hS : ∀ k, S'.node k = if k = l then some (.file x mode) else S.node k) :
    S'.resolve p = .ok l := by
  obtain ⟨r, hr⟩ := resolve_eq_ok_iff.1 hp
  refine resolve_eq_ok_iff.2 ⟨r, hr.keep (fun k _ => ?_) (keeps_nil S S')⟩
  intro n hn
  by_cases hk : k = l
  · rw [hk, hl] at hn
    cases hn
    exact ⟨.file x mode, by rw [hS, if_pos hk], .file _ _ _ _⟩
  · exact ⟨n, by rw [hS, if_neg hk, hn], .refl n⟩

theorem overwrite_spec {ym : Nat} (hp : S.resolve p = .ok l) (hl : S.node l = some (.file y ym))
    (h : writeFileAtomic S p x mode = .ok S') :
    (∀ k, S'.node k = if k = l then some (.file x mode) else S.node k) ∧ S'.resolve p = .ok l ∧
      publishEvents S (resolveWriteTarget S p) x = [.took l y, .content l x] := by
  obtain ⟨c, d, hent, _, hS⟩ := of_writeFileAtomic h
  have htgt : resolveWriteTarget S p = l := by rw [resolveWriteTarget, hp]
  cases l with
  | nil =>
    rw [S.node_nil] at hl
    cases hl
  | cons c' d' =>
    rw [htgt, entry_self hl] at hent
    cases hent
    refine ⟨hS, resolve_written hp hl hS, ?_⟩
    rw [htgt, publishEvents, entry_self hl]
    simp only [takeEvents, hl, singleton_append]

theorem follows_takeEvents
    (h : ∀ y ym, S.node l = some (.file y ym) → ledger l = some (e.hashBytes y)) :
    Follows e ledger (takeEvents S l) ledger := by
  unfold takeEvents
  split
  next y ym hl => exact ⟨h y ym hl, rfl⟩
  next => rfl

theorem made_of_mkdirAll (h : S.mkdirAll p = .ok S1) : ∃ d, Made S S1 d := by
  obtain ⟨d, hd⟩ := dirPlace_of_mkdirAll h
  obtain ⟨S2, h2, hmade, _⟩ := mkdirAll_spec hd
  rw [h] at h2
  cases h2
  exact ⟨d, hmade⟩

end

/-! ## Settled trees stay settled -/

section

variable {S' : Tree} {mode : Nat}

theorem keeps_or_file_of_none (h : Settled t S) (hl : S.node l = none) (S' : Tree) :
    Walks.Keeps t S' l ∨ ToFile t l := by
  refine (h.of_none hl).imp_left fun hnone n hn => ?_
  rw [hnone] at hn
  cases hn

theorem settled_made (h : Settled t S) (hmade : Made S S' d) : Settled t S' := by
  refine h.of_changes fun k => ?_
  rw [hmade k]
  split
  next hnew => exact .inr ⟨nofun, keeps_or_file_of_none h hnew.2 S'⟩
  next => exact .inl rfl

theorem settled_written (h : Settled t S)
    (hl : S.node l = none ∨ (∃ y ym, S.node l = some (.file y ym)) ∨ ToFile t l)
    (hS : ∀ k, S'.node k = if k = l then some (.file x mode) else S.node k) : Settled t S' := by
  refine h.of_changes fun k => ?_
  by_cases hk : k = l
  · subst hk
    have hnode : S'.node k = some (.file x mode) := by rw [hS, if_pos rfl]
    rw [hnode]
    refine .inr ⟨nofun, ?_⟩
    rcases hl with hnone | ⟨y, ym, hfile⟩ | hfile
    · exact keeps_or_file_of_none h hnone S'
    · refine (h.within k).imp_left fun hkeep n hn => ?_
      obtain ⟨n', hn', ha⟩ := hkeep n hn
      rw [hfile] at hn'
      cases hn'
      cases ha
      exact ⟨_, hnode, .file _ _ _ _⟩
    · exact .inr hfile
  · rw [hS, if_neg hk]
    exact .inl rfl

theorem settled_erased (h : Settled t S) (hl : ToFile t l)
    (hS : ∀ k, S'.node k = if k = l then none else S.node k) : Settled t S' := by
  refine h.of_changes fun k => ?_
  rw [hS]
  split
  next hk => exact .inr ⟨nofun, .inr (hk ▸ hl)⟩
  next => exact .inl rfl

end

/-! ## While a patch is applied -/

/-- The state of a patch that was prepared in `s₀`. -/
structure Patching (e : Executor) (s₀ s : ToolState) : Prop where
  settled : Settled s₀.files s.files
  files : ∀ k x mode, s.files.node k = some (.file x mode) →
    (s₀.files.node k = some (.file x mode) ∧ s.hashAt k = s₀.hashAt k) ∨
      s.hashAt k = some (e.hashBytes x)

theorem Patching.start (e : Executor) (s : ToolState) : Patching e s s :=
  ⟨.refl s.files, fun _ _ _ h => .inl ⟨h, rfl⟩⟩

section

variable {s s' : ToolState} {item : PreparedPatchAction} {p : Path} {mode : Nat}

theorem Patching.made (h : Patching e s0 s) (hm : s.files.mkdirAll p = .ok S1) :
    Patching e s0 { s with files := S1 } := by
  obtain ⟨d, hmade⟩ := made_of_mkdirAll hm
  refine ⟨settled_made h.settled hmade, fun k y ym hk => ?_⟩
  rw [hmade k] at hk
  split at hk
  · cases hk
  · exact h.files k y ym hk

theorem Patching.written (h : Patching e s0 s)
    (hl : s.files.node l = none ∨ (∃ y ym, s.files.node l = some (.file y ym)) ∨ ToFile s0.files l)
    (hS : ∀ k, s'.files.node k = if k = l then some (.file x mode) else s.files.node k)
    (hhash : s'.hashAt = update s.hashAt l (some (e.hashBytes x))) : Patching e s0 s' := by
  refine ⟨settled_written h.settled hl hS, fun k y ym hk => ?_⟩
  rw [hS] at hk
  rw [hhash, update_apply]
  split at hk
  next heq =>
    cases hk
    exact .inr (if_pos heq)
  next hne =>
    rw [if_neg hne]
    exact h.files k y ym hk

theorem Patching.erased (h : Patching e s0 s) (hl : ToFile s0.files l)
    (hS : ∀ k, s'.files.node k = if k = l then none else s.files.node k)
    (hhash : s'.hashAt = s.hashAt) : Patching e s0 s' := by
  refine ⟨settled_erased h.settled hl hS, fun k y ym hk => ?_⟩
  rw [hS] at hk
  split at hk
  · cases hk
  · rw [hhash]
    exact h.files k y ym hk

/-! ## One action -/

/-- **A new file** is written and recorded at its place. -/
theorem Patching.create (h : Patching e s0 s) (h1 : s.files.mkdirAll p.tail = .ok S1)
    (h2 : writeNewFileAtomic S1 p x mode = .ok S') :
    Patching e s0 (({ s with files := S' }).observeContent p (e.hashBytes x)) ∧
      Follows e s.hashAt (publishEvents S1 p x)
        (({ s with files := S' }).observeContent p (e.hashBytes x)).hashAt := by
  obtain ⟨c, d, hent, hnone, hS, hres⟩ := writeNew_spec h2
  have hhash := hashAt_recorded (s := s) hres (e.hashBytes x)
  refine ⟨(h.made h1).written (.inl hnone) hS hhash, ?_⟩
  rw [publishEvents_new hent hnone]
  exact hhash

theorem ItemSeen.entry (hseen : ItemSeen e s0 item) (hop : item.operation ≠ .add)
    (hw : Settled s0.files s.files) :
    ∃ c d f m r, s0.files.entry item.path = .ok (c :: d) ∧ s.files.entry item.path = .ok (c :: d) ∧
      s0.files.resolve item.path = .ok f ∧
      s0.files.node f = some (.file item.oldContent item.mode) ∧
      s0.hashAt f = some (e.hashBytes item.oldContent) ∧
      Walks s0.files m d [c] r f ∧ (∃ n, s0.files.node (c :: d) = some n) ∧
      ToFile s0.files (c :: d) := by
  obtain ⟨f, hf, hnode, hhash⟩ := hseen hop
  have hfile : s0.files.node f ≠ some .dir := by
    rw [hnode]
    exact nofun
  cases hp : item.path with
  | nil =>
    rw [hp] at hf
    cases hf
    rw [s0.files.node_nil] at hnode
    cases hnode
  | cons c q =>
    rw [hp] at hf
    obtain ⟨d, m, r, n, hent, hlast, hn, _⟩ := entry_of_resolve_file hf hfile
    exact ⟨c, d, f, m, r, hent, hw.within.entry hent, hf, hnode, hhash, hlast, ⟨n, hn⟩,
      c, d, m, r, f, rfl, hlast, hfile⟩

section
variable (h : Patching e s0 s) (hseen : ItemSeen e s0 item) (hop : item.operation ≠ .add)
include h hseen hop

/-- **A removed entry**, if it is a file, has the hash of the ledger. -/
theorem Patching.erase (hrm : s.files.remove item.path = .ok S') : ∃ c d,
    (∃ n, s0.files.node (c :: d) = some n) ∧
    (∀ k, S'.node k = if k = c :: d then none else s.files.node k) ∧ Patching e s0 { s with files := S' } ∧
      Follows e s.hashAt (removeEvents s.files item.path) s.hashAt := by
  obtain ⟨c, d, f, m, r, _, hent, _, hnode, hhash, hlast, hn, hfile⟩ := hseen.entry hop h.settled
  obtain ⟨c', d', hent', hS⟩ := of_remove hrm
  rw [hent] at hent'
  cases hent'
  refine ⟨c, d, hn, hS, h.erased hfile hS rfl, ?_⟩
  rw [removeEvents, hent]
  refine follows_takeEvents fun y ym hy => ?_
  rcases h.files _ y ym hy with ⟨hy0, hsame⟩ | hwrt
  · -- the entry is the file that was read
    have hself : f = c :: d :=
      hlast.single (node_parent hy0).2 fun a target hlink => by
        rw [hy0] at hlink
        cases hlink
    rw [hself, hy0] at hnode
    cases hnode
    rw [hsame, ← hself, hhash]
  · exact hwrt

/-- **An update** takes the file it was prepared for, or one the patch has written. -/
theorem Patching.update (hwr : writeFileAtomic s.files item.path x mode = .ok S') :
    Patching e s0 (({ s with files := S' }).observeContent item.path (e.hashBytes x)) ∧
      Follows e s.hashAt (publishEvents s.files (resolveWriteTarget s.files item.path) x)
        (({ s with files := S' }).observeContent item.path (e.hashBytes x)).hashAt := by
  obtain ⟨c, d, f, m, r, hent0, hent, hres0, hnode, hhash, _, _, hfile⟩ :=
    hseen.entry hop h.settled
  cases hres : s.files.resolve item.path with
  | ok T =>
    obtain ⟨c', d', hent', hdir, _⟩ := of_writeFileAtomic hwr
    obtain ⟨n, hn, hlink⟩ := exists_of_resolve hres
    have htgt : resolveWriteTarget s.files item.path = T := by rw [resolveWriteTarget, hres]
    have hT : T = c' :: d' := by
      rw [htgt] at hent'
      cases T with
      | nil => cases hent'
      | cons a b =>
        rw [entry_self hn] at hent'
        exact Except.ok.inj hent'
    cases n with
    | dir => exact absurd (hT ▸ hn) hdir
    | link => cases hlink
    | file y ym =>
      obtain ⟨hS, hres', hevs⟩ := overwrite_spec hres hn hwr
      have hkey := hashAt_recorded (s := s) hres' (e.hashBytes x)
      refine ⟨h.written (.inr (.inl ⟨y, ym, hn⟩)) hS hkey, ?_⟩
      rw [hevs, hkey]
      refine ⟨?_, rfl⟩
      rcases h.files T y ym hn with ⟨hy0, hsame⟩ | hwrt
      · obtain ⟨r0, hwalk0⟩ := resolve_eq_ok_iff.1 hres0
        obtain ⟨r', hwalk⟩ := resolve_eq_ok_iff.1 hres
        have hTf : f = T := by
          rcases h.settled.strays hwalk0 (keeps_nil _ _) hwalk with heq | hmem
          · exact heq.symm
          · exact hwalk0.end_of_file hmem hy0 rfl (by simp)
        rw [hTf, hy0] at hnode
        cases hnode
        rw [hsame, ← hTf, hhash]
      · exact hwrt
  | error err =>
    obtain ⟨c', d', hent', _, hS⟩ := of_writeFileAtomic hwr
    have htgt : resolveWriteTarget s.files item.path = item.path := by
      rw [resolveWriteTarget, hres]
    rw [htgt, hent] at hent'
    cases hent'
    -- nothing the path could lead to is at the entry
    have htake : takeEvents s.files (c :: d) = [] := by
      unfold takeEvents
      split
      next y ym hy =>
        rw [resolve_of_entry hent hy rfl] at hres
        cases hres
      next => rfl
    have hwrt : Settled s0.files S' := settled_written h.settled (.inr (.inr hfile)) hS
    have hnew : S'.node (c :: d) = some (.file x mode) := by rw [hS, if_pos rfl]
    have hkey := hashAt_recorded (s := s) (resolve_of_entry (hwrt.within.entry hent0) hnew rfl)
      (e.hashBytes x)
    refine ⟨h.written (.inr (.inr hfile)) hS hkey, ?_⟩
    rw [htgt, publishEvents, hent]
    show Follows e s.hashAt (takeEvents s.files (c :: d) ++ [.content (c :: d) x]) _
    rw [htake, hkey]
    rfl

end

theorem resolve_place (hw : Settled t S) (hpc : t.place p = some l)
    (hl : S.node l = some (.file x mode)) : S.resolve p = .ok l := by
  obtain ⟨c, q, d, rfl, hc, hd, rfl⟩ := of_place hpc
  have hdir := (node_parent hl).1
  have hpl := hw.within.dirPlace hd fun k hk _ => .inr (node_suffix hdir hk)
  rcases of_dirPlace hpl with ⟨hq, _⟩ | ⟨_, hnone⟩
  · exact resolve_cons hq hc hl rfl
  · rw [hdir] at hnone
    cases hnone

theorem node_place_of_writeNew (hw : Settled t S) (hpc : t.place p = some l)
    (h1 : S.mkdirAll p.tail = .ok S1) (h2 : writeNewFileAtomic S1 p x mode = .ok S') :
    S'.node l = some (.file x mode) := by
  have hne : p ≠ [] := by
    intro hp
    rw [hp] at hpc
    cases hpc
  obtain ⟨l', hl', _, hcr⟩ := of_writeNewFileAtomic hne h1 h2
  rw [hw.place_eq hpc hl'] at hcr
  rw [hcr l, if_pos rfl]

theorem Patching.removeSource
    (h : Patching e s0 (s.observeContent item.destination (e.hashBytes item.newContent)))
    (hrdy : ItemReady s0.files item) (hseen : ItemSeen e s0 item) (hop : item.operation = .move)
    (hpc : s0.files.place item.destination = some l)
    (hnode : s.files.node l = some (.file item.newContent item.mode)) :
    Patching e s0 (removeMoveSource e s item).state ∧
      Follows e (s.observeContent item.destination (e.hashBytes item.newContent)).hashAt
        (deleteEvents s.files item) (removeMoveSource e s item).state.hashAt := by
  have hadd : item.operation ≠ .add := by
    rw [hop]
    exact nofun
  have hfiles (hash : String) : (s.observeContent item.destination hash).files = s.files := rfl
  unfold removeMoveSource deleteEvents
  simp only [hfiles]
  cases hrm : s.files.remove item.path with
  | error err => exact ⟨h, rfl⟩
  | ok S3 =>
    obtain ⟨c, d, ⟨n, hn⟩, hS, herased, htaken⟩ := h.erase hseen hadd hrm
    have hnone : s0.files.node l = none :=
      node_place hpc (hrdy.free _ (by simp only [PreparedPatchAction.newPath, hop]))
    have hl : l ≠ c :: d := by
      intro heq
      rw [heq, hn] at hnone
      cases hnone
    have hnode3 : S3.node l = some (.file item.newContent item.mode) := by
      rw [hS, if_neg hl]
      exact hnode
    -- the second record is for the same real path, which has this hash already
    have hset : Settled s0.files s.files := h.settled
    have hkey : observationKey s.files item.destination = l := by
      rw [observationKey, resolve_place hset hpc hnode]
    have hhash : (({ s.observeContent item.destination (e.hashBytes item.newContent) with
          files := S3 } : ToolState).observeContent item.destination
          (e.hashBytes item.newContent)).hashAt =
        (s.observeContent item.destination (e.hashBytes item.newContent)).hashAt := by
      rw [hashAt_recorded (resolve_place herased.settled hpc hnode3), hashAt_observeContent, hkey,
        update_idem]
    refine ⟨⟨herased.settled, fun k y ym hk => ?_⟩, ?_⟩
    · rw [hhash]
      exact herased.files k y ym hk
    · rw [hhash]
      exact htaken

section
variable (h : Patching e s0 s) (hrdy : ItemReady s0.files item) (hseen : ItemSeen e s0 item)
include h hrdy hseen

/-- **A move** whose destination had a place writes it, takes its source, and records the destination
where it is. -/
theorem Patching.move (hop : item.operation = .move)
    (hpc : s0.files.place item.destination = some l) :
    Patching e s0 (applyPatchMove e s item).state ∧
    Follows e s.hashAt (actionEvents s.files item) (applyPatchMove e s item).state.hashAt := by
  unfold applyPatchMove
  simp only [actionEvents, hop, moveWritten, createEvents]
  cases h1 : s.files.mkdirAll item.destination.tail with
  | error err => exact ⟨h, rfl⟩
  | ok S1 =>
    simp only [wrapPath, bind, Except.bind]
    cases h2 : writeNewFileAtomic S1 item.destination item.newContent item.mode with
    | error err => exact ⟨h.made h1, rfl⟩
    | ok S2 =>
      obtain ⟨hwrt, hfollows⟩ := h.create h1 h2
      have hnode := node_place_of_writeNew h.settled hpc h1 h2
      obtain ⟨hmoved, hremoved⟩ := Patching.removeSource hwrt hrdy hseen hop hpc hnode
      exact ⟨hmoved, hfollows.append hremoved⟩

/-- **One action is in order.** -/
theorem Patching.action
    (hpl : item.operation = .move → ∃ l, s0.files.place item.destination = some l) :
    Patching e s0 (applyPreparedAction e s item).state ∧
    Follows e s.hashAt (actionEvents s.files item) (applyPreparedAction e s item).state.hashAt := by
  unfold applyPreparedAction
  cases hop : item.operation with
  | add =>
    simp only [applyPatchAdd, actionEvents, hop, createEvents]
    cases h1 : s.files.mkdirAll item.path.tail with
    | error err => exact ⟨h, rfl⟩
    | ok S1 =>
      simp only
      cases h2 : writeNewFileAtomic S1 item.path item.newContent item.mode with
      | error err => exact ⟨h.made h1, rfl⟩
      | ok S2 => exact h.create h1 h2
  | update =>
    simp only [applyPatchUpdate, actionEvents, hop]
    cases hwr : writeFileAtomic s.files item.path item.newContent item.mode with
    | error err => exact ⟨h, rfl⟩
    | ok S' => exact h.update hseen (by simp [hop]) hwr
  | delete =>
    simp only [applyPatchDelete, actionEvents, hop, deleteEvents]
    cases hrm : s.files.remove item.path with
    | error err => exact ⟨h, rfl⟩
    | ok S' =>
      obtain ⟨_, _, _, _, herased, htaken⟩ := h.erase hseen (by simp [hop]) hrm
      exact ⟨herased, htaken⟩
  | move =>
    obtain ⟨l, hl⟩ := hpl hop
    exact h.move hrdy hseen hop hl

end

end

/-- **A patch is in order** when the destinations of its moves had places before it. -/
theorem Patching.run {e : HostExecutor} (items : List PreparedPatchAction)
    (h : Patching e.toExecutor s0 s) (hrdy : ∀ item ∈ items, ItemReady s0.files item)
    (hseen : ∀ item ∈ items, ItemSeen e.toExecutor s0 item)
    (hpl : ∀ item ∈ items, item.operation = .move → ∃ l, s0.files.place item.destination = some l) :
    Follows e.toExecutor s.hashAt (patchEvents e s items)
      (applyPreparedPatch e.toExecutor s items).state.hashAt := by
  induction items generalizing s with
  | nil => rfl
  | cons item items ih =>
    obtain ⟨hnext, hfollows⟩ := h.action (hrdy item mem_cons_self)
      (hseen item mem_cons_self) (hpl item mem_cons_self)
    unfold patchEvents applyPreparedPatch
    refine hfollows.append ?_
    dsimp only
    cases herr : (applyPreparedAction e.toExecutor s item).err with
    | some err => rfl
    | none =>
      exact ih hnext (fun i hi => hrdy i (mem_cons_of_mem _ hi))
        (fun i hi => hseen i (mem_cons_of_mem _ hi))
        (fun i hi => hpl i (mem_cons_of_mem _ hi))

end Peen.Tools
