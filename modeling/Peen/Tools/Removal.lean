import Peen.Tools.LastRead

/-!
# What a removal leaves

A successful `removePath` takes the entry its path names out of the tree, with everything below it
(`took_removePath`).
-/

namespace Peen.Tools

open Files List

/-- The second tree is the first without what is at a location and below it. -/
structure Removed (t t' : Tree) (l : Loc) : Prop where
  gone : t'.node l = none
  kept : ∀ k, ¬ l <:+ k → t'.node k = t.node k

def Took (t : Tree) (path : Path) (o : Outcome RemovePathOutput) : Prop :=
  ∀ out, o.result = .ok out → ∃ l, t.entry path = .ok l ∧ Removed t o.state.files l

section
variable {t t' : Tree} {e : HostExecutor} {s : ToolState} {path : Path}

theorem Removed.dir_iff (h : Removed t t' l) (hd : t.node d = some .dir) :
    t'.node d = some .dir ↔ ¬ l <:+ d := by
  refine ⟨fun hd' => Tree.not_suffix_of_none h.gone ?_, fun hl => (h.kept d hl).trans hd⟩
  rw [hd']
  exact nofun

theorem removed_of_removeAll (hl : t.entry path = .ok l) (h : t.removeAll path = .ok t') :
    Removed t t' l := by
  unfold Tree.removeAll at h
  rw [hl] at h
  dsimp only at h
  split at h
  · cases h
    refine ⟨?_, fun k hk => Tree.lookup_filter_not_suffix _ hk⟩
    refine Option.map_eq_none_iff.2 (find?_eq_none.2 fun entry hentry hk => ?_)
    have hsuffix := (mem_filter.1 hentry).2
    rw [beq_iff_eq.1 hk] at hsuffix
    simp at hsuffix
  · cases h

theorem took_removeEntry (message : String) : Took s.files path (removeEntry s path message) := by
  unfold removeEntry
  split
  · exact nofun
  next hfiles =>
    intro _ _
    obtain ⟨c, d, hl, hnode⟩ := Tree.of_remove hfiles
    refine ⟨c :: d, hl, ?_, fun k hk => ?_⟩
    · rw [hnode, if_pos rfl]
    · rw [hnode, if_neg]
      intro he
      exact hk (he ▸ suffix_refl _)

theorem took_removeFile (expected : String) : Took s.files path (removeFile e s path expected) := by
  unfold removeFile
  split
  · exact nofun
  · exact took_removeEntry _

theorem took_removeDirectory (input : RemovePathInput) (hl : s.files.entry path = .ok l) :
    Took s.files path (removeDirectory e s path input) := by
  unfold removeDirectory
  split
  · exact nofun
  split
  · unfold removeEmptyDirectory
    split
    · exact nofun
    · exact took_removeEntry _
  · unfold removeDirectoryTree
    dsimp only
    split
    · exact nofun
    split
    · exact nofun
    next hfiles => exact fun _ _ => ⟨l, hl, removed_of_removeAll hl hfiles⟩

theorem took_removePathLocked (input : RemovePathInput) :
    Took s.files path (removePathLocked e s path input) := by
  unfold removePathLocked
  split
  · exact nofun
  next hinfo =>
    obtain ⟨l, hl, _⟩ := of_lstat hinfo
    split
    · exact nofun
    split
    · exact took_removeDirectory input hl
    · exact took_removeFile _
    · exact took_removeEntry _

/-- **What a removal takes**: the entry its path names, with what is below it. -/
theorem took_removePath (input : RemovePathInput) :
    (removePath e s input).result = .ok out →
    ∃ path l, resolvePath e.toExecutor input.path = .ok path ∧ s.files.entry path = .ok l ∧
      Removed s.files (removePath e s input).state.files l := by
  unfold removePath
  split
  · exact nofun
  split
  · exact nofun
  next path hpath =>
    split
    · exact nofun
    · intro h
      obtain ⟨l, hl, hremoved⟩ := took_removePathLocked input out h
      exact ⟨path, l, hpath, hl, hremoved⟩

end

/-- The entry a path names is neither a directory nor above it. -/
def Spares (e : HostExecutor) (s : ToolState) (raw : String) (d : Loc) : Prop :=
  ∀ path l, resolvePath e.toExecutor raw = .ok path → s.files.entry path = .ok l → ¬ l <:+ d

/-- **Which removals leave the workspace.** After a removal that succeeds, the workspace is still
there exactly if the entry its path names is neither the workspace nor a directory above it, and so
is the protected directory. -/
theorem removePath_keeps_roots_iff (e : HostExecutor) (s : ToolState) (input : RemovePathInput)
    (h : (removePath e s input).result = .ok out) :
    ∀ d, s.files.resolve e.workspace = .ok d ∨ s.files.resolve e.protectedDirectory = .ok d →
      s.files.node d = some .dir →
      ((removePath e s input).state.files.node d = some .dir ↔ Spares e s input.path d) := by
  intro d _ hdir
  obtain ⟨path, l, hpath, hl, hremoved⟩ := took_removePath input h
  rw [hremoved.dir_iff hdir]
  refine ⟨fun hspared path' l' hpath' hl' => ?_, fun hspares => hspares path l hpath hl⟩
  rw [hpath] at hpath'
  cases hpath'
  rw [hl] at hl'
  cases hl'
  exact hspared

def nestedExecutor : HostExecutor :=
  { textExecutor with workspace := ["w", "a"], protectedDirectory := ["w", "a"] }

/-- The turn has seen the file and the directory above the workspace. -/
def nestedState : ToolState where
  files := ⟨[([], .dir), (["a"], .dir), (["w", "a"], .dir), (["f", "w", "a"], .file [120] 0)],
    by decide, by decide⟩
  observed := [(["f", "w", "a"], ⟨"x", true, 1⟩), (["a"], ⟨"", false, 2⟩)]
  observationRevision := 2

/-- A file of the workspace is removed, and the workspace stays. -/
theorem removePath_keeps_roots_file :
    (removePath nestedExecutor nestedState ⟨"f", false, "x"⟩).result = .ok ⟨["f", "w", "a"], 1⟩ ∧
    ((removePath nestedExecutor nestedState ⟨"f", false, "x"⟩).state.files.node ["w", "a"] =
      some .dir ↔ Spares nestedExecutor nestedState "f" ["w", "a"]) := by
  have h : (removePath nestedExecutor nestedState ⟨"f", false, "x"⟩).result =
      .ok ⟨["f", "w", "a"], 1⟩ := by decide +kernel
  exact ⟨h, removePath_keeps_roots_iff _ _ _ h _ (.inl rfl) rfl⟩

/-- The parent directory is removed, and the workspace with it. -/
theorem workspace_removed_with_parent :
    (removePath nestedExecutor nestedState ⟨"..", true, ""⟩).result = .ok ⟨["a"], 3⟩ ∧
    nestedState.files.resolve nestedExecutor.workspace = .ok ["w", "a"] ∧
    nestedState.files.node ["w", "a"] = some .dir ∧
    (removePath nestedExecutor nestedState ⟨"..", true, ""⟩).state.files.node ["w", "a"] = none := by
  decide +kernel

end Peen.Tools
