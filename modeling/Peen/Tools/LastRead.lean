import Peen.Lib.Run
import Peen.Tools.PatchLedger

/-!
# Files are changed only as last read

Every call of a file tool is in order (`Follows`): what it took had the hash the ledger had for its
real path, and what it read or wrote is recorded there.
-/

namespace Peen.Tools

open Files Lts

/-! ## One call -/

def InOrder {α : Type} (e : HostExecutor) (s : ToolState) (o : Outcome α) : Prop :=
  Follows e.toExecutor s.hashAt o.events o.state.hashAt

section

variable {e : HostExecutor} {s : ToolState} {path : Path} {f : Loc} {content : Bytes} {mode : Nat}

theorem of_readContent (h : readContent e s.files path input = .ok (content, output)) :
    ∃ f, s.files.resolve path = .ok f := by
  unfold readContent at h
  split at h
  · obtain ⟨_, hread, _⟩ := of_bind h
    exact (of_readRegularFile hread).imp fun _ hf => hf.1
  · split at h
    · obtain ⟨_, hread, _⟩ := of_bind h
      exact (of_readRegularFile hread).imp fun _ hf => hf.1
    · obtain ⟨_, hread, _⟩ := of_bind h
      exact (of_readRegularFile hread).imp fun _ hf => hf.1

theorem inOrder_readFile (input : ReadFileInput) : InOrder e s (readFile e s input) := by
  unfold readFile
  split
  · rfl
  · split
    · rfl
    next content output hread =>
      obtain ⟨f, hf⟩ := of_readContent hread
      unfold InOrder readEvents
      rw [hf]
      have h : s.files.resolve _ = .ok f := hf
      exact hashAt_recorded h _

def Known (e : HostExecutor) (s : ToolState) (path : Path) : Prop :=
  ∃ f content mode, s.files.resolve path = .ok f ∧ s.files.node f = some (.file content mode) ∧
    s.hashAt f = some (e.hashBytes content)

theorem known_of_reads {maximum : Nat}
    (hread : readRegularFile s.files path maximum = .ok (content, mode))
    (hseen : requireObservedContent e.toExecutor s path content = .ok u) : Known e s path := by
  obtain ⟨f, hf, hn⟩ := of_readRegularFile hread
  exact ⟨f, content, mode, hf, hn, of_requireObservedContent hseen hf⟩

theorem inOrder_overwriteFile {α : Type} (h : Known e s path) (output : α) :
    InOrder e s (overwriteFile e s path content mode output) := by
  obtain ⟨f, old, oldMode, hf, hn, hhash⟩ := h
  unfold overwriteFile
  split
  · rfl
  next files hwr =>
    obtain ⟨_, hf', hevs⟩ := overwrite_spec hf hn hwr
    rw [hevs]
    exact ⟨hhash, hashAt_recorded hf' _⟩

theorem inOrder_createFile (input : WriteFileInput) : InOrder e s (createFile e s path input) := by
  unfold createFile
  split
  · rfl
  · split
    · rfl
    next files hmade =>
      split
      · rfl
      next files' hwr =>
        obtain ⟨c, d, hent, hnone, _, hf⟩ := writeNew_spec hwr
        rw [publishEvents_new hent hnone]
        exact hashAt_recorded hf _

theorem known_of_checkReplace (h : checkReplace e s path expected = .ok mode) : Known e s path := by
  obtain ⟨_, h⟩ := of_check h
  obtain ⟨⟨current, mode'⟩, hread, h⟩ := of_bind h
  obtain ⟨_, hseen, _⟩ := of_bind h
  exact known_of_reads hread hseen

theorem inOrder_writeFile (input : WriteFileInput) : InOrder e s (writeFile e s input) := by
  unfold writeFile
  split
  · rfl
  split
  · rfl
  split
  · rfl
  · unfold writeFileLocked
    split
    · exact inOrder_createFile input
    · rfl
    · unfold replaceFile
      split
      · rfl
      next hck => exact inOrder_overwriteFile (known_of_checkReplace hck) _
    · rfl

theorem inOrder_editFile (input : EditFileInput) : InOrder e s (editFile e s input) := by
  unfold editFile
  split
  · rfl
  split
  · rfl
  · unfold applyEditsLocked
    split
    · rfl
    next hprep =>
      obtain ⟨⟨content, mode'⟩, hread, h⟩ := of_bind hprep
      obtain ⟨_, _, h⟩ := of_bind h
      obtain ⟨_, hseen, _⟩ := of_bind h
      exact inOrder_overwriteFile (known_of_reads hread hseen) _

/-! ## Moving -/

theorem of_lstat {t : Tree} (h : t.lstat path = .ok n) :
    ∃ l, t.entry path = .ok l ∧ t.node l = some n := by
  unfold Tree.lstat Tree.read at h
  split at h
  · cases h
  next l hl =>
    split at h
    · cases h
    next hn =>
      cases h
      exact ⟨l, hl, hn⟩

theorem of_checkMove {source destination : Path} {hash : Option String}
    (h : checkMove e s source destination = .ok hash) :
    ∃ l n, s.files.entry source = .ok l ∧ s.files.node l = some n ∧
      ((∃ content mode, n = .file content mode ∧ hash = some (e.hashBytes content) ∧
        s.hashAt l = some (e.hashBytes content)) ∨
      ((∀ content mode, n ≠ .file content mode) ∧ hash = none)) := by
  obtain ⟨n, hn, h⟩ := of_bind h
  obtain ⟨hash', hmove, h⟩ := of_bind h
  obtain ⟨_, _, h⟩ := of_bind h
  cases h
  obtain ⟨l, hent, hnode⟩ := of_lstat (of_wrapPath hn)
  refine ⟨l, n, hent, hnode, ?_⟩
  cases n with
  | file =>
    obtain ⟨⟨content', mode'⟩, hread, hmove⟩ := of_bind hmove
    obtain ⟨_, hseen, hmove⟩ := of_bind hmove
    cases hmove
    obtain ⟨f, hf, hnf⟩ := of_readRegularFile hread
    have hlf := Tree.resolve_of_entry hent hnode rfl
    rw [hf] at hlf
    cases hlf
    rw [hnode] at hnf
    cases hnf
    exact .inl ⟨_, _, rfl, rfl, of_requireObservedContent hseen hf⟩
  | dir | link =>
    obtain ⟨_, _, hmove⟩ := of_bind hmove
    cases hmove
    exact .inr ⟨nofun, rfl⟩

theorem entry_made {t : Tree} (hmade : t.mkdirAll p = .ok t') (hl : t.entry path = .ok l)
    (hn : t.node l = some n) : t'.entry path = .ok l ∧ t'.node l = some n := by
  obtain ⟨d, hmade⟩ := made_of_mkdirAll hmade
  exact ⟨Tree.entry_of_keep (fun _ _ => hmade.keep) hl, hmade.keep hn⟩

theorem resolve_renamed {t : Tree} {s c d : _} {p : Path} (hm : Tree.Movable t s c d)
    (hs : t.node s = some (.file content mode)) (hp : t.entry p = .ok (c :: d)) :
    (t.relocate s c d hm).resolve p = .ok (c :: d) := by
  cases p with
  | nil => cases hp
  | cons c' q =>
    obtain ⟨hc, d', hq, hdir, heq⟩ := Tree.entry_cons_iff.1 hp
    cases heq
    have hnode := Tree.node_relocate_file hm hs
    obtain ⟨r, hr⟩ := Tree.resolve_eq_ok_iff.1 hq
    have hkeep : ∀ k ∈ r, Tree.Walks.Keeps t (t.relocate s c d hm) k := by
      intro k hk n hn
      -- a walk to a directory does not pass through the file
      have hks : k ≠ s := by
        intro heq
        rw [heq] at hk
        rw [hr.end_of_file hk hs rfl nofun, hs] at hdir
        cases hdir
      have hkd : k ≠ c :: d := by
        intro heq
        rw [heq, hm.free] at hn
        cases hn
      exact ⟨n, by rw [hnode, if_neg hkd, if_neg hks, hn], .refl n⟩
    have hq' := Tree.resolve_eq_ok_iff.2 ⟨r, hr.keep hkeep (Tree.keeps_nil _ _)⟩
    have hnew : (t.relocate s c d hm).node (c :: d) = some (.file content mode) := by
      rw [hnode, if_pos rfl]
    exact Tree.resolve_cons hq' hc hnew rfl

theorem inOrder_movePathLocked (source destination : Path) :
    InOrder e s (movePathLocked e s source destination) := by
  unfold movePathLocked
  split
  · rfl
  next hash hck =>
    split
    · rfl
    next files hmade =>
      split
      · rfl
      next files' hrename =>
        obtain ⟨l, n, hl, hn, hkind⟩ := of_checkMove hck
        obtain ⟨hl', hn'⟩ := entry_made hmade hl hn
        obtain ⟨l', c, d, hm, hsrc, hdest, hfiles⟩ := Tree.of_renameNoReplace hrename
        rw [hl'] at hsrc
        cases hsrc
        unfold InOrder renameEvents
        rw [hl', hdest]
        rcases hkind with ⟨content, mode, rfl, rfl, hhash⟩ | ⟨hoth, rfl⟩
        · simp only [hn']
          refine ⟨hhash, ?_⟩
          exact hashAt_recorded (hfiles ▸ resolve_renamed hm hn' hdest) _
        · cases n with
          | file content mode => exact absurd rfl (hoth content mode)
          | dir | link =>
            simp only [hn']
            exact hashAt_observe

theorem inOrder_movePath (input : MovePathInput) : InOrder e s (movePath e s input) := by
  unfold movePath
  split
  · rfl
  split
  · rfl
  · rfl
  · exact inOrder_movePathLocked _ _

/-! ## Removing -/

theorem inOrder_removeEntry
    (h : ∀ l content mode, s.files.entry path = .ok l → s.files.node l = some (.file content mode) →
      s.hashAt l = some (e.hashBytes content)) : InOrder e s (removeEntry s path message) := by
  unfold removeEntry
  split
  · rfl
  · unfold InOrder removeEvents
    split
    next l hl => exact follows_takeEvents fun content mode hn => h l content mode hl hn
    next => rfl

theorem inOrder_removeOther (h : s.files.lstat path = .ok n)
    (hn : ∀ content mode, n ≠ .file content mode) : InOrder e s (removeEntry s path message) := by
  obtain ⟨l, hl, hnode⟩ := of_lstat h
  refine inOrder_removeEntry fun l' content mode hl' hn' => ?_
  rw [hl] at hl'
  cases hl'
  rw [hnode] at hn'
  exact absurd (Option.some.inj hn') (hn content mode)

theorem inOrder_removeFile (expected : String) : InOrder e s (removeFile e s path expected) := by
  unfold removeFile
  split
  · rfl
  next hck =>
    obtain ⟨_, hck⟩ := of_check hck
    obtain ⟨⟨content, mode⟩, hread, h⟩ := of_bind hck
    obtain ⟨_, hseen, _⟩ := of_bind h
    obtain ⟨f, content', mode', hf, hn, hhash⟩ := known_of_reads hread hseen
    refine inOrder_removeEntry fun l x m hl hx => ?_
    have hlf := Tree.resolve_of_entry hl hx rfl
    rw [hf] at hlf
    cases hlf
    rw [hn] at hx
    cases hx
    exact hhash

theorem inOrder_removeDirectory (input : RemovePathInput)
    (hdir : s.files.lstat path = .ok .dir) : InOrder e s (removeDirectory e s path input) := by
  unfold removeDirectory
  split
  · rfl
  split
  · unfold removeEmptyDirectory
    split
    · rfl
    · exact inOrder_removeOther hdir nofun
  · unfold removeDirectoryTree
    dsimp only
    split
    · rfl
    split <;> rfl

theorem inOrder_removePath (input : RemovePathInput) : InOrder e s (removePath e s input) := by
  unfold removePath
  split
  · rfl
  split
  · rfl
  split
  · rfl
  · unfold removePathLocked
    split
    · rfl
    next info hinfo =>
      split
      · rfl
      · split
        · exact inOrder_removeDirectory input hinfo
        · exact inOrder_removeFile input.expectedSHA256
        · exact inOrder_removeOther hinfo nofun

theorem inOrder_makeDirectory (raw : String) : InOrder e s (makeDirectory e s raw) := by
  unfold makeDirectory
  split
  · rfl
  split
  · rfl
  split
  · rfl
  · exact hashAt_observe

theorem inOrder_applyPatch
    (h : ∀ action ∈ actions, action.operation = .move →
      placedDestination e.toExecutor s.files action.destination = true) :
    InOrder e s (applyPatch e s actions) := by
  unfold applyPatch
  split
  · rfl
  split
  · rfl
  split
  · rfl
  next prepared hprep =>
    exact Patching.run prepared (.start _ s) (ready_of_preparePatch hprep)
      (seen_of_preparePatch hprep) (placed_of_preparePatch hprep h)

end

/-! ## Runs -/

/-- The destinations of a patch's moves have places before the patch. -/
def MovesPlaced (e : HostExecutor) (w : Host) : HostStep → Prop
  | .call (.applyPatch actions) => ∀ action ∈ actions, action.operation = .move →
      placedDestination e.toExecutor w.state.files action.destination = true
  | _ => True

instance (e : HostExecutor) (w : Host) : DecidablePred (MovesPlaced e w)
  | .call (.applyPatch _) => inferInstanceAs (Decidable (∀ _ ∈ _, _))
  | .call (.readFile _) | .call (.writeFile _) | .call (.editFile _) | .call (.movePath _)
  | .call (.removePath _) | .call (.makeDirectory _) | .call (.look _) | .outside _ =>
    .isTrue trivial

/-- **One step** keeps the ledger and the history in agreement. -/
theorem sound_step {e : HostExecutor} {w : Host} (h : Sound e.toExecutor w.state.hashAt w.history)
    (ha : MovesPlaced e w a) (hs : step e w a = some w') :
    Sound e.toExecutor w'.state.hashAt w'.history := by
  cases a with
  | outside files =>
    cases hs
    exact h
  | call c =>
    cases hs
    refine h.follows ?_
    cases c with
    | readFile input => exact inOrder_readFile input
    | writeFile input => exact inOrder_writeFile input
    | editFile input => exact inOrder_editFile input
    | movePath input => exact inOrder_movePath input
    | removePath input => exact inOrder_removePath input
    | makeDirectory path => exact inOrder_makeDirectory path
    | applyPatch => exact inOrder_applyPatch ha
    | look paths => exact hashAt_foldl_observe paths

/-- **Files are changed only as last read.** In every run of tool calls with changes from outside
between them, in which the destinations of the moves of every patch have places before the patch,
every regular file a call replaced, moved or deleted hashed to the content the executor had last read
or written at its real path. -/
theorem files_changed_as_known (e : HostExecutor) (files : Tree) (steps : List HostStep)
    (h : Along (step e) (MovesPlaced e) (opened files) steps) :
    Always (step e) (fun w => ∀ t ∈ w.history.taken, t.AsKnown e.toExecutor) (opened files)
      steps := by
  have hstart : Sound e.toExecutor (opened files).state.hashAt (opened files).history :=
    ⟨nofun, nofun⟩
  exact (always_of_along (fun _ _ _ hw ha hs => sound_step hw ha hs) hstart h).mono
    fun _ hw => hw.taken

def textExecutor : HostExecutor where
  workspace := ["w"]
  home := none
  maxWriteBytes := 100
  maxPatchChangedBytes := 100
  utf8Valid := fun _ => true
  hashBytes := fun bytes => String.ofList (bytes.map fun b => Char.ofNat b.toNat)
  protectedDirectory := ["w"]
  maxReadBytes := 100
  maxReadLines := 100
  maxImageBytes := 100
  maxPDFBytes := 100
  maxEdits := 10
  maxPatchFiles := 10
  maxPatchHunks := 10
  maxRemoveEntries := 10
  toLower := id
  equalFold := fun a b => a == b
  detectContentType := fun _ => ""
  pdfText := fun _ => .error ⟨.parseFailed, "malformed PDF"⟩

/-- A file, a link to its directory, and a link that leads nowhere while `d` is missing. -/
def aliasedFiles : Tree where
  entries := [([], .dir), (["w"], .dir), (["f", "w"], .file [120, 10] newFileMode),
    (["k", "w"], .link false []), (["l", "w"], .link false ["d", ".."])]
  root := by decide
  inner := by decide

/-- A file read through one spelling, edited through another, moved and removed. -/
def editedAndMoved : List HostStep :=
  [.call (.readFile { path := "k/f" }),
    .call (.editFile ⟨"f", [⟨[120], [121]⟩]⟩),
    .call (.movePath ⟨"k/f", "e/g"⟩),
    .call (.applyPatch [⟨.move, "e/g", "h", [], [⟨[], [⟨.delete, [121]⟩, ⟨.add, [122]⟩], false⟩]⟩]),
    .call (.removePath ⟨"h", false, "z\n"⟩)]

/-- Each time a file is taken it is as known. -/
theorem files_changed_as_known_spellings :
    (exec (step textExecutor) (opened aliasedFiles) editedAndMoved).map
      (fun w => w.history.taken.map fun t => (t.place, t.bytes)) =
      some [(["f", "w"], [120, 10]), (["f", "w"], [121, 10]), (["g", "e", "w"], [121, 10]),
        (["h", "w"], [122, 10])] ∧
    Along (step textExecutor) (MovesPlaced textExecutor) (opened aliasedFiles) editedAndMoved ∧
    Always (step textExecutor) (fun w => ∀ t ∈ w.history.taken, t.AsKnown textExecutor.toExecutor)
      (opened aliasedFiles) editedAndMoved := by
  have halong : Along (step textExecutor) (MovesPlaced textExecutor) (opened aliasedFiles)
      editedAndMoved := by decide +kernel
  exact ⟨by decide +kernel, halong, files_changed_as_known _ _ _ halong⟩

/-- The link is a directory now, with a file that was never read. -/
def unlinkedFiles : Tree where
  entries := [([], .dir), (["w"], .dir), (["l", "w"], .dir),
    (["f", "l", "w"], .file [121, 10] newFileMode)]
  root := by decide
  inner := by decide

/-- A patch that deletes a file through another spelling, makes the link lead somewhere, and moves the
file through the link to its own place. -/
def movedOntoItself : List PatchAction :=
  [⟨.delete, "k/f", "", [], []⟩, ⟨.add, "d/x", "", [97], []⟩,
    ⟨.move, "f", "l/f", [], [⟨[], [⟨.delete, [120]⟩, ⟨.add, [121]⟩], false⟩]⟩]

/-- After the patch the ledger has a hash for the path of the destination as it was given. -/
def unreadReplaced : List HostStep :=
  [.call (.readFile { path := "f" }), .call (.applyPatch movedOntoItself),
    .outside unlinkedFiles, .call (.writeFile ⟨"l/f", [122], "y\n"⟩)]

/-- A file that was never read or written at its real path is replaced. -/
theorem unread_file_replaced : (exec (step textExecutor) (opened aliasedFiles) unreadReplaced).map
      (fun w => w.history.taken.map fun t => (t.place, t.bytes, t.known)) =
      some [(["f", "w"], [120, 10], some [120, 10]), (["f", "w"], [121, 10], some [121, 10]),
        (["f", "l", "w"], [121, 10], none)] ∧
    ¬ Always (step textExecutor) (fun w => ∀ t ∈ w.history.taken, t.AsKnown textExecutor.toExecutor)
      (opened aliasedFiles) unreadReplaced := by
  refine ⟨by decide +kernel, ?_⟩
  refine not_always_of_exec (f := fun w => w.history.taken.any (·.known.isNone)) ?_
    (by decide +kernel)
  intro w hw hall
  obtain ⟨t, ht, hnone⟩ := List.any_eq_true.1 hw
  obtain ⟨content, hknown, _⟩ := hall t ht
  rw [hknown] at hnone
  cases hnone

end Peen.Tools
