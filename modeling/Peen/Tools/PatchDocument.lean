import Peen.Base
import Peen.Tools.PatchParser

/-!
# Patch documents parse to what they say

`PatchEntry` is what a document says about one file, `document` its canonical text: every hunk line
with its kind byte, anchors behind the hunk delimiter.
-/

namespace Peen.Tools

open List Except

/-! ## Entries -/

/-- What a document says about a file. -/
inductive PatchEntry where
  | add (path : Bytes) (content : List Bytes)
  | delete (path : Bytes)
  | update (path : Bytes) (hunks : List PatchHunk)
  | move (path destination : Bytes) (hunks : List PatchHunk)

def PatchLineKind.byte : PatchLineKind → UInt8
  | .context => 0x20
  | .add => 0x2B
  | .delete => 0x2D

def PatchLine.written (line : PatchLine) : Bytes := line.kind.byte :: line.text

def PatchHunk.document (hunk : PatchHunk) : List Bytes :=
  (if hunk.anchor = [] then patchHunkPrefix else patchHunkPrefix ++ 0x20 :: hunk.anchor) ::
    (hunk.lines.map PatchLine.written ++ if hunk.endOfFile then [patchEndOfFileMarker] else [])

namespace PatchEntry

def document : PatchEntry → List Bytes
  | .add path content => (patchAddPrefix ++ path) :: content.map (0x2B :: ·)
  | .delete path => [patchDeletePrefix ++ path]
  | .update path hunks => (patchUpdatePrefix ++ path) :: hunks.flatMap PatchHunk.document
  | .move path destination hunks =>
    (patchUpdatePrefix ++ path) :: (patchMovePrefix ++ destination) ::
      hunks.flatMap PatchHunk.document

def action : PatchEntry → ParsedAction
  | .add path content => { operation := .add, path, addContent := addContentOf content }
  | .delete path => { operation := .delete, path }
  | .update path hunks => { operation := .update, path, hunks }
  | .move path destination hunks => { operation := .move, path, destination, hunks }

def paths : PatchEntry → List Bytes
  | .add path _ => [path]
  | .delete path => [path]
  | .update path _ => [path]
  | .move path destination _ => [path, destination]

def hunks : PatchEntry → List PatchHunk
  | .add _ _ => []
  | .delete _ => []
  | .update _ hunks => hunks
  | .move _ _ hunks => hunks

def texts (entry : PatchEntry) : List Bytes :=
  entry.paths ++ (match entry with | .add _ content => content | _ => []) ++
    entry.hunks.flatMap fun hunk => hunk.anchor :: hunk.lines.map (·.text)

end PatchEntry

/-- The canonical text. -/
def patchDocument (entries : List PatchEntry) : Bytes :=
  joinNewlines (applyPatchBeginMarker ::
    (entries.flatMap PatchEntry.document ++ [applyPatchEndMarker]))

def SingleLine (text : Bytes) : Prop := 0 ∉ text ∧ carriageReturn ∉ text ∧ newline ∉ text

instance (text : Bytes) : Decidable (SingleLine text) :=
  inferInstanceAs (Decidable (_ ∧ _ ∧ _))

/-- A hunk changes something, and its anchor is trimmed. -/
structure HunkSaid (hunk : PatchHunk) : Prop where
  change : ∃ line ∈ hunk.lines, line.kind ≠ .context
  anchor : Utf8.trimSpace hunk.anchor = hunk.anchor

/-- An entry with trimmed paths, hunks with changes, and texts of one line. -/
structure EntrySaid (entry : PatchEntry) : Prop where
  path : ∀ path ∈ entry.paths, path ≠ [] ∧ Utf8.trimSpace path = path
  hunk : ∀ hunk ∈ entry.hunks, HunkSaid hunk
  line : ∀ text ∈ entry.texts, SingleLine text

/-- What the parser asks for beyond that: texts in UTF-8, and an update with a hunk. -/
structure EntryParsed (entry : PatchEntry) : Prop where
  text : ∀ text ∈ entry.texts, Utf8.valid text = true
  update : ∀ path, entry ≠ .update path []

/-! ## First bytes -/

section
variable {text : Bytes}

theorem hasPrefix_append (start rest : Bytes) : hasPrefix (start ++ rest) start = true := by
  simp [hasPrefix]

theorem trimPrefix_append (start rest : Bytes) : trimPrefix (start ++ rest) start = rest := by
  rw [trimPrefix, if_pos (hasPrefix_append start rest), drop_left]

theorem not_hasPrefix (h : a ≠ b) (rest start : Bytes) :
    hasPrefix (a :: rest) (b :: start) = false := by
  show (b == a && start.isPrefixOf rest) = false
  rw [beq_eq_false_iff_ne.2 h.symm, Bool.false_and]

theorem not_header (h : a ≠ 0x2A) (rest : Bytes) : isPatchActionHeader (a :: rest) = false := by
  have hadd : hasPrefix (a :: rest) patchAddPrefix = false := not_hasPrefix h _ _
  have hdelete : hasPrefix (a :: rest) patchDeletePrefix = false := not_hasPrefix h _ _
  have hupd : hasPrefix (a :: rest) patchUpdatePrefix = false := not_hasPrefix h _ _
  rw [isPatchActionHeader, hadd, hdelete, hupd]
  rfl

theorem byte_ne (kind : PatchLineKind) : kind.byte ≠ 0x2A ∧ kind.byte ≠ 0x40 := by
  cases kind with
  | context | add | delete => decide

theorem parsePatchLine_text (line : PatchLine) : parsePatchLine line.written = line := by
  obtain ⟨kind, text⟩ := line
  cases kind with
  | context | add | delete => rfl

end

/-! ## Hunks -/

/-- The lines behind an entry: none, or those of another entry. -/
def AtEntry (rest : List Bytes) : Prop := ∀ line ∈ rest.head?, isPatchActionHeader line = true

def AtHunk (rest : List Bytes) : Prop :=
  ∀ line ∈ rest.head?, (isPatchActionHeader line || hasPrefix line patchHunkPrefix) = true

variable {entry : PatchEntry}

section
variable {index : Nat}

theorem parseHunkLines_document (lines : List PatchLine) (endOfFile : Bool) (hrest : AtHunk rest) :
    parseHunkLines index (lines.map PatchLine.written ++
        ((if endOfFile then [patchEndOfFileMarker] else []) ++ rest)) =
      (lines, endOfFile, index + lines.length + if endOfFile then 1 else 0) := by
  induction lines generalizing index with
  | nil =>
    cases endOfFile with
    | true => rfl
    | false =>
      cases rest with
      | nil => rfl
      | cons line rest =>
        have hline := hrest line rfl
        show parseHunkLines index (line :: rest) = _
        rw [parseHunkLines, if_pos hline]
        rfl
  | cons line lines ih =>
    obtain ⟨hstar, hat⟩ := byte_ne line.kind
    have hhd : isPatchActionHeader line.written = false := not_header hstar _
    have hhunk : hasPrefix line.written patchHunkPrefix = false := not_hasPrefix hat _ _
    have hmark : line.written ≠ patchEndOfFileMarker := fun he => hstar (cons.inj he).1
    rw [map_cons, cons_append, parseHunkLines, hhd, hhunk, Bool.or_self,
      if_neg Bool.false_ne_true, if_neg hmark, ih, parsePatchLine_text]
    refine congrArg (fun n => (line :: lines, endOfFile, n)) ?_
    rw [length_cons]
    omega

theorem validatePatchHunk_ok (h : HunkSaid hunk) : validatePatchHunk hunk = .ok () := by
  obtain ⟨line, hmem, hkind⟩ := h.change
  rw [validatePatchHunk, if_neg (ne_nil_of_mem hmem), if_pos]
  refine any_eq_true.2 ⟨line, hmem, ?_⟩
  cases hk : line.kind with
  | context => exact absurd hk hkind
  | add | delete => rfl

theorem trim_delimiter (h : HunkSaid hunk) :
    Utf8.trimSpace (trimPrefix (if hunk.anchor = [] then patchHunkPrefix
      else patchHunkPrefix ++ 0x20 :: hunk.anchor) patchHunkPrefix) = hunk.anchor := by
  split
  · next hnil =>
    rw [hnil]
    rfl
  · rw [trimPrefix_append, Utf8.trimSpace_blank, h.anchor]

theorem document_cons (hunk : PatchHunk) : ∃ mark body, hunk.document = (0x40 :: mark) :: body ∧
    hasPrefix (0x40 :: mark) patchHunkPrefix = true ∧
    (HunkSaid hunk → ∀ rest, isClosingPatchHunkDelimiter (0x40 :: mark) (body ++ rest) = false) := by
  have hdelim : ∃ mark, (if hunk.anchor = [] then patchHunkPrefix
      else patchHunkPrefix ++ 0x20 :: hunk.anchor) = 0x40 :: mark ∧
      hasPrefix (0x40 :: mark) patchHunkPrefix = true := by
    split
    · exact ⟨_, rfl, rfl⟩
    · exact ⟨_, rfl, hasPrefix_append patchHunkPrefix _⟩
  obtain ⟨mark, hmark, hhas⟩ := hdelim
  refine ⟨mark, _, congrArg (· :: _) hmark, hhas, fun h rest => ?_⟩
  obtain ⟨line, hmem, -⟩ := h.change
  obtain ⟨first, lines, hln⟩ := exists_cons_of_ne_nil (ne_nil_of_mem hmem)
  have hhd : isPatchActionHeader first.written = false := not_header (byte_ne first.kind).1 _
  rw [hln, isClosingPatchHunkDelimiter]
  simp [hhd]

theorem parsePatchHunk_document (h : HunkSaid hunk) (hrest : AtHunk rest)
    (hdoc : hunk.document = delimiter :: body) (index : Nat) :
    parsePatchHunk index delimiter (body ++ rest) =
      .ok (hunk, index + hunk.document.length) := by
  obtain ⟨rfl, rfl⟩ := cons.inj hdoc
  rw [parsePatchHunk, append_assoc, parseHunkLines_document _ _ hrest]
  dsimp only
  rw [trim_delimiter h, validatePatchHunk_ok h]
  refine congrArg (fun n => ok (hunk, n)) ?_
  rw [hdoc, length_cons, length_append, length_map]
  split
  · simp only [length_singleton]
    omega
  · simp only [length_nil]
    omega

theorem parseUpdateHunks_skip (skipped rest : List Bytes) (index : Nat) :
    parseUpdateHunks index (index + skipped.length) (skipped ++ rest) =
      parseUpdateHunks (index + skipped.length) (index + skipped.length) rest := by
  induction skipped generalizing index with
  | nil => rfl
  | cons line skipped ih =>
    rw [cons_append, parseUpdateHunks, length_cons, if_pos (by omega),
      show index + (skipped.length + 1) = index + 1 + skipped.length by omega]
    exact ih (index + 1)

theorem atHunk_flatMap (hunks : List PatchHunk) (hrest : AtEntry rest) :
    AtHunk (hunks.flatMap PatchHunk.document ++ rest) := by
  intro line hline
  cases hunks with
  | nil =>
    rw [hrest line hline]
    rfl
  | cons hunk hunks =>
    obtain ⟨mark, body, hdoc, hdelim, -⟩ := document_cons hunk
    rw [flatMap_cons, hdoc] at hline
    obtain rfl : 0x40 :: mark = line := Option.some.inj hline
    rw [hdelim, Bool.or_true]

theorem parseUpdateHunks_document (h : ∀ hunk ∈ hunks, HunkSaid hunk) (hrest : AtEntry rest)
    (index : Nat) :
    parseUpdateHunks index index (hunks.flatMap PatchHunk.document ++ rest) =
      .ok (hunks, index + (hunks.flatMap PatchHunk.document).length) := by
  induction hunks generalizing index with
  | nil =>
    cases rest with
    | nil => rfl
    | cons line rest =>
      have hline := hrest line rfl
      show parseUpdateHunks index index (line :: rest) = _
      rw [parseUpdateHunks, if_neg (Nat.lt_irrefl _), if_pos hline]
      rfl
  | cons hunk hunks ih =>
    obtain ⟨hhunk, hhunks⟩ := forall_mem_cons.1 h
    obtain ⟨mark, body, hdoc, hdelim, hclosing⟩ := document_cons hunk
    have hhd : isPatchActionHeader (0x40 :: mark) = false := not_header (by decide) _
    have hprs := parsePatchHunk_document hhunk (atHunk_flatMap hunks hrest) hdoc index
    have hlen : index + hunk.document.length = index + 1 + body.length := by
      rw [hdoc, length_cons]
      omega
    rw [flatMap_cons, append_assoc, hdoc, cons_append, parseUpdateHunks,
      if_neg (Nat.lt_irrefl _), hhd, if_neg Bool.false_ne_true, hclosing hhunk,
      if_neg Bool.false_ne_true, hdelim, if_neg (by decide), hprs, hlen]
    show (parseUpdateHunks (index + 1) (index + 1 + body.length) _ >>= _) = _
    rw [parseUpdateHunks_skip, ih hhunks]
    refine congrArg (fun n => ok (hunk :: hunks, n)) ?_
    rw [length_append, length_cons]
    omega

end

/-! ## Entries parse to what they say -/

section
variable {index : Nat}

theorem requiredPatchPath_ok (h : path ≠ [] ∧ Utf8.trimSpace path = path) :
    requiredPatchPath path = .ok path := by
  rw [requiredPatchPath, h.2, if_neg h.1]

theorem parseAddLines_document (content : List Bytes) (hrest : AtEntry rest) :
    parseAddLines index (content.map (0x2B :: ·) ++ rest) =
      .ok (content, index + content.length) := by
  induction content generalizing index with
  | nil =>
    cases rest with
    | nil => rfl
    | cons line rest =>
      have hline := hrest line rfl
      show parseAddLines index (line :: rest) = _
      rw [parseAddLines, if_pos hline]
      rfl
  | cons line content ih =>
    have hhd : isPatchActionHeader (0x2B :: line) = false := not_header (by decide) _
    have hplus : hasPrefix (0x2B :: line) (ascii "+") = true := rfl
    rw [map_cons, cons_append, parseAddLines, hhd, if_neg Bool.false_ne_true, hplus,
      if_neg (by decide), ih]
    refine congrArg (fun n => ok (line :: content, n)) ?_
    rw [length_cons]
    omega

theorem parseUpdate_hunks (h : ∀ hunk ∈ hunks, HunkSaid hunk) (hrest : AtEntry rest)
    (header : List Bytes) (index : Nat) : parseUpdateHunks index (index + header.length)
        (header ++ (hunks.flatMap PatchHunk.document ++ rest)) =
      .ok (hunks, index + (header ++ hunks.flatMap PatchHunk.document).length) := by
  rw [parseUpdateHunks_skip, parseUpdateHunks_document h hrest, length_append, Nat.add_assoc]

theorem parsePatchMoveHeader_none (hne : hunks ≠ []) (rest : List Bytes) (action : ParsedAction) :
    parsePatchMoveHeader index (hunks.flatMap PatchHunk.document ++ rest) action =
      .ok (action, index) := by
  obtain ⟨hunk, hunks, rfl⟩ := exists_cons_of_ne_nil hne
  obtain ⟨mark, body, hdoc, -⟩ := document_cons hunk
  have hmove : hasPrefix (0x40 :: mark) patchMovePrefix = false := not_hasPrefix (by decide) _ _
  rw [flatMap_cons, append_assoc, hdoc, cons_append, parsePatchMoveHeader, hmove,
    if_neg Bool.false_ne_true]

theorem parsePatchAction_document (hsaid : EntrySaid entry)
    (hupd : ∀ path, entry ≠ .update path []) (hrest : AtEntry rest)
    (hdoc : entry.document = header :: body) :
    parsePatchAction index header (body ++ rest) =
      .ok (entry.action, index + entry.document.length) := by
  rw [hdoc, length_cons]
  cases entry with
  | add path content =>
    obtain ⟨rfl, rfl⟩ := cons.inj hdoc
    have hpath := requiredPatchPath_ok (hsaid.path path mem_cons_self)
    rw [parsePatchAction, if_pos (hasPrefix_append _ _), parseAddAction, trimPrefix_append, hpath]
    rw [parseAddLines_document content hrest]
    refine congrArg (fun n => ok (_, n)) ?_
    rw [length_map]
    omega
  | delete path =>
    obtain ⟨rfl, rfl⟩ := cons.inj hdoc
    have hpath := requiredPatchPath_ok (hsaid.path path mem_cons_self)
    have hadd : hasPrefix (patchDeletePrefix ++ path) patchAddPrefix = false := rfl
    rw [parsePatchAction, hadd, if_neg Bool.false_ne_true, if_pos (hasPrefix_append _ _),
      trimPrefix_append, hpath]
    rfl
  | update path hunks =>
    obtain ⟨rfl, rfl⟩ := cons.inj hdoc
    have hpath := requiredPatchPath_ok (hsaid.path path mem_cons_self)
    have hadd : hasPrefix (patchUpdatePrefix ++ path) patchAddPrefix = false := rfl
    have hdelete : hasPrefix (patchUpdatePrefix ++ path) patchDeletePrefix = false := rfl
    have hhunks : ∀ hunk ∈ hunks, HunkSaid hunk := hsaid.hunk
    have hne : hunks ≠ [] := fun he => hupd path (he ▸ rfl)
    rw [parsePatchAction, hadd, if_neg Bool.false_ne_true, hdelete, if_neg Bool.false_ne_true,
      if_pos (hasPrefix_append _ _), parseUpdateAction, trimPrefix_append, hpath]
    show (parsePatchMoveHeader (index + 1) _ _ >>= _) = _
    rw [parsePatchMoveHeader_none hne]
    show (parseUpdateHunks (index + 1) (index + 1) _ >>= _) = _
    rw [parseUpdateHunks_document hhunks hrest]
    show (if _ ∧ hunks = [] then _ else _) = _
    rw [if_neg fun h => hne h.2]
    refine congrArg (fun n => ok (_, n)) ?_
    omega
  | move path destination hunks =>
    obtain ⟨rfl, rfl⟩ := cons.inj hdoc
    have hpath := requiredPatchPath_ok (hsaid.path path mem_cons_self)
    have hdestination := requiredPatchPath_ok
      (hsaid.path destination (mem_cons_of_mem _ mem_cons_self))
    have hadd : hasPrefix (patchUpdatePrefix ++ path) patchAddPrefix = false := rfl
    have hdelete : hasPrefix (patchUpdatePrefix ++ path) patchDeletePrefix = false := rfl
    rw [parsePatchAction, hadd, if_neg Bool.false_ne_true, hdelete, if_neg Bool.false_ne_true,
      if_pos (hasPrefix_append _ _), parseUpdateAction, trimPrefix_append, hpath]
    show (parsePatchMoveHeader (index + 1) (_ :: _) _ >>= _) = _
    rw [parsePatchMoveHeader, if_pos (hasPrefix_append _ _), trimPrefix_append, hdestination]
    show (parseUpdateHunks (index + 1) (index + 1 + 1) _ >>= _) = _
    have hhunks : ∀ hunk ∈ hunks, HunkSaid hunk := hsaid.hunk
    have hprs := parseUpdate_hunks hhunks hrest [patchMovePrefix ++ destination] (index + 1)
    rw [singleton_append, length_singleton] at hprs
    rw [cons_append, hprs]
    refine congrArg (fun n => ok (_, n)) ?_
    rw [singleton_append, length_cons]
    omega

theorem parseActions_skip (skipped rest : List Bytes) (index : Nat) :
    parseActions index (index + skipped.length) (skipped ++ rest) =
      parseActions (index + skipped.length) (index + skipped.length) rest := by
  induction skipped generalizing index with
  | nil => rfl
  | cons line skipped ih =>
    rw [cons_append, parseActions, length_cons, if_pos (by omega),
      show index + (skipped.length + 1) = index + 1 + skipped.length by omega]
    exact ih (index + 1)

theorem entry_cons (entry : PatchEntry) : ∃ header body, entry.document = header :: body ∧
    isPatchActionHeader header = true := by
  cases entry with
  | add =>
    refine ⟨_, _, rfl, ?_⟩
    rw [isPatchActionHeader, hasPrefix_append, Bool.true_or, Bool.true_or]
  | delete path =>
    refine ⟨_, _, rfl, ?_⟩
    rw [isPatchActionHeader, hasPrefix_append, Bool.or_true, Bool.true_or]
  | update | move =>
    refine ⟨_, _, rfl, ?_⟩
    rw [isPatchActionHeader, hasPrefix_append, Bool.or_true]

theorem parseActions_document {entries : List PatchEntry} (hsaid : ∀ e ∈ entries, EntrySaid e)
    (hprs : ∀ e ∈ entries, EntryParsed e) (index : Nat) :
    parseActions index index (entries.flatMap PatchEntry.document) =
      .ok (entries.map PatchEntry.action) := by
  induction entries generalizing index with
  | nil => rfl
  | cons entry entries ih =>
    obtain ⟨hent, hrest⟩ := forall_mem_cons.1 hsaid
    obtain ⟨hent', hrest'⟩ := forall_mem_cons.1 hprs
    obtain ⟨header, body, hdoc, -⟩ := entry_cons entry
    have hnext : AtEntry (entries.flatMap PatchEntry.document) := by
      intro line hline
      cases entries with
      | nil => cases hline
      | cons next entries =>
        obtain ⟨header', body', hdoc', hhd⟩ := entry_cons next
        rw [flatMap_cons, hdoc'] at hline
        obtain rfl : header' = line := Option.some.inj hline
        exact hhd
    have hlen : index + entry.document.length = index + 1 + body.length := by
      rw [hdoc, length_cons]
      omega
    rw [flatMap_cons, hdoc, cons_append, parseActions, if_neg (Nat.lt_irrefl _),
      parsePatchAction_document hent hent'.update hnext hdoc, hlen]
    show (parseActions (index + 1) (index + 1 + body.length) _ >>= _) = _
    rw [parseActions_skip, ih hrest hrest']
    rfl

end

/-! ## The document -/

section
variable {entries : List PatchEntry}

/-- A text of one line in UTF-8, as every line of a document is. -/
structure LineOk (line : Bytes) : Prop where
  single : SingleLine line
  valid : Utf8.valid line = true

theorem LineOk.append (ha : LineOk a) (hb : LineOk b) : LineOk (a ++ b) := by
  obtain ⟨⟨h0, hcr, hnl⟩, hval⟩ := ha
  obtain ⟨⟨h0', hcr', hnl'⟩, hval'⟩ := hb
  refine ⟨⟨?_, ?_, ?_⟩, Utf8.valid_append hval hval'⟩
  · exact fun h => (mem_append.1 h).elim h0 h0'
  · exact fun h => (mem_append.1 h).elim hcr hcr'
  · exact fun h => (mem_append.1 h).elim hnl hnl'

theorem lineOk_of {line : Bytes} (h : (line.all fun b => b != 0 && b != carriageReturn &&
    b != newline) = true) (hval : Utf8.valid line = true) : LineOk line := by
  have hall := all_eq_true.1 h
  refine ⟨⟨?_, ?_, ?_⟩, hval⟩ <;> exact fun hmem => absurd (hall _ hmem) (by decide)

theorem lineOk_hunk {hunk : PatchHunk} (hanchor : LineOk hunk.anchor)
    (hln : ∀ line ∈ hunk.lines, LineOk line.text) : ∀ line ∈ hunk.document, LineOk line := by
  have hmark : LineOk patchHunkPrefix := lineOk_of (by decide) (by decide)
  refine forall_mem_cons.2 ⟨?_, forall_mem_append.2 ⟨?_, ?_⟩⟩
  · split
    · exact hmark
    · have hblank : LineOk [0x20] := lineOk_of (by decide) (by decide)
      exact hmark.append (hblank.append hanchor)
  · intro line hmem
    obtain ⟨l, hl, rfl⟩ := mem_map.1 hmem
    have hkind : LineOk [l.kind.byte] := by
      cases l.kind with
      | context | add | delete => exact lineOk_of (by decide) (by decide)
    exact hkind.append (hln l hl)
  · split
    · intro line hmem
      rw [mem_singleton.1 hmem]
      exact lineOk_of (by decide) (by decide)
    · exact nofun

theorem lineOk_entry (h : ∀ text ∈ entry.texts, LineOk text) :
    ∀ line ∈ entry.document, LineOk line := by
  have hadd : LineOk patchAddPrefix := lineOk_of (by decide) (by decide)
  have hdelete : LineOk patchDeletePrefix := lineOk_of (by decide) (by decide)
  have hupd : LineOk patchUpdatePrefix := lineOk_of (by decide) (by decide)
  have hmove : LineOk patchMovePrefix := lineOk_of (by decide) (by decide)
  have hplus : LineOk [0x2B] := lineOk_of (by decide) (by decide)
  have hpaths : ∀ path ∈ entry.paths, LineOk path := fun path hmem =>
    h path (mem_append_left _ (mem_append_left _ hmem))
  have hhunks : ∀ line ∈ entry.hunks.flatMap PatchHunk.document, LineOk line := by
    intro line hmem
    obtain ⟨hunk, hhunk, hline⟩ := mem_flatMap.1 hmem
    have htexts : ∀ text ∈ hunk.anchor :: hunk.lines.map (·.text), LineOk text := fun text ht =>
      h text (mem_append_right _ (mem_flatMap.2 ⟨hunk, hhunk, ht⟩))
    obtain ⟨hanchor, hln⟩ := forall_mem_cons.1 htexts
    exact lineOk_hunk hanchor (fun l hl => hln _ (mem_map_of_mem hl)) line hline
  cases entry with
  | add path content =>
    refine forall_mem_cons.2 ⟨hadd.append (hpaths path mem_cons_self), fun line hmem => ?_⟩
    obtain ⟨text, htext, rfl⟩ := mem_map.1 hmem
    exact hplus.append (h text (mem_append_left _ (mem_append_right _ htext)))
  | delete path =>
    exact forall_mem_singleton.2 (hdelete.append (hpaths path mem_cons_self))
  | update path hunks =>
    exact forall_mem_cons.2 ⟨hupd.append (hpaths path mem_cons_self), hhunks⟩
  | move path destination hunks =>
    refine forall_mem_cons.2 ⟨hupd.append (hpaths path mem_cons_self),
      forall_mem_cons.2 ⟨hmove.append (hpaths destination ?_), hhunks⟩⟩
    exact mem_cons_of_mem _ mem_cons_self

theorem splitNewlines_joinNewlines (hne : lines ≠ []) (h : ∀ line ∈ lines, newline ∉ line) :
    splitNewlines [] (joinNewlines lines) = lines := by
  have hline : ∀ {line : Bytes}, newline ∉ line → ∀ acc rest,
      splitNewlines acc (line ++ rest) = splitNewlines (acc ++ line) rest := by
    intro line hnl
    induction line with
    | nil => intro acc rest; rw [append_nil, nil_append]
    | cons b line ih =>
      intro acc rest
      have hb : b ≠ newline := Ne.symm (ne_of_not_mem_cons hnl)
      rw [cons_append, splitNewlines, if_neg hb, ih (not_mem_of_not_mem_cons hnl),
        append_assoc, singleton_append]
  induction lines with
  | nil => exact absurd rfl hne
  | cons line lines ih =>
    obtain ⟨hfst, hrest⟩ := forall_mem_cons.1 h
    by_cases hnil : lines = []
    · subst hnil
      have hjoin : joinNewlines [line] = line ++ [] := by simp [joinNewlines, intercalate]
      rw [hjoin, hline hfst]
      rfl
    · rw [joinNewlines_cons hnil, hline hfst, splitNewlines, if_pos rfl, ih hnil hrest]
      rfl

theorem normalizeNewlines_id (h : carriageReturn ∉ s) : normalizeNewlines s = s := by
  induction s with
  | nil => rfl
  | cons b rest ih =>
    have hb : b ≠ carriageReturn := Ne.symm (ne_of_not_mem_cons h)
    rw [normalizeNewlines, if_neg fun hcr => hb hcr.1, ih (not_mem_of_not_mem_cons h)]

theorem joinNewlines_ok (h : ∀ line ∈ lines, LineOk line) :
    0 ∉ joinNewlines lines ∧ carriageReturn ∉ joinNewlines lines ∧
      Utf8.valid (joinNewlines lines) = true := by
  induction lines with
  | nil => exact ⟨not_mem_nil, not_mem_nil, rfl⟩
  | cons line lines ih =>
    obtain ⟨⟨⟨h0, hcr, -⟩, hval⟩, hrest⟩ := forall_mem_cons.1 h
    by_cases hnil : lines = []
    · have hjoin : joinNewlines (line :: lines) = line := by
        simp [hnil, joinNewlines, intercalate]
      rw [hjoin]
      exact ⟨h0, hcr, hval⟩
    · obtain ⟨ih0, ihcr, ihvalid⟩ := ih hrest
      rw [joinNewlines_cons hnil]
      have hnewline : Utf8.valid [newline] = true := rfl
      refine ⟨?_, ?_, Utf8.valid_append hval (Utf8.valid_append hnewline ihvalid)⟩
      · intro hmem
        rcases mem_append.1 hmem with hmem | hmem
        · exact h0 hmem
        · exact (mem_cons.1 hmem).elim (by decide) ih0
      · intro hmem
        rcases mem_append.1 hmem with hmem | hmem
        · exact hcr hmem
        · exact (mem_cons.1 hmem).elim (by decide) ihcr

theorem paths_action (h : ∀ path ∈ entry.paths, path ≠ []) :
    (entry.action.path :: if entry.action.destination ≠ [] then [entry.action.destination] else []) =
      entry.paths := by
  cases entry with
  | add | delete | update => rfl
  | move path destination hunks =>
    have hne : destination ≠ [] := h destination (mem_cons_of_mem _ mem_cons_self)
    show (path :: if destination ≠ [] then [destination] else []) = [path, destination]
    rw [if_pos hne]

end

theorem documentLines_document {entries : List PatchEntry} (hsaid : ∀ e ∈ entries, EntrySaid e)
    (hprs : ∀ e ∈ entries, EntryParsed e) :
    validatePatchDocument (patchDocument entries) = .ok () ∧
    documentLines (patchDocument entries) =
      applyPatchBeginMarker :: (entries.flatMap PatchEntry.document ++ [applyPatchEndMarker]) := by
  have hln : ∀ line ∈ applyPatchBeginMarker ::
      (entries.flatMap PatchEntry.document ++ [applyPatchEndMarker]), LineOk line := by
    refine forall_mem_cons.2 ⟨lineOk_of (by decide) (by decide),
      forall_mem_append.2 ⟨fun line hmem => ?_, ?_⟩⟩
    · obtain ⟨entry, hent, hline⟩ := mem_flatMap.1 hmem
      refine lineOk_entry (fun text htext => ⟨?_, ?_⟩) line hline
      · exact (hsaid entry hent).line text htext
      · exact (hprs entry hent).text text htext
    · exact forall_mem_singleton.2 (lineOk_of (by decide) (by decide))
  obtain ⟨h0, hcr, hval⟩ := joinNewlines_ok hln
  refine ⟨?_, ?_⟩
  · rw [validatePatchDocument, patchDocument, hval, if_pos]
    simpa using h0
  · rw [documentLines, patchDocument, normalizeNewlines_id hcr,
      splitNewlines_joinNewlines (cons_ne_nil _ _) fun line hmem => (hln line hmem).single.2.2,
      if_neg]
    rw [← cons_append, getLast?_concat]
    decide

/-- **Patch documents parse to what they say.** The canonical text of entries with trimmed paths and
anchors, hunks with changes and texts of one line, in UTF-8 and every update with a hunk, parses to
the actions of those entries, and the paths it names are their sources and destinations in order. -/
theorem document_parses {entries : List PatchEntry} (hne : entries ≠ [])
    (hsaid : ∀ e ∈ entries, EntrySaid e) (hparsed : ∀ e ∈ entries, EntryParsed e) :
    parseApplyPatch (patchDocument entries) =
      .ok ⟨entries.map PatchEntry.action, (entries.map (·.hunks.length)).sum⟩ ∧
    applyPatchPaths (patchDocument entries) = .ok (entries.flatMap PatchEntry.paths) := by
  obtain ⟨hvalid, hlines⟩ := documentLines_document hsaid hparsed
  have hparse : parseApplyPatch (patchDocument entries) =
      .ok ⟨entries.map PatchEntry.action, (entries.map (·.hunks.length)).sum⟩ := by
    have hbody : (applyPatchBeginMarker :: (entries.flatMap PatchEntry.document ++
        [applyPatchEndMarker])).tail.dropLast = entries.flatMap PatchEntry.document :=
      dropLast_concat
    have hhunks : (entries.map PatchEntry.action).map (·.hunks.length) =
        entries.map (·.hunks.length) := by
      rw [map_map]
      refine map_congr_left fun entry _ => ?_
      cases entry with
      | add | delete | update | move => rfl
    rw [parseApplyPatch, hvalid]
    rw [hlines, if_neg, hbody, parseActions_document hsaid hparsed 1]
    · show (if entries.map PatchEntry.action = [] then _ else _) = _
      rw [if_neg (by simpa using hne), hhunks]
    · rw [← cons_append, getLast?_concat]
      simp
  refine ⟨hparse, ?_⟩
  rw [applyPatchPaths, hparse]
  refine congrArg ok ?_
  rw [flatMap_map]
  exact flatMap_congr fun entry hentry =>
    paths_action fun path hpath => ((hsaid entry hentry).path path hpath).1

/-- An update of one line. -/
theorem document_parses_update : parseApplyPatch (patchDocument
        [.update [102] [⟨[], [⟨.delete, [97]⟩, ⟨.add, [98]⟩], true⟩]]) =
      .ok ⟨[⟨.update, [102], [], [], [⟨[], [⟨.delete, [97]⟩, ⟨.add, [98]⟩], true⟩]⟩], 1⟩ := by
  refine (document_parses (cons_ne_nil _ _) (forall_mem_singleton.2 ?_)
    (forall_mem_singleton.2 ?_)).1
  · refine ⟨by decide, forall_mem_singleton.2 ⟨⟨_, mem_cons_self, ?_⟩, rfl⟩, by decide⟩
    decide
  · exact ⟨by decide, nofun⟩

/-- A path that is not UTF-8, and an update without hunks, are refused. -/
theorem document_refused :
    EntrySaid (.delete [0xFF]) ∧
    parseApplyPatch (patchDocument [.delete [0xFF]]) =
      .error ⟨.invalidPatch, "patch must be UTF-8 text without NUL bytes"⟩ ∧
    EntrySaid (.update [102] []) ∧
    parseApplyPatch (patchDocument [.update [102] []]) =
      .error ⟨.invalidPatch, "update has no hunks"⟩ := by
  refine ⟨⟨by decide, nofun, by decide⟩, rfl, ⟨by decide, nofun, by decide⟩, rfl⟩

end Peen.Tools
