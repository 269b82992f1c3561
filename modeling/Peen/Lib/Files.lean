import Mathlib.Data.List.Basic

/-!
# A tree of files, directories and links

A tree holds files, directories and symbolic links by location; a location is the list of names from
the entry up to the root, so that the directory of `c :: d` is `d`.
-/

namespace Files

open List

/-- Where an entry is: its name, then the names of the directories above it. -/
abbrev Loc := List String

/-- A path, its last name first. -/
abbrev Path := List String

/-- What a tree holds at a location. The target of a link has its first name first. -/
inductive Node where
  | file (content : List UInt8) (mode : Nat)
  | dir
  | link (absolute : Bool) (target : List String)
  deriving DecidableEq

/-- The errors of the primitives. -/
inductive Errno where
  | noEntry
  | notDirectory
  | tooManyLinks
  | alreadyExists
  | isDirectory
  | notEmpty
  | invalid
  deriving DecidableEq

/-- What the entries hold at a location. -/
def lookup (entries : List (Loc × Node)) (l : Loc) : Option Node :=
  (entries.find? fun e => e.1 == l).map (·.2)

/-- An entry other than the root is in a directory, and its name is not the parent's. -/
def attached (entries : List (Loc × Node)) : Loc × Node → Bool
  | ([], _) => true
  | (c :: d, _) => lookup entries d == some .dir && c != ".."

/-- A tree: a table with a root directory in which every entry is in a directory. -/
structure Tree where
  entries : List (Loc × Node)
  root : lookup entries [] = some .dir
  inner : entries.all (attached entries) = true

namespace Tree

/-- What the tree holds at a location. -/
def node (t : Tree) (l : Loc) : Option Node := lookup t.entries l

/-- The root is a directory. -/
@[simp] theorem node_nil (t : Tree) : t.node [] = some .dir := t.root

variable {t : Tree} {c : String} {d : Loc}

/-- An entry is in a directory. -/
theorem node_parent (h : t.node (c :: d) = some n) : t.node d = some .dir ∧ c ≠ ".." := by
  obtain ⟨e, he, _⟩ := Option.map_eq_some_iff.1 h
  have hkey : e.1 = c :: d := by simpa using find?_some he
  have hatt := all_eq_true.1 t.inner e (mem_of_find?_eq_some he)
  obtain ⟨l, n'⟩ := e
  cases hkey
  simpa [attached, node] using hatt

theorem node_tail (h : t.node d = some .dir) : t.node d.tail = some .dir := by
  cases d with
  | nil => exact h
  | cons c d => exact (node_parent h).1

/-- Nothing is in what is no directory. -/
theorem node_cons_eq_none (h : t.node d ≠ some .dir) (c : String) : t.node (c :: d) = none := by
  cases hn : t.node (c :: d) with
  | none => rfl
  | some n => exact absurd (node_parent hn).1 h

/-! ## Walks -/

section
variable (entries : List (Loc × Node)) (t : Tree) (path : Path)

/-- A walk along names from a directory; what is left of it after a link is walked by `jump`. -/
def walkWith (t : Tree) (jump : Loc → List String → Except Errno Loc) :
    Loc → List String → Except Errno Loc
  | d, [] => .ok d
  | d, c :: rest =>
    if t.node d ≠ some .dir then .error .notDirectory
    else if c = ".." then walkWith t jump d.tail rest
    else
      match t.node (c :: d) with
      | none => .error .noEntry
      | some (.link absolute target) => jump (if absolute then [] else d) (target ++ rest)
      | some _ => walkWith t jump (c :: d) rest

/-- A walk that follows at most so many links. -/
def walk (t : Tree) : Nat → Loc → List String → Except Errno Loc
  | 0 => walkWith t fun _ _ => .error .tooManyLinks
  | n + 1 => walkWith t (walk t n)

def maxLinks : Nat := 40

/-- Where a path leads, all links followed. -/
def resolve : Except Errno Loc := t.walk maxLinks [] path.reverse

/-- Where the entry of a path is, or would be: its last name is not followed. -/
def entry : Path → Except Errno Loc
  | [] => .ok []
  | c :: p =>
    if c = ".." then .error .invalid
    else
      match t.resolve p with
      | .error e => .error e
      | .ok d => if t.node d = some .dir then .ok (c :: d) else .error .notDirectory

def read (l : Except Errno Loc) : Except Errno Node :=
  match l with
  | .error e => .error e
  | .ok l =>
    match t.node l with
    | none => .error .noEntry
    | some n => .ok n

/-- What a path leads to. -/
def stat : Except Errno Node := t.read (t.resolve path)

/-- What the entry of a path is. -/
def lstat : Except Errno Node := t.read (t.entry path)

/-! ## Changes -/

/-- The entries with this one. -/
def insert (l : Loc) (n : Node) : List (Loc × Node) :=
  (l, n) :: entries.filter (·.1 != l)

/-- Without an entry only its own location changes. -/
theorem lookup_filter (l k : Loc) :
    lookup (entries.filter (·.1 != l)) k = if k = l then none else lookup entries k := by
  induction entries with
  | nil => simp [lookup]
  | cons e entries ih =>
    simp only [lookup] at ih
    simp only [lookup, filter_cons, find?_cons]
    by_cases hl : e.1 = l
    · subst hl
      by_cases hk : k = e.1
      · subst hk; simp
      · have : (e.1 == k) = false := by simpa using Ne.symm hk
        simpa [hk, this] using ih
    · by_cases hk : e.1 = k
      · subst hk; simp [hl]
      · have : (e.1 == k) = false := by simpa using hk
        simpa [hl, this] using ih

/-- With an entry only its own location changes. -/
theorem lookup_insert (l k : Loc) (n : Node) :
    lookup (insert entries l n) k = if k = l then some n else lookup entries k := by
  have h := lookup_filter entries l k
  by_cases hk : k = l
  · subst hk; simp [insert, lookup]
  · have hne : (l == k) = false := by simpa using Ne.symm hk
    rw [if_neg hk] at h ⊢
    rw [← h]
    simp [insert, lookup, hne]

end

theorem all_attached {entries : List (Loc × Node)}
    (h : ∀ e ∈ entries, ∀ c d, e.1 = c :: d → lookup entries d = some .dir ∧ c ≠ "..") :
    entries.all (attached entries) = true := by
  refine all_eq_true.2 fun e he => ?_
  obtain ⟨l, n⟩ := e
  cases l with
  | nil => rfl
  | cons c d => simpa [attached] using h _ he c d rfl

theorem mem_parent {e : Loc × Node} (he : e ∈ t.entries) (hl : e.1 = c :: d) :
    t.node d = some .dir ∧ c ≠ ".." := by
  have hatt := all_eq_true.1 t.inner e he
  obtain ⟨l, n⟩ := e
  cases hl
  simpa [attached, node] using hatt

/-- The tree with an entry in a directory that is there. -/
def put (t : Tree) (c : String) (d : Loc) (n : Node) (hc : c ≠ "..") (hd : t.node d = some .dir)
    (hn : t.node (c :: d) ≠ some .dir) : Tree where
  entries := insert t.entries (c :: d) n
  root := by rw [lookup_insert, if_neg (cons_ne_nil c d).symm]; exact t.root
  inner := by
    have hkeep (k : Loc) (hk : t.node k = some .dir) :
        lookup (insert t.entries (c :: d) n) k = some .dir := by
      have hne : k ≠ c :: d := by
        intro h
        rw [h] at hk
        exact hn hk
      rw [lookup_insert, if_neg hne]
      exact hk
    refine all_attached fun e he c' d' hl => ?_
    rcases mem_cons.1 he with he | he
    · subst he
      cases hl
      exact ⟨hkeep d hd, hc⟩
    · obtain ⟨hp, hc'⟩ := mem_parent (mem_filter.1 he).1 hl
      exact ⟨hkeep d' hp, hc'⟩

/-- A put changes its own location only. -/
theorem node_put (hc : c ≠ "..") (hd : t.node d = some .dir) (hn : t.node (c :: d) ≠ some .dir)
    (k : Loc) :
    (t.put c d n hc hd hn).node k = if k = c :: d then some n else t.node k :=
  lookup_insert _ _ _ _

/-- Something is in the directory. -/
def hasEntries (t : Tree) (l : Loc) : Bool :=
  t.entries.any fun e =>
    match e.1 with
    | [] => false
    | _ :: d => d == l

/-- The tree without an entry that has none below it. -/
def erase (t : Tree) (c : String) (d : Loc) (h : t.hasEntries (c :: d) = false) : Tree where
  entries := t.entries.filter (·.1 != c :: d)
  root := by rw [lookup_filter, if_neg (cons_ne_nil c d).symm]; exact t.root
  inner := by
    refine all_attached fun e he c' d' hl => ?_
    obtain ⟨hp, hc'⟩ := mem_parent (mem_filter.1 he).1 hl
    have hne : d' ≠ c :: d := by
      intro hd
      have := any_eq_false.1 h e (mem_filter.1 he).1
      simp [hl, hd] at this
    refine ⟨?_, hc'⟩
    rw [lookup_filter, if_neg hne]
    exact hp

/-- An erasure changes its own location only. -/
theorem node_erase (h : t.hasEntries (c :: d) = false) (k : Loc) :
    (t.erase c d h).node k = if k = c :: d then none else t.node k :=
  lookup_filter _ _ _

theorem hasEntries_eq_false (h : t.node l ≠ some .dir) : t.hasEntries l = false := by
  refine any_eq_false.2 fun e he hd => ?_
  obtain ⟨k, n⟩ := e
  cases k with
  | nil => cases hd
  | cons c d =>
    have hdl : d = l := by simpa using hd
    subst hdl
    exact h (mem_parent he rfl).1

section
variable (t : Tree) (path : Path) (content : List UInt8) (mode : Nat)

/-- Make a directory in one that is there. -/
def mkdir : Except Errno Tree :=
  match t.entry path with
  | .error e => .error e
  | .ok [] => .error .alreadyExists
  | .ok (c :: d) =>
    if h : c ≠ ".." ∧ t.node d = some .dir ∧ t.node (c :: d) = none then
      .ok (t.put c d .dir h.1 h.2.1 (by rw [h.2.2]; exact nofun))
    else .error .alreadyExists

/-- `mkdir -p`: the missing directories of a path are made, the outermost first. -/
def mkdirAll (t : Tree) : Path → Except Errno Tree
  | [] => .ok t
  | c :: p =>
    match t.stat (c :: p) with
    | .ok .dir => .ok t
    | .ok _ => .error .notDirectory
    | .error _ =>
      match t.mkdirAll p with
      | .error e => .error e
      | .ok t =>
        match t.mkdir (c :: p) with
        | .ok t' => .ok t'
        | .error e => if t.lstat (c :: p) = .ok .dir then .ok t else .error e

/-- A file is renamed to a path, in the place of anything but a directory. -/
def publish : Except Errno Tree :=
  match t.entry path with
  | .error e => .error e
  | .ok [] => .error .isDirectory
  | .ok (c :: d) =>
    if h : c ≠ ".." ∧ t.node d = some .dir ∧ t.node (c :: d) ≠ some .dir then
      .ok (t.put c d (.file content mode) h.1 h.2.1 h.2.2)
    else .error .isDirectory

/-- Create a file where nothing is. -/
def publishNew : Except Errno Tree :=
  match t.entry path with
  | .error e => .error e
  | .ok l => if t.node l = none then t.publish path content mode else .error .alreadyExists

/-- `remove`: an entry other than a directory with entries is taken out. -/
def remove : Except Errno Tree :=
  match t.entry path with
  | .error e => .error e
  | .ok [] => .error .notEmpty
  | .ok (c :: d) =>
    if t.node (c :: d) = none then .error .noEntry
    else if h : t.hasEntries (c :: d) = false then .ok (t.erase c d h)
    else .error .notEmpty

end

end Tree

end Files
