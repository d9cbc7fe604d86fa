import StackCompiler.Files.Path

/-!
# File trees

The files, devices and directories that are known, with the working directory among them, and what
reading and writing them gives. An entry is found by the names that lead to it from the root, and
its rights say what may be done with it. A file can have further names, under which it is the same
file.

A path is followed name by name, and every name but the last has to be that of a directory that may
be passed through. The name `..` leads back to the directory that holds the current one, `.` to the
current one itself. Names and paths have a greatest length, and no path holds a null character.

A symbolic link is a name that leads on along a path of its own, from the directory that the name is
in. On the way to the end of a path there may be up to `FileTree.mostLinks` of them, the last name
included. So what is read or written is never a link.
-/

set_option autoImplicit false
set_option relaxedAutoImplicit false

namespace StackCompiler

/-- What may be done with an entry. To write a directory is to make files in it, and to pass it is
to follow a path through it. -/
structure Rights where
  read : Bool
  write : Bool
  pass : Bool
  deriving DecidableEq, Repr

def Rights.full : Rights := ⟨true, true, true⟩

inductive FileEntry where
  | file (bytes : List UInt8) (rights : Rights := .full)
  | directory (rights : Rights := .full)
  /-- A device has bytes to be read. What is written to it it takes, and its bytes stay the same. -/
  | device (bytes taken : List UInt8) (rights : Rights := .full)
  deriving DecidableEq, Repr

namespace FileEntry

def rights : FileEntry → Rights
  | file _ rights | directory rights | device _ _ rights => rights

/-- The entry after bytes were written to it from the start. -/
def write (bytes : List UInt8) : FileEntry → FileEntry
  | file _ rights => file bytes rights
  | device content taken rights => device content (taken ++ bytes) rights
  | directory rights => directory rights

end FileEntry

structure FileTree where
  working : List String
  entries : List (List String × FileEntry)
  /-- The symbolic links, by the names that lead to them. -/
  links : List (List String × Path) := []
  /-- The further names of files, each with the names by which the file is an entry. -/
  aliases : List (List String × List String) := []
  deriving DecidableEq, Repr

/-- Why a path cannot be read or written. -/
inductive FileFault where
  | notFound
  | forbidden
  | notDirectory
  | isDirectory
  | nameTooLong
  | tooManyLinks
  | nullCharacter
  deriving DecidableEq, Repr

namespace FileFault

def message (fault : FileFault) (path : String) : String :=
  let about (words : String) := s!"{words}: {Text.quoted path}"
  match fault with
  | notFound => about "[Errno 2] No such file or directory"
  | forbidden => about "[Errno 13] Permission denied"
  | notDirectory => about "[Errno 20] Not a directory"
  | isDirectory => about "[Errno 21] Is a directory"
  | nameTooLong => about "[Errno 36] File name too long"
  | tooManyLinks => about "[Errno 40] Too many levels of symbolic links"
  | nullCharacter => "embedded null byte"

/-- A path that leads nowhere, as opposed to one that cannot be followed or used. -/
def isAbsence : FileFault → Bool
  | notFound | notDirectory | tooManyLinks | nullCharacter => true
  | forbidden | isDirectory | nameTooLong => false

end FileFault

namespace FileTree

/-- The names by which a file is an entry that may have been called by a further name. -/
def home (tree : FileTree) (names : List String) : List String :=
  (tree.aliases.lookup names).getD names

/-- The entry that names lead to. The root is always there. -/
def lookup (tree : FileTree) : List String → Option FileEntry
  | [] => some .directory
  | names => tree.entries.lookup (tree.home names)

/-- Puts an entry in the place of the one with the same names, or behind all others. -/
def set (tree : FileTree) (names : List String) (entry : FileEntry) : FileTree :=
  let place := tree.home names
  if (tree.entries.lookup place).isSome then
    { tree with
      entries := tree.entries.map fun old => if old.1 == place then (place, entry) else old }
  else { tree with entries := tree.entries ++ [(place, entry)] }

section Kept

variable (tree : FileTree) (names : List String) (entry : FileEntry)

@[simp] theorem working_set : (tree.set names entry).working = tree.working := by
  unfold set
  dsimp only
  split <;> rfl

@[simp] theorem links_set : (tree.set names entry).links = tree.links := by
  unfold set
  dsimp only
  split <;> rfl

@[simp] theorem aliases_set : (tree.set names entry).aliases = tree.aliases := by
  unfold set
  dsimp only
  split <;> rfl

@[simp] theorem home_set (other : List String) :
    (tree.set names entry).home other = tree.home other := by
  rw [home, home, aliases_set]

end Kept

section Replaced

variable {entries : List (List String × FileEntry)} {names other : List String} {entry : FileEntry}

theorem lookup_replaced_of_ne (h : other ≠ names) :
    (entries.map fun old => if old.1 == names then (names, entry) else old).lookup other =
      entries.lookup other := by
  induction entries with
  | nil => rfl
  | cons old more ih =>
    obtain ⟨first, value⟩ := old
    rw [List.map_cons, List.lookup_cons]
    by_cases hfirst : (first == names) = true
    · have hno : (other == names) = false := beq_false_of_ne h
      rw [if_pos hfirst, List.lookup_cons, hno, eq_of_beq hfirst, hno]
      exact ih
    · rw [if_neg hfirst, List.lookup_cons, ih]

theorem lookup_replaced_self (h : (entries.lookup names).isSome = true) :
    (entries.map fun old => if old.1 == names then (names, entry) else old).lookup names =
      some entry := by
  induction entries with
  | nil => cases h
  | cons old more ih =>
    obtain ⟨first, value⟩ := old
    rw [List.map_cons]
    by_cases hfirst : (first == names) = true
    · rw [if_pos hfirst, List.lookup_cons, beq_self_eq_true]
    · have hno : (names == first) = false :=
        beq_false_of_ne fun hsame => hfirst (beq_of_eq hsame.symm)
      rw [List.lookup_cons, hno] at h
      rw [if_neg hfirst, List.lookup_cons, hno]
      exact ih h

end Replaced

/-- An entry that is put into a tree is found at every name of it, and everything else as before.
The root has no place for an entry. -/
theorem lookup_set {other : List String} (hother : other ≠ []) (tree : FileTree)
    (names : List String) (entry : FileEntry) :
    (tree.set names entry).lookup other =
      if tree.home other = tree.home names then some entry else tree.lookup other := by
  have hlookup : ∀ tree : FileTree, tree.lookup other = tree.entries.lookup (tree.home other) := by
    cases other with
    | nil => exact absurd rfl hother
    | cons first more => exact fun _ => rfl
  rw [hlookup, hlookup, home_set]
  unfold set
  dsimp only
  split
  · rename_i hfound
    by_cases hsame : tree.home other = tree.home names
    · rw [if_pos hsame, hsame]
      exact lookup_replaced_self hfound
    · rw [if_neg hsame]
      exact lookup_replaced_of_ne hsame
  · rename_i hnone
    rw [List.lookup_append]
    by_cases hsame : tree.home other = tree.home names
    · rw [if_pos hsame, hsame, Option.not_isSome_iff_eq_none.mp hnone, List.lookup_cons,
        beq_self_eq_true]
      rfl
    · rw [if_neg hsame, List.lookup_cons, beq_false_of_ne hsame]
      exact Option.or_none

/-- The directories that names lead through, the outermost first. -/
def ancestors (names : List String) : List (List String) :=
  (List.range names.length).map names.take

/-- Adds an entry and the directories that lead to it. -/
def add (tree : FileTree) (names : List String) (entry : FileEntry) : FileTree :=
  let withParents := (ancestors names).foldl
    (fun tree names => if (tree.lookup names).isSome then tree else tree.set names .directory) tree
  withParents.set names entry

/-- A tree in which only the working directory is known. -/
def ofWorking (working : List String) : FileTree :=
  ({ working, entries := [] } : FileTree).add working .directory

/-- One step from a directory. -/
def step (names : List String) (name : String) : List String :=
  if name == ".." then names.dropLast else if name == "." then names else names ++ [name]

/-- The greatest number of bytes in a name. -/
def longestName : Nat := 255

/-- The greatest number of bytes in a path. -/
def longestPath : Nat := 4095

/-- The greatest number of links on the way to the end of a path. -/
def mostLinks : Nat := 40

/-- Where a path starts that is followed from a directory. -/
def start (directory : List String) : PathRoot → List String
  | .working => directory
  | .single | .double => []

/-- Follows names up to the first link. From where the link leads, the names of its path and those
that are left are followed by `onward`. -/
def followWith (tree : FileTree)
    (onward : List String → List String → Except FileFault (List String)) :
    List String → List String → Except FileFault (List String)
  | names, [] => .ok names
  | names, name :: more =>
    match tree.lookup names with
    | some (.directory rights) =>
      if !rights.pass then .error .forbidden
      else if longestName < name.utf8ByteSize then .error .nameTooLong
      else
        match tree.links.lookup (step names name) with
        | some path => onward (start names path.root) (path.names ++ more)
        | none => tree.followWith onward (step names name) more
    | some (.file ..) | some (.device ..) => .error .notDirectory
    | none => .error .notFound

/-- Follows names through at most so many links; the last name need not lead to an entry. -/
def follow (tree : FileTree) : Nat → List String → List String → Except FileFault (List String)
  | 0 => tree.followWith fun _ _ => .error .tooManyLinks
  | links + 1 => tree.followWith (tree.follow links)

/-- The names that a path leads to, none of them a link. -/
def locate (tree : FileTree) (path : Path) : Except FileFault (List String) :=
  if path.text.toList.contains '\x00' then .error .nullCharacter
  else if longestPath < path.text.utf8ByteSize then .error .nameTooLong
  else tree.follow mostLinks (start tree.working path.root) path.names

/-- The entry that a path leads to. -/
def find (tree : FileTree) (path : Path) : Except FileFault FileEntry := do
  match tree.lookup (← tree.locate path) with
  | some entry => return entry
  | none => .error .notFound

/-- The entry for a path as it is written. The empty path leads nowhere, and a path with a slash
behind it only to a directory. -/
def findText (tree : FileTree) (text : String) : Except FileFault FileEntry := do
  if text.isEmpty then .error .notFound
  else
    let segments := Path.segments text
    match ← tree.find ⟨Path.rootOf text, segments.filter (!·.isEmpty)⟩ with
    | .directory rights => return .directory rights
    | entry => if segments.getLast? == some "" then .error .notDirectory else return entry

/-- The bytes of a file or of a device. -/
def read (tree : FileTree) (path : Path) : Except FileFault (List UInt8) := do
  let entry ← tree.find path
  if !entry.rights.read then .error .forbidden
  else
    match entry with
    | .file bytes _ | .device bytes _ _ => return bytes
    | .directory _ => .error .isDirectory

/-- The names of a file or a device to be written, and the entry. A file that is not there yet is
empty and has all rights; the directory that it is made in has to let it be made. -/
def target (tree : FileTree) (path : Path) : Except FileFault (List String × FileEntry) := do
  let names ← tree.locate path
  match tree.lookup names with
  | some (.directory _) => .error .isDirectory
  | some entry => if entry.rights.write then return (names, entry) else .error .forbidden
  | none =>
    match tree.lookup names.dropLast with
    | some parent => if parent.rights.write then return (names, .file []) else .error .forbidden
    | none => .error .notFound

/-- What devices have taken since an older tree, and the files that are new or differ from those
there. -/
def changes (tree older : FileTree) : List (List String × List UInt8) :=
  tree.entries.filterMap fun (names, entry) =>
    if older.entries.lookup names == some entry then none
    else
      match entry, older.entries.lookup names with
      | .file bytes _, _ => some (names, bytes)
      | .device _ taken _, some (.device _ before _) => some (names, taken.drop before.length)
      | .device _ taken _, _ => some (names, taken)
      | .directory _, _ => none

end FileTree

end StackCompiler
