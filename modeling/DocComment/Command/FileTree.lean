import DocComment.Command.PathName
import DocComment.Text.Utf8

/-!
# File trees

The files and directories that the command sees.  A tree maps locations, lists
of names from the root, to entries.  Paths are resolved name by name from the
working directory, and every name but the last has to lead to a directory.  Some
files of a tree may not be read.

Main definitions:

- `FileTree.lookup`: the entry that a path leads to.
- `FileTree.makeDirectory`, `FileTree.makeDirectories`, `FileTree.writeFile`: the
  changes that the command makes.
-/

namespace DocComment
namespace Command

/-- A place in a tree: the names from the root down to it. -/
abbrev Location := List Text

/-- What stands at a location. -/
inductive Entry where
  | directory
  | file (content : ByteArray)

/-- Entries are compared by the bytes of their content. -/
instance decidableEqEntry : DecidableEq Entry
  | .directory, .directory => isTrue rfl
  | .directory, .file _ => isFalse nofun
  | .file _, .directory => isFalse nofun
  | .file ⟨a⟩, .file ⟨b⟩ =>
    if h : a = b then isTrue (by rw [h]) else isFalse fun heq => by cases heq; exact h rfl

/-- Why the file system refuses an operation. -/
inductive OsError where
  | noEntry
  | exists
  | notDirectory
  | isDirectory
  | permissionDenied
deriving Repr, DecidableEq

/-- The message of the file system. -/
def OsError.message : OsError → Text
  | .noEntry => "No such file or directory (os error 2)".toList
  | .exists => "File exists (os error 17)".toList
  | .notDirectory => "Not a directory (os error 20)".toList
  | .isDirectory => "Is a directory (os error 21)".toList
  | .permissionDenied => "Permission denied (os error 13)".toList

/-- A tree of files and directories, and the working directory in it. -/
structure FileTree where
  entries : List (Location × Entry)
  cwd : Location
  /-- The locations of the files that may not be read. -/
  unreadable : List Location := []
deriving DecidableEq

namespace FileTree

/-! ## Entries -/

/-- The entry at a location.  The root is always a directory. -/
def entryAt? (tree : FileTree) (location : Location) : Option Entry :=
  if location.isEmpty then some .directory else tree.entries.lookup location

/-- Set the entry at a location. -/
def setEntry (tree : FileTree) (location : Location) (entry : Entry) : FileTree :=
  { tree with
    entries := tree.entries.filter (fun old => old.1 != location) ++ [(location, entry)] }

/-- An entry that was set is found at its location and nowhere else. -/
theorem entryAt?_setEntry (tree : FileTree) {location : Location} (entry : Entry)
    (h : location ≠ []) (other : Location) :
    (tree.setEntry location entry).entryAt? other =
      if other = location then some entry else tree.entryAt? other := by
  have hlookup : ∀ entries : List (Location × Entry),
      (entries.filter (fun old => old.1 != location) ++ [(location, entry)]).lookup other =
        if other = location then some entry else entries.lookup other := by
    intro entries
    induction entries with
    | nil =>
      by_cases heq : other = location
      · simp [heq]
      · simp [List.lookup_cons, heq, beq_false_of_ne heq]
    | cons old rest ih =>
      obtain ⟨place, kept⟩ := old
      by_cases hplace : place = location
      · subst hplace
        by_cases heq : other = place
        · simpa [heq] using ih
        · simpa [List.lookup_cons, heq, beq_false_of_ne heq] using ih
      · by_cases heq : other = place
        · subst heq
          simp [hplace]
        · simpa [List.lookup_cons, hplace, beq_false_of_ne heq] using ih
  unfold entryAt?
  by_cases hroot : other = []
  · subst hroot
    simp [Ne.symm h]
  · simpa [hroot, setEntry] using hlookup tree.entries

/-- The names in the directory at a location. -/
def namesAt (tree : FileTree) (location : Location) : List Text :=
  tree.entries.filterMap fun entry =>
    match entry.1.getLast? with
    | some name => if entry.1.dropLast = location then some name else none
    | none => none

/-! ## Resolving paths -/

/-- The location one name further. -/
def move (location : Location) (name : Text) : Location :=
  if name = ['.'] then location
  else if name = ['.', '.'] then location.dropLast
  else location ++ [name]

/-- A location is a directory. -/
def requireDirectory (tree : FileTree) (location : Location) : Except OsError Unit :=
  match tree.entryAt? location with
  | some .directory => .ok ()
  | some (.file _) => .error .notDirectory
  | none => .error .noEntry

/-- Follow names from a location.  A name can be followed only in a directory. -/
def walk (tree : FileTree) (location : Location) : List Text → Except OsError Location
  | [] => .ok location
  | name :: rest =>
    match tree.requireDirectory location with
    | .error error => .error error
    | .ok () => tree.walk (move location name) rest

/-- Where a path starts. -/
def startOf (tree : FileTree) (path : Text) : Location :=
  if PathName.isAbsolute path then [] else tree.cwd

/-- The location and the entry that a path leads to.  A path that ends with a
slash leads to a directory. -/
def lookup (tree : FileTree) (path : Text) : Except OsError (Location × Entry) :=
  if path.isEmpty then .error .noEntry
  else
    match tree.walk (tree.startOf path) (PathName.names path) with
    | .error error => .error error
    | .ok location =>
      match tree.entryAt? location with
      | none => .error .noEntry
      | some .directory => .ok (location, .directory)
      | some (.file content) =>
        if PathName.endsWithSlash path then .error .notDirectory
        else .ok (location, .file content)

/-- The path leads somewhere. -/
def pathExists (tree : FileTree) (path : Text) : Bool :=
  match tree.lookup path with
  | .ok _ => true
  | .error _ => false

/-- The path leads to a file. -/
def isFile (tree : FileTree) (path : Text) : Bool :=
  match tree.lookup path with
  | .ok (_, .file _) => true
  | _ => false

/-- The path leads to a directory. -/
def isDirectory (tree : FileTree) (path : Text) : Bool :=
  match tree.lookup path with
  | .ok (_, .directory) => true
  | _ => false

/-- The names in the directory that a path leads to, or why they cannot be
listed. -/
def readDirectory (tree : FileTree) (path : Text) : Except OsError (List Text) :=
  match tree.lookup path with
  | .error error => .error error
  | .ok (_, .file _) => .error .notDirectory
  | .ok (location, .directory) => .ok (tree.namesAt location)

/-- The names in the directory that a path leads to; none where there is no
directory. -/
def namesIn (tree : FileTree) (path : Text) : List Text :=
  match tree.readDirectory path with
  | .ok names => names
  | .error _ => []

/-! ## Reading -/

/-- Why a file cannot be read as text. -/
inductive ReadError where
  | os (error : OsError)
  | notUtf8
deriving Repr, DecidableEq

/-- The message for a file that cannot be read. -/
def ReadError.message : ReadError → Text
  | .os error => error.message
  | .notUtf8 => "stream did not contain valid UTF-8".toList

/-- The text of bytes that were read. -/
def decode (content : ByteArray) : Except ReadError Text :=
  match Text.decodeUtf8? content with
  | some text => .ok text
  | none => .error .notUtf8

/-- The file at a location may be read. -/
def mayRead (tree : FileTree) (location : Location) : Bool :=
  !tree.unreadable.contains location

/-- The text of the file that a path leads to. -/
def readText (tree : FileTree) (path : Text) : Except ReadError Text :=
  match tree.lookup path with
  | .error error => .error (.os error)
  | .ok (_, .directory) => .error (.os .isDirectory)
  | .ok (location, .file content) =>
    if tree.mayRead location then decode content else .error (.os .permissionDenied)

/-! ## Changing -/

/-- The directory in which the last name of a path stands, and that name. -/
def lastName (tree : FileTree) (path : Text) : Except OsError (Location × Text) :=
  match (PathName.names path).getLast? with
  | none => if path.isEmpty then .error .noEntry else .error .exists
  | some name =>
    match tree.walk (tree.startOf path) (PathName.names path).dropLast with
    | .error error => .error error
    | .ok location =>
      match tree.requireDirectory location with
      | .error error => .error error
      | .ok () => .ok (location, name)

/-- Make the directory that a path names.  The directory around it has to be
there already. -/
def makeDirectory (tree : FileTree) (path : Text) : Except OsError FileTree :=
  match tree.lastName path with
  | .error error => .error error
  | .ok (location, name) =>
    if name = ['.'] ∨ name = ['.', '.'] then .error .exists
    else if (tree.entryAt? (location ++ [name])).isSome then .error .exists
    else .ok (tree.setEntry (location ++ [name]) .directory)

/-- Make a directory, and on the first failure for want of the directory around
it make that one first.  A directory that is there already is no failure. -/
def makeWith (tree : FileTree) (path : Text) (makeParent : FileTree → FileTree × Option OsError) :
    FileTree × Option OsError :=
  match tree.makeDirectory path with
  | .ok tree => (tree, none)
  | .error .noEntry =>
    match makeParent tree with
    | (tree, some error) => (tree, some error)
    | (tree, none) =>
      match tree.makeDirectory path with
      | .ok tree => (tree, none)
      | .error error => (tree, if tree.isDirectory path then none else some error)
  | .error error => (tree, if tree.isDirectory path then none else some error)

/-- Make the directories on the way along components, which are given from the
last to the first. -/
def makeAlong (tree : FileTree) : List Component → FileTree × Option OsError
  | [] => (tree, none)
  | last :: before =>
    tree.makeWith (PathName.ofComponents (last :: before).reverse) fun tree => tree.makeAlong before

/-- Make a directory and all that are missing around it.  Also after a failure
the directories made so far stay. -/
def makeDirectories (tree : FileTree) (path : Text) : FileTree × Option OsError :=
  tree.makeWith path fun tree => tree.makeAlong (PathName.components path).dropLast.reverse

/-- Write a file, which is created or loses its old content. -/
def writeFile (tree : FileTree) (path : Text) (content : ByteArray) : Except OsError FileTree :=
  match tree.lastName path with
  | .error error => .error error
  | .ok (location, name) =>
    match tree.entryAt? (move location name) with
    | some .directory => .error .isDirectory
    | _ => .ok (tree.setEntry (move location name) (.file content))

/-! ## Whole trees -/

/-- The tree with nothing but the working directory and the directories around
it. -/
def ofWorkingDirectory (cwd : Location) : FileTree where
  entries := (List.range cwd.length).map fun n => (cwd.take (n + 1), .directory)
  cwd := cwd

/-- The path from the working directory down to a location. -/
def relative? (tree : FileTree) (location : Location) : Option Text :=
  if tree.cwd.isPrefixOf location then
    some (['/'].intercalate (location.drop tree.cwd.length))
  else none

/-- The files of a tree that an earlier tree lacks or holds with another
content. -/
def changedFiles (before after : FileTree) : List (Location × ByteArray) :=
  after.entries.filterMap fun entry =>
    match entry.2 with
    | .directory => none
    | .file content =>
      if before.entryAt? entry.1 = some (.file content) then none else some (entry.1, content)

/-- The directories of a tree that an earlier tree lacks. -/
def newDirectories (before after : FileTree) : List Location :=
  after.entries.filterMap fun entry =>
    match entry.2 with
    | .directory => if before.entryAt? entry.1 = some .directory then none else some entry.1
    | .file _ => none

end FileTree
end Command
end DocComment
