import DocComment.Text.Affix

/-!
# Path names

The name of a file or directory as it is written: names separated by slashes.
Two spellings are the same path when they have the same components; empty names
and dots inside a path do not count.

Main definitions:

- `PathName.components`: the components of a path.
- `PathName.le`: the order of paths, component by component.
- `PathName.stem?`: the name of a file without its extension.
-/

namespace DocComment
namespace Command

/-- A component of a path. -/
inductive Component where
  | root
  | current
  | parent
  | name (text : Text)
deriving Repr, DecidableEq

namespace Component

/-- The kinds of components in their order. -/
def rank : Component → Nat
  | .root => 0
  | .current => 1
  | .parent => 2
  | .name _ => 3

/-- The text of a component. -/
def text : Component → Text
  | .root => []
  | .current => ['.']
  | .parent => ['.', '.']
  | .name text => text

/-- The component of a name inside a path. -/
def ofName? (name : Text) : Option Component :=
  if name = [] ∨ name = ['.'] then none
  else if name = ['.', '.'] then some .parent
  else some (.name name)

end Component

namespace PathName

/-! ## Components -/

/-- The names between the slashes, empty ones left out. -/
def names (path : Text) : List Text :=
  (path.splitOn '/').filter fun name => !name.isEmpty

/-- The path starts at the root. -/
def isAbsolute (path : Text) : Bool :=
  path.head? == some '/'

/-- The path ends with a slash. -/
def endsWithSlash (path : Text) : Bool :=
  path.getLast? == some '/'

/-- The components of a path.  A dot counts only at the very start. -/
def components (path : Text) : List Component :=
  (if isAbsolute path then [.root]
   else if (names path).head? = some ['.'] then [.current]
   else []) ++ (names path).filterMap Component.ofName?

/-- The path with the given components. -/
def ofComponents (components : List Component) : Text :=
  match components with
  | [.root] => ['/']
  | components => ['/'].intercalate (components.map Component.text)

/-- Two spellings of one path. -/
def same (a b : Text) : Bool :=
  components a == components b

/-- The path of a name in a directory. -/
def join (directory name : Text) : Text :=
  if directory.isEmpty || endsWithSlash directory then directory ++ name
  else directory ++ '/' :: name

/-! ## Order -/

/-- Texts in the order of their code points. -/
def textLe : Text → Text → Bool
  | [], _ => true
  | _ :: _, [] => false
  | a :: rest, b :: rest' => if a = b then textLe rest rest' else decide (a.toNat ≤ b.toNat)

/-- Components by kind, names by their text. -/
def componentLe (a b : Component) : Bool :=
  if a.rank = b.rank then textLe a.text b.text else decide (a.rank ≤ b.rank)

/-- Lists of components by their first difference. -/
def componentsLe : List Component → List Component → Bool
  | [], _ => true
  | _ :: _, [] => false
  | a :: rest, b :: rest' => if a = b then componentsLe rest rest' else componentLe a b

/-- Paths by their components. -/
def le (a b : Text) : Bool :=
  componentsLe (components a) (components b)

/-- Drop the paths at the start that spell the given path once more, and the
repetitions after them. -/
def dropRepeats (path : Text) : List Text → List Text
  | [] => []
  | next :: rest => if same path next then dropRepeats path rest else next :: dropRepeats next rest

/-- Paths in ascending order, each once and in its first spelling. -/
def sortDistinct (paths : List Text) : List Text :=
  match paths.mergeSort le with
  | [] => []
  | first :: rest => first :: dropRepeats first rest

/-! ## File names -/

/-- The name of the file that a path leads to. -/
def fileName? (path : Text) : Option Text :=
  match (components path).getLast? with
  | some (.name name) => some name
  | _ => none

/-- Cut a file name at its last dot.  A dot at the start does not count. -/
def cutExtension (name : Text) : Text × Option Text :=
  match name.reverse.dropWhile (· != '.') with
  | _ :: stem =>
    if stem.isEmpty then (name, none)
    else (stem.reverse, some (name.reverse.takeWhile (· != '.')).reverse)
  | [] => (name, none)

/-- The file name of a path without its extension. -/
def stem? (path : Text) : Option Text :=
  (fileName? path).map fun name => (cutExtension name).1

/-- The extension of the file name of a path. -/
def extension? (path : Text) : Option Text :=
  (fileName? path).bind fun name => (cutExtension name).2

end PathName
end Command
end DocComment
