import DocComment.Param.Entry
import DocComment.Param.Tree

/-!
# Drafts of a parameter forest

The entries of a comment come in any order: an object may be described before,
between or after its properties, and a path may be described again.  A draft
holds what is known so far.  Its cells stay open to change, are linked by their
numbers, and are found by the text of their path.

Main definitions:

- `Draft.add`: take in one entry.
- `Draft.forest`: the parameter trees of a draft.
-/

namespace DocComment

/-- One place of the forest.  It remembers items and properties also while its
type hides them. -/
structure Cell where
  title : Text
  type : TypeName
  description : Text
  /-- The cell of the items. -/
  items : Option Nat
  /-- The cells of the properties. -/
  properties : List (Text × Nat)
deriving Repr, DecidableEq

/-- A fresh cell is an object without properties. -/
def Cell.fresh (title : Text) : Cell where
  title := title
  type := .object
  description := []
  items := none
  properties := []

/-- A forest under construction. -/
structure Draft where
  cells : List Cell
  /-- The cells of the top-level parameters in their order. -/
  roots : List Nat
  /-- The cell of each path text.  The items of a place have the path of the
  place with a pair of brackets after it. -/
  index : List (Text × Nat)
deriving Repr, DecidableEq

namespace Draft

/-- The draft without entries. -/
def empty : Draft := ⟨[], [], []⟩

/-! ## Changing cells -/

/-- Change one cell. -/
def modify (draft : Draft) (i : Nat) (change : Cell → Cell) : Draft :=
  { draft with cells := draft.cells.modify i change }

/-- Give a cell a type. -/
def setType (draft : Draft) (i : Nat) (type : TypeName) : Draft :=
  draft.modify i fun cell => { cell with type }

/-- Give a cell a description. -/
def setDescription (draft : Draft) (i : Nat) (description : Text) : Draft :=
  draft.modify i fun cell => { cell with description }

/-- A cell has properties. -/
def hasProperties (draft : Draft) (i : Nat) : Bool :=
  match draft.cells[i]? with
  | some cell => !cell.properties.isEmpty
  | none => false

@[simp]
theorem length_cells_modify (draft : Draft) (i : Nat) (change : Cell → Cell) :
    (draft.modify i change).cells.length = draft.cells.length := by
  simp [modify]

@[simp]
theorem roots_modify (draft : Draft) (i : Nat) (change : Cell → Cell) :
    (draft.modify i change).roots = draft.roots :=
  rfl

@[simp]
theorem index_modify (draft : Draft) (i : Nat) (change : Cell → Cell) :
    (draft.modify i change).index = draft.index :=
  rfl

/-! ## Creating cells -/

/-- Add a fresh cell and enter it in the index.  Its number is the number of
cells so far. -/
def allocate (draft : Draft) (key title : Text) : Draft :=
  { draft with
    cells := draft.cells ++ [Cell.fresh title]
    index := (key, draft.cells.length) :: draft.index }

/-- Link a cell as the last property of its parent, or as the last root. -/
def link (draft : Draft) (parent : Option Nat) (name : Text) (i : Nat) : Draft :=
  match parent with
  | some p => draft.modify p fun cell => { cell with properties := cell.properties ++ [(name, i)] }
  | none => { draft with roots := draft.roots ++ [i] }

/-- The cell of a path, created under the given parent when it is missing. -/
def child (draft : Draft) (parent : Option Nat) (key name : Text) : Draft × Nat :=
  match draft.index.lookup key with
  | some i => (draft, i)
  | none => ((draft.allocate key name).link parent name draft.cells.length, draft.cells.length)

/-- The cell of the items of a cell, created when it is missing. -/
def itemsOf (draft : Draft) (i : Nat) (key : Text) : Draft × Nat :=
  match draft.cells[i]?.bind Cell.items with
  | some j => (draft, j)
  | none =>
    ((draft.allocate (key ++ brackets) []).modify i fun cell =>
        { cell with items := some draft.cells.length },
      draft.cells.length)

/-! ## Taking in entries -/

/-- Give a cell a type expression.  Element types go to the cells of the items;
an array of unspecified elements leaves them as they are. -/
def applyType (draft : Draft) (i : Nat) (key : Text) : TypeExpr → Draft
  | .named name => draft.setType i name
  | .anyArray => draft.setType i .array
  | .arrayOf element =>
    let (draft, j) := (draft.setType i .array).itemsOf i key
    draft.applyType j (key ++ brackets) element

/-- Describe a cell by the entry whose path leads to it.  A place without a
given type is a string; a place that has properties stays an object unless the
entry makes it an array. -/
def define (draft : Draft) (i : Nat) (key : Text) (marked : Bool) (entry : ParamEntry) : Draft :=
  let type := entry.type.getD (.named .string)
  let draft := draft.setDescription i entry.description
  if marked then
    let (draft, j) := (draft.setType i .array).itemsOf i key
    draft.applyType j (key ++ brackets) type
  else if draft.hasProperties i && !type.isArray then draft.setType i .object
  else draft.applyType i key type

/-- The path text of a name below a path text. -/
def extend (key name : Text) : Text :=
  if key.isEmpty then name else key ++ '.' :: name

/-- Follow the steps of an entry from a parent.  Every place on the way is made
an object, or an array of objects when its step is marked. -/
def follow (entry : ParamEntry) (draft : Draft) (parent : Option Nat) (key : Text) :
    FieldPath → Draft
  | [] => draft
  | [leaf] =>
    let (draft, i) := draft.child parent (extend key leaf.name) leaf.name
    draft.define i (extend key leaf.name) leaf.marked entry
  | step :: next :: rest =>
    let (draft, i) := draft.child parent (extend key step.name) step.name
    if step.marked then
      let (draft, j) := (draft.setType i .array).itemsOf i (extend key step.name)
      follow entry (draft.setType j .object) (some j) (extend key step.name ++ brackets)
        (next :: rest)
    else follow entry (draft.setType i .object) (some i) (extend key step.name) (next :: rest)

/-- Take in one entry. -/
def add (draft : Draft) (entry : ParamEntry) : Draft :=
  follow entry draft none [] entry.path

/-- The draft of the given entries. -/
def ofEntries (entries : List ParamEntry) : Draft :=
  entries.foldl add empty

/-! ## The finished forest -/

/-- The tree below a cell, with links followed to the given depth.  Items show
only in arrays and properties only in objects. -/
def param? (draft : Draft) : (depth i : Nat) → Option Param
  | 0, _ => none
  | depth + 1, i =>
    draft.cells[i]?.map fun cell =>
      { title := cell.title
        type := cell.type
        description := cell.description
        items := if cell.type = .array then cell.items.bind (draft.param? depth) else none
        properties :=
          if cell.type = .object then
            cell.properties.filterMap fun property =>
              (draft.param? depth property.2).map fun param => (property.1, param)
          else [] }

/-- The parameter trees of a draft.  No chain of links is longer than the number
of cells. -/
def forest (draft : Draft) : List Param :=
  draft.roots.filterMap (draft.param? draft.cells.length)

end Draft
end DocComment
