import DocComment.Param.Entry
import DocComment.Param.Tree

/-!
# Growing a parameter forest by insertion

The forest of a list of entries described without cells and links: each entry is
inserted by walking down its path, and every place is found by its name among
the properties of the place above it.  A branch keeps its items and properties
while its type hides them; pruning at the end removes what is hidden.
-/

namespace DocComment

/-- A place of the forest with everything that was ever said about it. -/
structure Branch where
  title : Text
  type : TypeName
  description : Text
  items : Option Branch
  properties : List (Text × Branch)
deriving Repr, BEq, Inhabited

namespace Branch

/-- A fresh branch is an object without properties. -/
def fresh (title : Text) : Branch where
  title := title
  type := .object
  description := []
  items := none
  properties := []

/-- The items of a branch, fresh when it has none. -/
def itemsOrFresh (branch : Branch) : Branch :=
  branch.items.getD (fresh [])

/-- Give a branch a type expression. -/
def applyType : TypeExpr → Branch → Branch
  | .named name, branch => { branch with type := name }
  | .anyArray, branch => { branch with type := .array }
  | .arrayOf element, branch =>
    { branch with type := .array, items := some (applyType element branch.itemsOrFresh) }

/-- Describe a branch by the entry whose path ends at it. -/
def define (entry : ParamEntry) (marked : Bool) (branch : Branch) : Branch :=
  let type := entry.type.getD (.named .string)
  let branch := { branch with description := entry.description }
  if marked then
    { branch with type := .array, items := some (applyType type branch.itemsOrFresh) }
  else if !branch.properties.isEmpty && !type.isArray then { branch with type := .object }
  else applyType type branch

/-- Change the branch with a name, or add a changed fresh one at the end. -/
def upsert (name : Text) (change : Branch → Branch) :
    List (Text × Branch) → List (Text × Branch)
  | [] => [(name, change (fresh name))]
  | (key, branch) :: rest =>
    if key = name then (key, change branch) :: rest else (key, branch) :: upsert name change rest

/-- Insert an entry along the steps of a path. -/
def insertAt (entry : ParamEntry) : FieldPath → List (Text × Branch) → List (Text × Branch)
  | [], branches => branches
  | [leaf], branches => upsert leaf.name (define entry leaf.marked) branches
  | step :: next :: rest, branches =>
    upsert step.name
      (fun branch =>
        if step.marked then
          { branch with
            type := .array
            items := some
              { branch.itemsOrFresh with
                type := .object
                properties := insertAt entry (next :: rest) branch.itemsOrFresh.properties } }
        else
          { branch with
            type := .object
            properties := insertAt entry (next :: rest) branch.properties })
      branches

/-- Insert one entry. -/
def insert (branches : List (Text × Branch)) (entry : ParamEntry) : List (Text × Branch) :=
  insertAt entry entry.path branches

/-- The branches of the given entries. -/
def ofEntries (entries : List ParamEntry) : List (Text × Branch) :=
  entries.foldl insert []

/-! ## Pruning -/

mutual

/-- The visible part of a branch: items only in arrays, properties only in
objects. -/
def prune : Branch → Param
  | ⟨title, type, description, items, properties⟩ =>
    { title, type, description
      items := if type = .array then pruneItems items else none
      properties := if type = .object then pruneProperties properties else [] }

/-- The visible part of the items. -/
def pruneItems : Option Branch → Option Param
  | none => none
  | some branch => some (prune branch)

/-- The visible part of each property. -/
def pruneProperties : List (Text × Branch) → List (Text × Param)
  | [] => []
  | (key, branch) :: rest => (key, prune branch) :: pruneProperties rest

end

/-- The parameter trees of the given branches. -/
def forest (branches : List (Text × Branch)) : List Param :=
  branches.map fun branch => prune branch.2

end Branch
end DocComment
