import DocComment.Types.Name

/-!
# Parameter trees

A documented parameter is a tree: an array may describe its items, an object its
properties.  The properties keep the order in which they were documented.
-/

namespace DocComment

/-- A documented parameter, the items of an array, or a property. -/
structure Param where
  /-- The name of the parameter or property; items have none. -/
  title : Text
  type : TypeName
  description : Text
  /-- What an array holds. -/
  items : Option Param
  /-- The properties of an object, each under its key. -/
  properties : List (Text × Param)
deriving Repr, BEq, Inhabited

namespace Param

/-- The property under a key: the first one, should the key occur twice. -/
def property? (param : Param) (key : Text) : Option Param :=
  param.properties.lookup key

end Param
end DocComment
