import DocComment.Text.Blank

/-!
# JSON values

The part of JSON that documentation records need: strings, arrays, and objects
whose fields keep their order.
-/

namespace DocComment

/-- A JSON value. -/
inductive Json where
  | string (text : Text)
  | array (elements : List Json)
  | object (fields : List (Text × Json))
deriving Repr, BEq, Inhabited

end DocComment
