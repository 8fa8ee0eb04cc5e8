import DocComment.Text.Case

/-!
# Type names

The name of a documented type.  Names are compared in lower case; five of them
have a meaning of their own, every other name stands for itself.
-/

namespace DocComment

/-- The name of a type. -/
inductive TypeName where
  | string
  | number
  | boolean
  | array
  | object
  /-- Any other name, in lower case. -/
  | custom (name : Text)
deriving Repr, DecidableEq, Inhabited

namespace TypeName

/-- The text of a type name. -/
def text : TypeName → Text
  | .string => "string".toList
  | .number => "number".toList
  | .boolean => "boolean".toList
  | .array => "array".toList
  | .object => "object".toList
  | .custom name => name

/-- The type name with a lower-case text. -/
def ofLower (text : Text) : TypeName :=
  if text = "string".toList then .string
  else if text = "number".toList then .number
  else if text = "boolean".toList then .boolean
  else if text = "array".toList then .array
  else if text = "object".toList then .object
  else .custom text

/-- The type name that a text spells in any case. -/
def ofText (text : Text) : TypeName :=
  ofLower (Text.lower text)

/-- The text of the type name with a lower-case text is that text. -/
theorem text_ofLower (text : Text) : (ofLower text).text = text := by
  unfold ofLower
  split
  · rename_i h; exact h.symm
  split
  · rename_i h; exact h.symm
  split
  · rename_i h; exact h.symm
  split
  · rename_i h; exact h.symm
  split
  · rename_i h; exact h.symm
  rfl

end TypeName
end DocComment
