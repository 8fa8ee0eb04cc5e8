import DocComment.Tag.Layout
import DocComment.Param.Path
import DocComment.Types.Expr

/-!
# Parameter entries

One `@param` line documents one parameter or field: an optional type in braces,
the path of the field, and a description.
-/

namespace DocComment

/-- What one `@param` line says. -/
structure ParamEntry where
  /-- The type in the braces, if it is given. -/
  type : Option TypeExpr
  path : FieldPath
  description : Text
deriving Repr, DecidableEq

namespace ParamEntry

/-- The type part of an entry and what follows it.  Braces are a type part only
when a blank comes after them. -/
def typePart (text : Text) : Option Text × Text :=
  match Tag.braces? text with
  | some (type, rest) => if Tag.startsBlank rest then (some type, rest) else (none, text)
  | none => (none, text)

/-- Read the text of an entry after its tag. -/
def ofText? (text : Text) : Option ParamEntry := do
  let (type, afterType) := typePart text
  let (token, afterToken) ← Tag.word? afterType
  let path ← FieldPath.parse? token
  let description ← Text.remainder? afterToken
  return { type := (type.bind Text.field?).map TypeExpr.parse
           path
           description := Text.trimEnd description }

/-- Read a `@param` line. -/
def parse? (line : Text) : Option ParamEntry :=
  (Text.after? "@param".toList line).bind ofText?

end ParamEntry
end DocComment
