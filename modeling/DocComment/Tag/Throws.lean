import DocComment.Tag.Layout
import DocComment.Text.Affix

/-!
# Documented errors

A `@throws` line gives the type of an error in braces, a description, or both.
-/

namespace DocComment

/-- What one `@throws` line says. -/
structure Throws where
  /-- The type of the error as it is written. -/
  type : Option Text
  description : Option Text
deriving Repr, DecidableEq

namespace Throws

/-- Read the text after the tag as a type in braces with a description. -/
def typed? (text : Text) : Option Throws := do
  let (type, rest) ← Tag.braces? text
  let description ← Text.remainder? rest
  return ⟨Text.field? type, Text.field? description⟩

/-- Read the text after the tag as a description alone. -/
def untyped? (text : Text) : Option Throws :=
  (Text.remainder? text).map fun description => ⟨none, Text.field? description⟩

/-- Neither part is given. -/
def isEmpty (throws : Throws) : Bool :=
  throws.type.isNone && throws.description.isNone

/-- Read a `@throws` line.  Braces that cannot be read as a type belong to the
description, and a line that says nothing is refused. -/
def parse? (line : Text) : Option Throws := do
  let text ← Text.after? "@throws".toList line
  let throws ← (typed? text).or (untyped? text)
  if throws.isEmpty then none else some throws

end Throws
end DocComment
