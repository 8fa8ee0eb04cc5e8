import DocComment.Param.Entry
import DocComment.Tag.Throws
import DocComment.Text.Identifier

/-!
# Tags

A tag is a line of a comment that starts with an at sign and a label.  Three
labels have a grammar of their own; a line with one of them that does not fit
its grammar is malformed.
-/

namespace DocComment

/-- A tag of a comment. -/
inductive Tag where
  | name (name : Text)
  | param (entry : ParamEntry)
  | throws (throws : Throws)
  /-- A tag whose label has no grammar of its own. -/
  | other (label : Text)
deriving Repr, DecidableEq

namespace Tag

/-- The label of a tag: the letters after the at sign. -/
def label? : Text → Option Text
  | '@' :: rest =>
    if rest.takeWhile Text.isLetter = [] then none else some (rest.takeWhile Text.isLetter)
  | _ => none

/-- Read the name in a `@name` line. -/
def parseName? (line : Text) : Option Text := do
  let text ← Text.after? "@name".toList line
  let name ← Text.remainder? text
  if name = [] then none else some (Text.trimEnd name)

/-- Read one tag. -/
def parse? (line : Text) : Option Tag := do
  let label ← label? line
  if label = "name".toList then (parseName? line).map .name
  else if label = "param".toList then (ParamEntry.parse? line).map .param
  else if label = "throws".toList then (Throws.parse? line).map .throws
  else some (.other label)

end Tag
end DocComment
