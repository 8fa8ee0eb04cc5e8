import DocComment.Text.Affix
import DocComment.Text.Identifier

/-!
# Field paths

A parameter is addressed by a dotted path of names.  A name with a pair of
brackets stands for an array, and what follows it lies in the items of the
array.
-/

namespace DocComment

/-- One step of a field path. -/
structure Step where
  name : Text
  /-- The step carries a pair of brackets. -/
  marked : Bool
deriving Repr, DecidableEq

/-- The steps from a top-level parameter down to a field. -/
abbrev FieldPath := List Step

/-- The pair of brackets that marks an array. -/
def brackets : Text := ['[', ']']

/-- The text of a step. -/
def Step.text (step : Step) : Text :=
  if step.marked then step.name ++ brackets else step.name

/-- The step that a text spells: an identifier with at most one pair of
brackets. -/
def Step.parse? (text : Text) : Option Step :=
  match Text.before? brackets text with
  | some name => if Text.isIdentifier name then some ⟨name, true⟩ else none
  | none => if Text.isIdentifier text then some ⟨text, false⟩ else none

namespace FieldPath

/-- The text of a path. -/
def text (path : FieldPath) : Text :=
  ['.'].intercalate (path.map Step.text)

/-- The path that a text spells.  It has at least one step. -/
def parse? (text : Text) : Option FieldPath :=
  (text.splitOn '.').mapM Step.parse?

end FieldPath
end DocComment
