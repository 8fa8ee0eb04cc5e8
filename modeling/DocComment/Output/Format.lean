import DocComment.Output.Json
import DocComment.Output.Markdown

/-!
# Output formats

Records are written in one of two formats, chosen by name.
-/

namespace DocComment

/-- An output format. -/
inductive Format where
  | json
  | markdown
deriving Repr, DecidableEq

/-- A format name that names no format. -/
structure UnknownFormat where
  name : Text
deriving Repr, DecidableEq

/-- The message for an unknown format. -/
def UnknownFormat.message (error : UnknownFormat) : Text :=
  "unknown format: ".toList ++ error.name ++ ". Use json or markdown".toList

namespace Format

/-- The format with a name. -/
def ofName (name : Text) : Except UnknownFormat Format :=
  if name = "json".toList then .ok .json
  else if name = "markdown".toList ∨ name = "md".toList then .ok .markdown
  else .error ⟨name⟩

/-- The extension of files in a format. -/
def extension : Format → Text
  | .json => "json".toList
  | .markdown => "md".toList

/-- The text of records in a format. -/
def render : Format → List Record → Text
  | .json, records => Record.renderJson records
  | .markdown, records => Markdown.render records

end Format
end DocComment
