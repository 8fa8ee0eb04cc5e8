import DocComment.Record

/-!
# Records as markdown

A record becomes a section with its description, the list of its parameters and
the error it documents.  Nested parameters are indented by two spaces a level.
-/

namespace DocComment
namespace Markdown

/-- A label in bold. -/
def bold (text : Text) : Text :=
  "**".toList ++ text ++ "**".toList

/-- The line of one parameter under a label. -/
def paramLine (depth : Nat) (label : Text) (type : TypeName) (description : Text) : Text :=
  List.replicate (2 * depth) ' ' ++ "* ".toList ++ bold label ++ " (".toList ++ type.text ++ [')'] ++
    (if description.isEmpty then [] else ": ".toList ++ description)

mutual

/-- The lines of a parameter tree: its own line, its items under a pair of
brackets, and its properties in order. -/
def paramLines (depth : Nat) (label : Text) : Param → List Text
  | ⟨_, type, description, items, properties⟩ =>
    paramLine depth label type description ::
      (itemsLines (depth + 1) items ++ propertyLines (depth + 1) properties)

/-- The lines of the items. -/
def itemsLines (depth : Nat) : Option Param → List Text
  | none => []
  | some items => paramLines depth brackets items

/-- The lines of the properties. -/
def propertyLines (depth : Nat) : List (Text × Param) → List Text
  | [] => []
  | (key, param) :: rest => paramLines depth key param ++ propertyLines depth rest

end

/-- The lines of the parameters of a record. -/
def forestLines (params : List Param) : List Text :=
  params.flatMap fun param => paramLines 0 param.title param

/-- The text of a documented error. -/
def throwsText (throws : Throws) : Text :=
  match throws.type, throws.description with
  | some type, some description => bold type ++ ": ".toList ++ description
  | some type, none => bold type
  | none, some description => description
  | none, none => []

/-- The name in the heading of a record. -/
def headingName (record : Record) : Text :=
  if record.name.isEmpty then "(anonymous)".toList else record.name

/-- The lines of a record.  A heading is a line with a line feed at its end, so an
empty line follows it. -/
def recordLines (record : Record) : List Text :=
  ["### ".toList ++ headingName record ++ ['\n']] ++
    (if record.description.isEmpty then [] else [record.description, []]) ++
    (if record.params.isEmpty then []
     else ["#### Parameters\n".toList] ++ forestLines record.params ++ [[]]) ++
    (match record.throws with
     | none => []
     | some throws => ["#### Throws\n".toList, "* ".toList ++ throwsText throws, []])

/-- The section of a record. -/
def renderRecord (record : Record) : Text :=
  ['\n'].intercalate (recordLines record)

/-- The sections of records, each with a line feed after it. -/
def render (records : List Record) : Text :=
  records.flatMap fun record => renderRecord record ++ ['\n']

end Markdown
end DocComment
