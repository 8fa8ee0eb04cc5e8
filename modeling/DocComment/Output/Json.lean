import DocComment.Json.Printer
import DocComment.Record

/-!
# Records as JSON

A parameter becomes an object in the shape that schema generators read.  Fields
without content are left out.  A property is known by its key and items have no
name, so only top-level parameters carry a title.
-/

namespace DocComment

/-- A field with a text, left out when the text is empty. -/
def textField (key : String) (text : Text) : List (Text × Json) :=
  if text.isEmpty then [] else [(key.toList, .string text)]

/-- A field with a text, left out when there is none. -/
def optionField (key : String) (text : Option Text) : List (Text × Json) :=
  match text with
  | none => []
  | some text => [(key.toList, .string text)]

mutual

/-- The JSON value of a parameter tree, with or without its title. -/
def Param.toJson (titled : Bool) : Param → Json
  | ⟨title, type, description, items, properties⟩ =>
    .object ((("type".toList, Json.string type.text) ::
      (if titled then textField "title" title else [])) ++
      textField "description" description ++ Param.itemsField items ++
      (if properties.isEmpty then []
       else [("properties".toList, Json.object (Param.propertyFields properties))]))

/-- The field with the items of an array. -/
def Param.itemsField : Option Param → List (Text × Json)
  | none => []
  | some items => [("items".toList, Param.toJson false items)]

/-- The fields of the properties, each under its key. -/
def Param.propertyFields : List (Text × Param) → List (Text × Json)
  | [] => []
  | (key, param) :: rest => (key, Param.toJson false param) :: Param.propertyFields rest

end

/-- The JSON value of a documented error. -/
def Throws.toJson (throws : Throws) : Json :=
  .object (optionField "type" throws.type ++ optionField "description" throws.description)

/-- The JSON value of a record. -/
def Record.toJson (record : Record) : Json :=
  .object ([("name".toList, Json.string record.name),
    ("description".toList, Json.string record.description),
    ("params".toList, Json.array (record.params.map (Param.toJson true)))] ++
    (match record.throws with
     | none => []
     | some throws => [("throws".toList, throws.toJson)]))

/-- The JSON text of records: an indented array and a final line feed. -/
def Record.renderJson (records : List Record) : Text :=
  Json.pretty (.array (records.map Record.toJson)) ++ ['\n']

end DocComment
