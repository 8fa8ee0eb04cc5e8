import DocComment.Output.Json
import DocComment.Proofs.Json.RoundTrip
import DocComment.Proofs.Param.Vocabulary
import DocComment.Proofs.Record.Shape

/-!
# Records are recovered from their JSON

The JSON value of a record leaves out whatever is empty, and the titles of
everything but the top-level parameters.  Nothing is lost by that: a field that
is left out stands for an empty part, a property has its key for a title, items
have none, and the text of a type name determines the name.

The last three hold because of the way in which records are read from comments,
so they are the conditions under which a parameter tree is recovered.

Main results:

- Definition `Param.Recoverable`: the conditions at one node.
- Theorem `Param.ofJson_toJson`: a tree of such nodes is recovered.
- Theorem `Record.recoverable_ofComment`: every node of the record of a comment is
  recoverable.
- Theorem `Record.renderJson_lossless`: the JSON text of records denotes their
  value in both forms, and the records of a source are recovered from it.
-/

namespace DocComment

/-! ## Reading records from JSON values -/

/-- The text of a string. -/
def Json.asText : Json → Text
  | .string text => text
  | _ => []

mutual

/-- The parameter tree of a JSON value; the title is for one that has none. -/
def Param.ofJson (title : Text) : Json → Param
  | .object fields => Param.ofFields ⟨title, .object, [], none, []⟩ fields
  | _ => ⟨title, .object, [], none, []⟩

/-- Fill in the parts of a parameter tree from its fields. -/
def Param.ofFields (param : Param) : List (Text × Json) → Param
  | [] => param
  | (key, value) :: rest =>
    Param.ofFields
      (if key = "type".toList then { param with type := .ofLower value.asText }
       else if key = "title".toList then { param with title := value.asText }
       else if key = "description".toList then { param with description := value.asText }
       else if key = "items".toList then { param with items := some (Param.ofJson [] value) }
       else if key = "properties".toList then { param with properties := Param.ofProperties value }
       else param)
      rest

/-- The properties in a JSON value. -/
def Param.ofProperties : Json → List (Text × Param)
  | .object fields => Param.ofPropertyFields fields
  | _ => []

/-- The properties in the fields of a JSON value. -/
def Param.ofPropertyFields : List (Text × Json) → List (Text × Param)
  | [] => []
  | (key, value) :: rest => (key, Param.ofJson key value) :: Param.ofPropertyFields rest

end

/-- The texts of a documented error in the fields of a JSON value. -/
def Throws.ofFields (throws : Throws) : List (Text × Json) → Throws
  | [] => throws
  | (key, value) :: rest =>
    Throws.ofFields
      (if key = "type".toList then { throws with type := some value.asText }
       else if key = "description".toList then { throws with description := some value.asText }
       else throws)
      rest

/-- The documented error of a JSON value. -/
def Throws.ofJson : Json → Throws
  | .object fields => Throws.ofFields ⟨none, none⟩ fields
  | _ => ⟨none, none⟩

/-- The top-level parameters of a JSON value. -/
def Param.listOfJson : Json → List Param
  | .array elements => elements.map (Param.ofJson [])
  | _ => []

/-- Fill in the parts of a record from its fields. -/
def Record.ofFields (record : Record) : List (Text × Json) → Record
  | [] => record
  | (key, value) :: rest =>
    Record.ofFields
      (if key = "name".toList then { record with name := value.asText }
       else if key = "description".toList then { record with description := value.asText }
       else if key = "params".toList then { record with params := Param.listOfJson value }
       else if key = "throws".toList then { record with throws := some (Throws.ofJson value) }
       else record)
      rest

/-- The record of a JSON value. -/
def Record.ofJson : Json → Record
  | .object fields => Record.ofFields ⟨[], [], [], none⟩ fields
  | _ => ⟨[], [], [], none⟩

/-- The records of a JSON value. -/
def Record.listOfJson : Json → List Record
  | .array elements => elements.map Record.ofJson
  | _ => []

/-! ## Parameter trees -/

namespace Param

/-- What the JSON value of a node does not say can be told without it. -/
structure Recoverable (node : Param) : Prop where
  canonical : TypeName.ofLower node.type.text = node.type
  key_eq_title : ∀ key property, (key, property) ∈ node.properties → property.title = key
  items_untitled : ∀ item, node.items = some item → item.title = []

/-- All nodes of the tree are recoverable. -/
def RecoverableTree (root : Param) : Prop :=
  ∀ node, root.Within node → node.Recoverable

/-- Every node of a recoverable tree is the root of one. -/
theorem RecoverableTree.of_within {root node : Param} (h : root.RecoverableTree)
    (hnode : root.Within node) : node.RecoverableTree :=
  fun inner hinner => h inner (hnode.trans hinner)

/-- A title is read back, also when it is left out because it is empty. -/
theorem ofFields_textField_title (title : Text) (type : TypeName) (description : Text)
    (items : Option Param) (properties : List (Text × Param)) (rest : List (Text × Json)) :
    ofFields ⟨[], type, description, items, properties⟩ (textField "title" title ++ rest) =
      ofFields ⟨title, type, description, items, properties⟩ rest := by
  cases title with
  | nil => rfl
  | cons c title => simp [textField, ofFields, Json.asText]

/-- A description is read back, also when it is left out because it is empty. -/
theorem ofFields_textField_description (title : Text) (type : TypeName) (description : Text)
    (items : Option Param) (properties : List (Text × Param)) (rest : List (Text × Json)) :
    ofFields ⟨title, type, [], items, properties⟩ (textField "description" description ++ rest) =
      ofFields ⟨title, type, description, items, properties⟩ rest := by
  cases description with
  | nil => rfl
  | cons c description => simp [textField, ofFields, Json.asText]

mutual

/-- A tree is recovered from its value, the title apart when the value lacks it. -/
theorem ofJson_toJson (titled : Bool) :
    ∀ param : Param, param.RecoverableTree →
      ofJson (if titled then [] else param.title) (toJson titled param) = param
  | ⟨title, type, description, items, properties⟩, h => by
      have hnode := h _ .self
      have hcanonical : TypeName.ofLower type.text = type := hnode.canonical
      have hitems := ofFields_itemsField items hnode.items_untitled
        fun item hitem => h.of_within (.items .self hitem)
      have hproperties := ofPropertyFields_propertyFields properties hnode.key_eq_title
        fun key property hmem => h.of_within (.property .self hmem)
      have htitle : ∀ rest,
          ofFields ⟨if titled then [] else title, type, [], none, []⟩
            ((if titled then textField "title" title else []) ++ rest) =
              ofFields ⟨title, type, [], none, []⟩ rest := by
        intro rest
        cases titled with
        | true => exact ofFields_textField_title title type [] none [] rest
        | false => rfl
      have hlast : ofFields ⟨title, type, description, items, []⟩
          (if properties.isEmpty then []
            else [("properties".toList, Json.object (propertyFields properties))]) =
              ⟨title, type, description, items, properties⟩ := by
        cases properties with
        | nil => rfl
        | cons first rest => simp [ofFields, ofProperties, hproperties]
      simp only [toJson, ofJson, List.cons_append, List.append_assoc, ofFields, ↓reduceIte,
        Json.asText, hcanonical]
      rw [htitle, ofFields_textField_description, hitems, hlast]

/-- The items of an array are recovered. -/
theorem ofFields_itemsField :
    ∀ items : Option Param, (∀ item, items = some item → item.title = []) →
      (∀ item, items = some item → item.RecoverableTree) →
      ∀ title type description properties rest,
        ofFields ⟨title, type, description, none, properties⟩ (itemsField items ++ rest) =
          ofFields ⟨title, type, description, items, properties⟩ rest
  | none, _, _, _, _, _, _, _ => by
      rw [itemsField, List.nil_append]
  | some item, huntitled, h, _, _, _, _, _ => by
      have hitem : ofJson [] (toJson false item) = item := by
        have := ofJson_toJson false item (h item rfl)
        rwa [huntitled item rfl, if_neg Bool.false_ne_true] at this
      simp [itemsField, ofFields, hitem]

/-- The properties of an object are recovered. -/
theorem ofPropertyFields_propertyFields :
    ∀ properties : List (Text × Param),
      (∀ key property, (key, property) ∈ properties → property.title = key) →
      (∀ key property, (key, property) ∈ properties → property.RecoverableTree) →
      ofPropertyFields (propertyFields properties) = properties
  | [], _, _ => by
      rw [propertyFields, ofPropertyFields]
  | (key, property) :: rest, htitles, h => by
      have hproperty : ofJson key (toJson false property) = property := by
        have := ofJson_toJson false property (h key property List.mem_cons_self)
        rwa [htitles key property List.mem_cons_self, if_neg Bool.false_ne_true] at this
      have hrest := ofPropertyFields_propertyFields rest
        (fun key' property' hmem => htitles key' property' (List.mem_cons_of_mem _ hmem))
        (fun key' property' hmem => h key' property' (List.mem_cons_of_mem _ hmem))
      rw [propertyFields, ofPropertyFields, hproperty, hrest]

end

/-- Recoverable trees are read back from their values. -/
theorem listOfJson_map_toJson {params : List Param} (h : ∀ root ∈ params, root.RecoverableTree) :
    listOfJson (.array (params.map (toJson true))) = params := by
  rw [listOfJson, List.map_map]
  refine (List.map_congr_left ?_).trans (List.map_id _)
  intro root hroot
  exact ofJson_toJson true root (h root hroot)

end Param

/-! ## Records -/

/-- A documented error is read back from its value. -/
theorem Throws.ofJson_toJson (throws : Throws) : Throws.ofJson throws.toJson = throws := by
  rcases throws with ⟨type, description⟩
  cases type <;> cases description <;>
    simp [toJson, ofJson, ofFields, optionField, Json.asText]

namespace Record

/-- The parameters of a record are recoverable at every node. -/
def Recoverable (record : Record) : Prop :=
  ∀ root ∈ record.params, root.RecoverableTree

/-- A recoverable record is read back from its value. -/
theorem ofJson_toJson {record : Record} (h : record.Recoverable) :
    ofJson record.toJson = record := by
  have hparams := Param.listOfJson_map_toJson h
  rcases record with ⟨name, description, params, throws⟩
  cases throws with
  | none => simp [toJson, ofJson, ofFields, Json.asText, hparams]
  | some throws => simp [toJson, ofJson, ofFields, Json.asText, hparams, Throws.ofJson_toJson]

/-- Recoverable records are recovered from their value. -/
theorem listOfJson_map_toJson {records : List Record} (h : ∀ record ∈ records, record.Recoverable) :
    listOfJson (.array (records.map toJson)) = records := by
  rw [listOfJson, List.map_map]
  refine (List.map_congr_left ?_).trans (List.map_id _)
  intro record hrecord
  exact ofJson_toJson (h record hrecord)

/-! ## The records of comments -/

/-- The names of the types in comments are known from their texts. -/
def canonicalWords : Vocabulary where
  name := fun name => TypeName.ofLower name.text = name
  description := fun _ => True
  name_string := by decide
  name_array := by decide
  name_object := by decide
  description_nil := trivial

/-- The name that a text gives a type is canonical. -/
theorem canonical_ofText (text : Text) :
    canonicalWords.name (TypeName.ofText text) := by
  show TypeName.ofLower (TypeName.ofLower (Text.lower text)).text = _
  rw [TypeName.text_ofLower]
  rfl

/-- An entry that was read is made of canonical names. -/
theorem admits_of_ofText? {text : Text} {entry : ParamEntry}
    (h : ParamEntry.ofText? text = some entry) : canonicalWords.Admits entry := by
  simp only [ParamEntry.ofText?, Option.bind_eq_bind, Option.bind_eq_some_iff, Option.pure_def,
    Option.some.injEq] at h
  rcases h with ⟨⟨token, rest⟩, _, path, _, description, _, rfl⟩
  refine ⟨?_, trivial⟩
  intro type htype
  rcases Option.map_eq_some_iff.mp htype with ⟨raw, _, rfl⟩
  exact TypeExpr.over_parse (fun _ => True) trivial (fun _ _ _ _ _ => trivial)
    fun raw _ => canonical_ofText (Text.trim raw)

/-- The entries of any lines are made of canonical names. -/
theorem admits_of_mem_entries (tags : List Text) :
    ∀ entry ∈ tags.filterMap Tag.entryOf?, canonicalWords.Admits entry := by
  intro entry hentry
  rcases List.mem_filterMap.mp hentry with ⟨line, _, hline⟩
  rcases Tag.exists_ofText?_of_entryOf? hline with ⟨text, _, htext⟩
  exact admits_of_ofText? htext

/-- Every node of the record of a comment is recoverable. -/
theorem recoverable_ofComment (raw : Text) : (ofComment raw).Recoverable := by
  intro root hroot node hnode
  have hfits : node.Fits := by
    rcases exists_tidyList_ofComment raw with ⟨branches, htidy, hparams⟩
    rw [hparams] at hroot
    rcases Branch.mem_forest hroot with ⟨name, branch, hmem, rfl⟩
    exact (htidy.tidy name branch hmem).fits_of_within hnode
  have hwords : canonicalWords.name node.type := by
    have hparams := params_ofSections (Comment.Sections.ofLines (Comment.lines raw))
    exact (Vocabulary.of_within_forest (admits_of_mem_entries _) (hparams ▸ hroot) hnode).1
  exact ⟨hwords, hfits.key_eq_title, fun item hitem => (hfits.items_bare item hitem).1⟩

/-- The records of every source are recoverable. -/
theorem recoverable_ofSource (source : Text) : ∀ record ∈ ofSource source, record.Recoverable := by
  intro record hrecord
  rcases List.mem_map.mp hrecord with ⟨raw, _, rfl⟩
  exact recoverable_ofComment raw

/-! ## JSON texts of records -/

/-- The final line feed is a blank after the value. -/
theorem read?_renderJson (records : List Record) :
    Json.read? (renderJson records) = some (.array (records.map toJson)) :=
  Json.read?_print Json.Layout.pretty_spaced 0 _ (by simp [Json.isSpace])

/-- The records of every source are read back from their values. -/
theorem listOfJson_ofSource (source : Text) :
    listOfJson (.array ((ofSource source).map toJson)) = ofSource source :=
  listOfJson_map_toJson (recoverable_ofSource source)

/-- A reader gets from the JSON text of any records, and from its compact form,
exactly the value of the records.  From that value the records of every source
are recovered, so no two sources with different records have the same text. -/
theorem renderJson_lossless :
    (∀ records : List Record,
      Json.read? (renderJson records) = some (.array (records.map toJson)) ∧
      Json.read? (Json.compact (.array (records.map toJson))) =
        some (.array (records.map toJson))) ∧
    (∀ source, (Json.read? (renderJson (ofSource source))).map listOfJson =
      some (ofSource source)) ∧
    ∀ source source', renderJson (ofSource source) = renderJson (ofSource source') →
      ofSource source = ofSource source' := by
  have hrecover : ∀ source, (Json.read? (renderJson (ofSource source))).map listOfJson =
      some (ofSource source) := by
    intro source
    rw [read?_renderJson, Option.map_some, listOfJson_ofSource]
  refine ⟨?_, hrecover, ?_⟩
  · intro records
    exact ⟨read?_renderJson records, Json.read?_compact _⟩
  · intro source source' htext
    have := hrecover source
    rw [htext, hrecover source'] at this
    exact (Option.some.inj this).symm

end Record
end DocComment
