import DocComment.Proofs.Param.Shape
import DocComment.Proofs.Tag.Line

/-!
# Writing parameter trees

A parameter tree is written as a list of entries, each node before its
properties.  The type of a node says how deep its items go; the properties of
items are written below the name of the array with brackets.

Main results:

- Definition `Param.entries`: the entries of a parameter tree.
- Definition `Param.Sound`: the trees that entries can describe.
- Theorem `Param.Sound.writable_of_mem_entries`: their entries can be written on
  lines.
- Theorem `Branch.forest_ofEntries_flatMap_entries`: the entries of a forest of
  sound trees with distinct titles give back the forest.
-/

namespace DocComment

/-- The entry with one more step above its path. -/
def ParamEntry.under (step : Step) (entry : ParamEntry) : ParamEntry :=
  { entry with path := step :: entry.path }

namespace Param

/-! ## The entries of a tree -/

mutual

/-- The type expression of a parameter: its type, or an array of its items. -/
def typeExpr : Param → TypeExpr
  | ⟨_, type, _, items, _⟩ => typeExprOver type items

/-- The type expression of a parameter with a type and items. -/
def typeExprOver (type : TypeName) : Option Param → TypeExpr
  | none => .ofName type
  | some item => .arrayOf (typeExpr item)

end

mutual

/-- The entries of a parameter: its own one, and those of the properties of its
items and of its properties. -/
def entries : Param → List ParamEntry
  | ⟨title, type, description, items, properties⟩ =>
    ⟨some (typeExprOver type items), [⟨title, false⟩], description⟩ ::
      ((itemEntries items).map (ParamEntry.under ⟨title, true⟩) ++
        (propertyEntries properties).map (ParamEntry.under ⟨title, false⟩))

/-- The entries of the properties of items, with paths that start below the items. -/
def itemEntries : Option Param → List ParamEntry
  | none => []
  | some ⟨_, _, _, _, properties⟩ => propertyEntries properties

/-- The entries of a list of properties, one property after the other. -/
def propertyEntries : List (Text × Param) → List ParamEntry
  | [] => []
  | (_, property) :: rest => entries property ++ propertyEntries rest

end

/-- The entry of the parameter itself. -/
def ownEntry (param : Param) : ParamEntry :=
  ⟨some param.typeExpr, [⟨param.title, false⟩], param.description⟩

/-- The entries of a parameter are its own and those below it, with its step in front. -/
theorem entries_eq (param : Param) :
    param.entries = param.ownEntry ::
      ((itemEntries param.items).map (ParamEntry.under ⟨param.title, true⟩) ++
        (propertyEntries param.properties).map (ParamEntry.under ⟨param.title, false⟩)) := by
  rcases param with ⟨title, type, description, items, properties⟩
  rw [entries, ownEntry, typeExpr]

/-- The items of an array give the entries of their properties. -/
theorem itemEntries_some (item : Param) :
    itemEntries (some item) = propertyEntries item.properties := by
  rcases item with ⟨title, type, description, items, properties⟩
  rw [itemEntries]

/-- Properties give their entries one after another. -/
theorem propertyEntries_eq_flatMap (properties : List (Text × Param)) :
    propertyEntries properties = properties.flatMap fun property => property.2.entries := by
  induction properties with
  | nil => rfl
  | cons property rest ih => rw [propertyEntries, ih, List.flatMap_cons]

/-- A parameter without items has its own type. -/
theorem typeExpr_of_none {param : Param} (h : param.items = none) :
    param.typeExpr = .ofName param.type := by
  rcases param with ⟨title, type, description, items, properties⟩
  cases h
  rw [typeExpr, typeExprOver]

/-- A parameter with items is an array of their type. -/
theorem typeExpr_of_some {param item : Param} (h : param.items = some item) :
    param.typeExpr = .arrayOf item.typeExpr := by
  rcases param with ⟨title, type, description, items, properties⟩
  cases h
  rw [typeExpr, typeExprOver]

/-! ## Trees that can be written -/

/-- The rules for a node that is to be written.  A path reaches into the items of
an array once, so items of items have no properties. -/
structure Writable (node : Param) : Prop where
  fits : node.Fits
  inline : node.description.Inline
  spelled : ∀ name, node.type = .custom name → TypeExpr.Spelled (.named (.custom name))
  addressable : ∀ item inner, node.items = some item → item.items = some inner →
    inner.properties = []

/-- Every node of the tree can be written. -/
inductive Sound : Param → Prop
  | node {param : Param} (hnode : param.Writable)
      (hitems : ∀ item, param.items = some item → Sound item)
      (hproperties : ∀ key property, (key, property) ∈ param.properties → Sound property) :
      Sound param

/-- A sound parameter can be written. -/
theorem Sound.writable {param : Param} (h : param.Sound) : param.Writable := by
  cases h with
  | node hnode _ _ => exact hnode

/-- A parameter without children is sound when its description and its type can be
spelled. -/
theorem Sound.leaf {title description : Text} {type : TypeName} (hinline : description.Inline)
    (hspelled : ∀ name, type = .custom name → TypeExpr.Spelled (.named (.custom name))) :
    Sound ⟨title, type, description, none, []⟩ := by
  refine .node ⟨?_, hinline, hspelled, by simp⟩ (by simp) (by simp)
  constructor <;> simp

/-- An array of bare items is sound when its items are. -/
theorem Sound.array {title description : Text} {item : Param} (hinline : description.Inline)
    (hbare : item.title = [] ∧ item.description = [])
    (hinner : ∀ inner, item.items = some inner → inner.properties = []) (hitem : item.Sound) :
    Sound ⟨title, .array, description, some item, []⟩ := by
  refine .node ⟨?_, hinline, by simp, ?_⟩ ?_ (by simp)
  · constructor <;> simp [hbare]
  · intro item' inner hitem' hinner'
    cases hitem'
    exact hinner inner hinner'
  · intro item' hitem'
    cases hitem'
    exact hitem

/-- An object is sound when its properties are sound and stand under their titles. -/
theorem Sound.object {title description : Text} {properties : List (Text × Param)}
    (hinline : description.Inline) (hnodup : (properties.map Prod.fst).Nodup)
    (hkeys : ∀ property ∈ properties,
      property.2.title = property.1 ∧ Text.isIdentifier property.2.title = true)
    (hproperties : ∀ property ∈ properties, property.2.Sound) :
    Sound ⟨title, .object, description, none, properties⟩ := by
  refine .node ⟨?_, hinline, by simp, by simp⟩ (by simp) ?_
  · exact ⟨by simp, by simp, by simp, hnodup, fun key property hmem => (hkeys _ hmem).1,
      fun key property hmem => (hkeys _ hmem).2, by simp⟩
  · intro key property hmem
    exact hproperties (key, property) hmem

/-- The type of a sound parameter can be spelled. -/
theorem Sound.spelled_typeExpr {param : Param} (h : param.Sound) : param.typeExpr.Spelled := by
  induction h with
  | @node param hnode _ _ ihitems _ =>
      cases hitems : param.items with
      | none =>
          rw [typeExpr_of_none hitems]
          exact TypeExpr.spelled_ofName hnode.spelled
      | some item =>
          rw [typeExpr_of_some hitems]
          exact (ihitems item hitems).arrayOf

/-- The own entry of a sound parameter can be written on a line. -/
theorem Sound.writable_ownEntry {param : Param} (h : param.Sound)
    (htitle : Text.isIdentifier param.title = true) : param.ownEntry.Writable where
  path_ne_nil := by simp [ownEntry]
  named := by simpa [ownEntry, FieldPath.Named] using htitle
  spelled := by
    intro type htype
    cases htype
    exact h.spelled_typeExpr
  inline := h.writable.inline

/-- An entry that can be written can also be written below a step. -/
theorem writable_under {entry : ParamEntry} (h : entry.Writable) {step : Step}
    (hstep : Text.isIdentifier step.name = true) : (entry.under step).Writable where
  path_ne_nil := by simp [ParamEntry.under]
  named := by
    intro step' hmem
    rcases List.mem_cons.mp hmem with rfl | hmem
    · exact hstep
    · exact h.named step' hmem
  spelled := h.spelled
  inline := h.inline

/-- The entries of the properties and of the parameter itself can be written on
lines.  Both go together, since those below an array are the entries of the
properties of its items. -/
theorem Sound.writable_entries {param : Param} (h : param.Sound) :
    (∀ entry ∈ propertyEntries param.properties, entry.Writable) ∧
      (Text.isIdentifier param.title = true → ∀ entry ∈ param.entries, entry.Writable) := by
  induction h with
  | @node param hnode hitems hproperties ihitems ihproperties =>
      have hbelow : ∀ entry ∈ propertyEntries param.properties, entry.Writable := by
        intro entry hmem
        rw [propertyEntries_eq_flatMap] at hmem
        rcases List.mem_flatMap.mp hmem with ⟨⟨key, property⟩, hproperty, hentry⟩
        exact (ihproperties key property hproperty).2
          (hnode.fits.identifier key property hproperty) entry hentry
      have hinside : ∀ entry ∈ itemEntries param.items, entry.Writable := by
        cases hsome : param.items with
        | none => simp [itemEntries]
        | some item =>
            rw [itemEntries_some]
            exact (ihitems item hsome).1
      refine ⟨hbelow, fun htitle entry hmem => ?_⟩
      rw [entries_eq] at hmem
      rcases List.mem_cons.mp hmem with rfl | hmem
      · exact (Sound.node hnode hitems hproperties).writable_ownEntry htitle
      · rcases List.mem_append.mp hmem with hmem | hmem
        · rcases List.mem_map.mp hmem with ⟨entry, hentry, rfl⟩
          exact writable_under (hinside entry hentry) htitle
        · rcases List.mem_map.mp hmem with ⟨entry, hentry, rfl⟩
          exact writable_under (hbelow entry hentry) htitle

/-- Every entry of a sound parameter can be written on a line. -/
theorem Sound.writable_of_mem_entries {param : Param} (h : param.Sound)
    (htitle : Text.isIdentifier param.title = true) {entry : ParamEntry}
    (hmem : entry ∈ param.entries) : entry.Writable :=
  h.writable_entries.2 htitle entry hmem

end Param

namespace Branch

/-! ## The branch of a tree -/

mutual

/-- The branch that shows a parameter and nothing else. -/
def ofParam : Param → Branch
  | ⟨title, type, description, items, properties⟩ =>
    ⟨title, type, description, ofItems items, ofProperties properties⟩

/-- The branch of the items. -/
def ofItems : Option Param → Option Branch
  | none => none
  | some item => some (ofParam item)

/-- The branch of each property. -/
def ofProperties : List (Text × Param) → List (Text × Branch)
  | [] => []
  | (key, property) :: rest => (key, ofParam property) :: ofProperties rest

end

/-- Properties are taken over one by one. -/
theorem ofProperties_eq_map (properties : List (Text × Param)) :
    ofProperties properties = properties.map fun property => (property.1, ofParam property.2) := by
  induction properties with
  | nil => rfl
  | cons property properties ih => simp [ofProperties, ih]

/-- What the branch of a parameter holds. -/
theorem ofParam_eq (param : Param) :
    ofParam param =
      { title := param.title
        type := param.type
        description := param.description
        items := param.items.map ofParam
        properties := ofProperties param.properties } := by
  rcases param with ⟨title, type, description, items, properties⟩
  rw [ofParam]
  cases items <;> rfl

/-- Pruning hides nothing of the branch of a sound tree. -/
theorem prune_ofParam {param : Param} (h : param.Sound) : prune (ofParam param) = param := by
  induction h with
  | @node param hnode _ _ ihitems ihproperties =>
      rcases param with ⟨title, type, description, items, properties⟩
      have hitems : (if type = .array then (items.map ofParam).map prune else none) = items := by
        cases items with
        | none => simp
        | some item =>
            rw [if_pos (hnode.fits.items_only_in_arrays rfl), Option.map_some, Option.map_some,
              ihitems item rfl]
      have hproperties : (if type = .object then
          (ofProperties properties).map fun property => (property.1, prune property.2)
          else []) = properties := by
        by_cases hnil : properties = []
        · simp [hnil, ofProperties]
        · rw [if_pos (hnode.fits.properties_only_in_objects hnil), ofProperties_eq_map,
            List.map_map]
          refine (List.map_congr_left ?_).trans (List.map_id properties)
          intro property hmem
          simp only [Function.comp_apply, ihproperties property.1 property.2 hmem, id_eq]
      rw [ofParam_eq, prune_eq]
      simp only [hitems, hproperties]

/-! ## Inserting below a name -/

/-- The path of an entry matters to an insertion only as the path that is
followed. -/
theorem insertAt_under (entry : ParamEntry) (step : Step) (path : FieldPath)
    (branches : List (Text × Branch)) :
    insertAt (entry.under step) path branches = insertAt entry path branches := by
  induction path generalizing branches with
  | nil => rfl
  | cons first rest ih =>
      have hvisit : visit (entry.under step) first rest = visit entry first rest := by
        funext branch
        cases rest with
        | nil => rfl
        | cons next rest => simp only [visit, ih]
      rw [insertAt_cons, insertAt_cons, hvisit]

/-- Change the properties of a branch, or those of its items when it is marked as
an array. -/
def mapFields (marked : Bool) (change : List (Text × Branch) → List (Text × Branch))
    (branch : Branch) : Branch :=
  if marked then
    { branch with
      type := .array
      items := some
        { branch.itemsOrFresh with
          type := .object
          properties := change branch.itemsOrFresh.properties } }
  else
    { branch with
      type := .object
      properties := change branch.properties }

/-- Two changes of the same properties are one change. -/
theorem mapFields_mapFields (marked : Bool)
    (change change' : List (Text × Branch) → List (Text × Branch)) (branch : Branch) :
    mapFields marked change' (mapFields marked change branch) =
      mapFields marked (change' ∘ change) branch := by
  cases marked <;> rfl

/-- Visiting a branch for an entry below it inserts the entry among its properties. -/
theorem visit_under {entry : ParamEntry} (hpath : entry.path ≠ []) (step : Step) :
    visit (entry.under step) step entry.path = mapFields step.marked (insert · entry) := by
  funext branch
  rcases List.exists_cons_of_ne_nil hpath with ⟨next, rest, hcons⟩
  simp only [visit, hcons, insertAt_under, mapFields, insert]

/-- An insertion under the name of the last branch changes this branch. -/
theorem upsert_append_self {name : Text} {branches : List (Text × Branch)}
    (hname : name ∉ branches.map Prod.fst) (change : Branch → Branch) (branch : Branch) :
    upsert name change (branches ++ [(name, branch)]) = branches ++ [(name, change branch)] := by
  induction branches with
  | nil => simp [upsert]
  | cons first rest ih =>
      simp only [List.map_cons, List.mem_cons, not_or] at hname
      have hne : first.1 ≠ name := fun heq => hname.1 heq.symm
      rw [List.cons_append, upsert, if_neg hne, ih hname.2]
      rfl

/-- Entries below the last name change the fields of its branch, provided that
the branch already has the type which a step through it demands. -/
theorem foldl_insert_under {step : Step} {branches : List (Text × Branch)}
    (hname : step.name ∉ branches.map Prod.fst) {entries : List ParamEntry}
    (hpaths : ∀ entry ∈ entries, entry.path ≠ []) {branch : Branch}
    (hstable : mapFields step.marked id branch = branch) :
    (entries.map (ParamEntry.under step)).foldl insert (branches ++ [(step.name, branch)]) =
      branches ++ [(step.name, mapFields step.marked (entries.foldl insert) branch)] := by
  induction entries generalizing branch with
  | nil =>
      have hnil : mapFields step.marked ([].foldl insert) branch = branch := hstable
      rw [hnil]
      rfl
  | cons entry entries ih =>
      have hinsert : insert (branches ++ [(step.name, branch)]) (entry.under step) =
          branches ++ [(step.name, mapFields step.marked (insert · entry) branch)] := by
        rw [← visit_under (hpaths entry List.mem_cons_self)]
        exact (insertAt_cons _ _ _ _).trans (upsert_append_self hname _ _)
      rw [List.map_cons, List.foldl_cons, hinsert,
        ih (fun entry' hmem => hpaths entry' (List.mem_cons_of_mem _ hmem))
          (mapFields_mapFields step.marked _ id branch),
        mapFields_mapFields]
      rfl

/-! ## Inserting a tree -/

/-- What the own entry of a parameter says about its branch: everything except
the properties of the parameter and of its items. -/
def outline (param : Param) : Branch where
  title := param.title
  type := param.type
  description := param.description
  items := param.items.map fun item => { ofParam item with properties := [] }
  properties := []

/-- Taking its properties away leaves a branch without any alone. -/
theorem ofParam_without_properties {param : Param} (h : param.properties = []) :
    { ofParam param with properties := [] } = ofParam param := by
  rw [ofParam_eq, h]
  rfl

/-- The outline leaves out nothing but the properties when the items have none. -/
theorem outline_eq {param : Param}
    (h : ∀ item, param.items = some item → item.properties = []) :
    outline param = { ofParam param with properties := [] } := by
  rw [outline, ofParam_eq]
  cases hitems : param.items with
  | none => rfl
  | some item => rw [Option.map_some, Option.map_some, ofParam_without_properties (h item hitems)]

/-- Giving a type by name sets the type of the branch. -/
theorem applyType_ofName (name : TypeName) (branch : Branch) :
    applyType (.ofName name) branch = { branch with type := name } := by
  cases name <;> rfl

/-- The type expression of a sound tree gives a fresh branch its outline. -/
theorem applyType_typeExpr {param : Param} (h : param.Sound) :
    applyType param.typeExpr { fresh param.title with description := param.description } =
      outline param := by
  induction h with
  | @node param hnode _ _ ihitems _ =>
      cases hitems : param.items with
      | none =>
          rw [Param.typeExpr_of_none hitems, applyType_ofName, outline, hitems]
          rfl
      | some item =>
          have hitem := ihitems item hitems
          have hbare := hnode.fits.items_bare item hitems
          have harray : param.type = .array :=
            hnode.fits.items_only_in_arrays (by rw [hitems]; rfl)
          rw [hbare.1, hbare.2,
            outline_eq fun inner hinner => hnode.addressable item inner hitems hinner] at hitem
          rw [Param.typeExpr_of_some hitems, outline, hitems, harray, Option.map_some, ← hitem]
          rfl

/-- The own entry of a parameter adds its outline. -/
theorem insert_ownEntry {param : Param} (h : param.Sound) {branches : List (Text × Branch)}
    (hname : param.title ∉ branches.map Prod.fst) :
    insert branches param.ownEntry = branches ++ [(param.title, outline param)] := by
  rw [← applyType_typeExpr h]
  exact upsert_of_notMem _ hname

/-- Properties whose entries insert them one by one are inserted by all entries. -/
theorem foldl_insert_propertyEntries {properties : List (Text × Param)}
    {branches : List (Text × Branch)}
    (hnodup : (branches.map Prod.fst ++ properties.map Prod.fst).Nodup)
    (htitle : ∀ key property, (key, property) ∈ properties → property.title = key)
    (hinsert : ∀ key property, (key, property) ∈ properties → ∀ branches : List (Text × Branch),
      property.title ∉ branches.map Prod.fst →
        property.entries.foldl insert branches =
          branches ++ [(property.title, ofParam property)]) :
    (Param.propertyEntries properties).foldl insert branches =
      branches ++ ofProperties properties := by
  induction properties generalizing branches with
  | nil => simp [Param.propertyEntries, ofProperties]
  | cons property rest ih =>
      rcases property with ⟨key, property⟩
      have hkey : property.title = key := htitle key property List.mem_cons_self
      have hname : property.title ∉ branches.map Prod.fst := by
        intro hmem
        rw [hkey] at hmem
        exact (List.nodup_append.mp hnodup).2.2 key hmem key List.mem_cons_self rfl
      have hrest : ((branches ++ [(property.title, ofParam property)]).map Prod.fst ++
          rest.map Prod.fst).Nodup := by
        simpa [hkey] using hnodup
      rw [Param.propertyEntries, List.foldl_append,
        hinsert key property List.mem_cons_self branches hname,
        ih hrest (fun key' property' hmem => htitle key' property' (List.mem_cons_of_mem _ hmem))
          (fun key' property' hmem => hinsert key' property' (List.mem_cons_of_mem _ hmem)),
        ofProperties, hkey]
      simp

/-- An object stays as it is when its properties are left alone. -/
theorem mapFields_id_of_object {branch : Branch} (h : branch.type = .object) :
    mapFields false id branch = branch := by
  rcases branch with ⟨title, type, description, items, properties⟩
  cases h
  rfl

/-- An array of objects stays as it is when the properties of its items are left alone. -/
theorem mapFields_id_of_array {branch item : Branch} (h : branch.type = .array)
    (hitems : branch.items = some item) (hitem : item.type = .object) :
    mapFields true id branch = branch := by
  rcases branch with ⟨title, type, description, items, properties⟩
  rcases item with ⟨title', type', description', items', properties'⟩
  cases h
  cases hitems
  cases hitem
  rfl

/-- An object is complete once its properties stand in its outline. -/
theorem mapFields_outline_of_none {param : Param} (hitems : param.items = none)
    (hobject : param.type = .object) (change : List (Text × Branch) → List (Text × Branch))
    (hchange : change [] = ofProperties param.properties) :
    mapFields false change (outline param) = ofParam param := by
  rw [ofParam_eq, ← hchange, hobject, hitems]
  simp [mapFields, outline, hitems]

/-- An array of objects is complete once the properties of its items stand in its
outline. -/
theorem mapFields_outline_of_some {param item : Param} (hitems : param.items = some item)
    (harray : param.type = .array) (hobject : item.type = .object)
    (hnil : param.properties = []) (change : List (Text × Branch) → List (Text × Branch))
    (hchange : change [] = ofProperties item.properties) :
    mapFields true change (outline param) = ofParam param := by
  rw [ofParam_eq, hitems, harray, hnil, Option.map_some, ofParam_eq item, ← hchange, hobject]
  simp [mapFields, outline, itemsOrFresh, hitems, ofParam_eq item, ofProperties]

/-- The entries of an object, or of anything else without items, add its
branch. -/
theorem foldl_insert_entries_of_none {param : Param} (h : param.Sound)
    (hitems : param.items = none)
    (hproperties : (Param.propertyEntries param.properties).foldl insert [] =
      ofProperties param.properties)
    {branches : List (Text × Branch)} (hname : param.title ∉ branches.map Prod.fst) :
    param.entries.foldl insert branches = branches ++ [(param.title, ofParam param)] := by
  rw [Param.entries_eq, hitems, List.foldl_cons, insert_ownEntry h hname, Param.itemEntries,
    List.map_nil, List.nil_append]
  by_cases hnil : param.properties = []
  · rw [outline_eq (by simp [hitems]), ofParam_without_properties hnil, hnil]
    rfl
  · have hobject : param.type = .object := h.writable.fits.properties_only_in_objects hnil
    have hpaths : ∀ entry ∈ Param.propertyEntries param.properties, entry.path ≠ [] :=
      fun entry hmem => (h.writable_entries.1 entry hmem).path_ne_nil
    have hstable : mapFields false id (outline param) = outline param :=
      mapFields_id_of_object hobject
    rw [← mapFields_outline_of_none hitems hobject
      ((Param.propertyEntries param.properties).foldl insert) hproperties]
    exact @foldl_insert_under ⟨param.title, false⟩ branches hname _ hpaths _ hstable

/-- The entries of an array with items add its branch. -/
theorem foldl_insert_entries_of_some {param item : Param} (h : param.Sound)
    (hitems : param.items = some item)
    (hproperties : (Param.propertyEntries item.properties).foldl insert [] =
      ofProperties item.properties)
    (hitem : item.Sound) {branches : List (Text × Branch)}
    (hname : param.title ∉ branches.map Prod.fst) :
    param.entries.foldl insert branches = branches ++ [(param.title, ofParam param)] := by
  have hnone : param.properties = [] := by
    rcases h.writable.fits.never_both with hnone | hnil
    · rw [hnone] at hitems
      contradiction
    · exact hnil
  rw [Param.entries_eq, hitems, hnone, List.foldl_cons, insert_ownEntry h hname,
    Param.itemEntries_some, Param.propertyEntries, List.map_nil, List.append_nil]
  by_cases hnil : item.properties = []
  · have hinner : ∀ item', param.items = some item' → item'.properties = [] := by
      intro item' hitem'
      rw [hitems] at hitem'
      cases hitem'
      exact hnil
    rw [outline_eq hinner, ofParam_without_properties hnone, hnil]
    rfl
  · have harray : param.type = .array :=
      h.writable.fits.items_only_in_arrays (by rw [hitems]; rfl)
    have hobject : item.type = .object := hitem.writable.fits.properties_only_in_objects hnil
    have hinside : (outline param).items = some { ofParam item with properties := [] } := by
      rw [outline, hitems]
      rfl
    have hpaths : ∀ entry ∈ Param.propertyEntries item.properties, entry.path ≠ [] :=
      fun entry hmem => (hitem.writable_entries.1 entry hmem).path_ne_nil
    have hstable : mapFields true id (outline param) = outline param :=
      mapFields_id_of_array harray hinside (by rw [ofParam_eq]; exact hobject)
    rw [← mapFields_outline_of_some hitems harray hobject hnone
      ((Param.propertyEntries item.properties).foldl insert) hproperties]
    exact @foldl_insert_under ⟨param.title, true⟩ branches hname _ hpaths _ hstable

/-- The entries of the properties of a sound tree give the branches of the
properties, and the entries of the tree add its branch. -/
theorem foldl_insert_entries {param : Param} (h : param.Sound) :
    (Param.propertyEntries param.properties).foldl insert [] = ofProperties param.properties ∧
      ∀ branches : List (Text × Branch), param.title ∉ branches.map Prod.fst →
        param.entries.foldl insert branches = branches ++ [(param.title, ofParam param)] := by
  induction h with
  | @node param hnode hitems hproperties ihitems ihproperties =>
      have hsound := Param.Sound.node hnode hitems hproperties
      have hbelow : (Param.propertyEntries param.properties).foldl insert [] =
          ofProperties param.properties :=
        foldl_insert_propertyEntries hnode.fits.keys_nodup hnode.fits.key_eq_title
          fun key property hmem => (ihproperties key property hmem).2
      refine ⟨hbelow, fun branches hname => ?_⟩
      cases hsome : param.items with
      | none => exact foldl_insert_entries_of_none hsound hsome hbelow hname
      | some item =>
          exact foldl_insert_entries_of_some hsound hsome (ihitems item hsome).1
            (hitems item hsome) hname

/-- The entries of a forest of sound trees with distinct titles give back the
forest. -/
theorem forest_ofEntries_flatMap_entries {roots : List Param}
    (hnodup : (roots.map Param.title).Nodup) (hsound : ∀ root ∈ roots, root.Sound) :
    forest (ofEntries (roots.flatMap Param.entries)) = roots := by
  -- The roots are like the properties of a node, with their titles for keys.
  have hentries : roots.flatMap Param.entries =
      Param.propertyEntries (roots.map fun root => (root.title, root)) := by
    rw [Param.propertyEntries_eq_flatMap, List.flatMap_map]
  have hinsert : ofEntries (roots.flatMap Param.entries) =
      ofProperties (roots.map fun root => (root.title, root)) := by
    rw [hentries]
    refine foldl_insert_propertyEntries (by simpa [Function.comp_def] using hnodup) ?_ ?_
    · intro key property hmem
      rcases List.mem_map.mp hmem with ⟨root, _, heq⟩
      cases heq
      rfl
    · intro key property hmem
      rcases List.mem_map.mp hmem with ⟨root, hroot, heq⟩
      cases heq
      exact (foldl_insert_entries (hsound property hroot)).2
  rw [hinsert, ofProperties_eq_map, forest, List.map_map, List.map_map]
  refine (List.map_congr_left ?_).trans (List.map_id roots)
  intro root hroot
  exact prune_ofParam (hsound root hroot)

end Branch
end DocComment
