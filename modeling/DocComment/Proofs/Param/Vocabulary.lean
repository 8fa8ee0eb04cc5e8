import DocComment.Proofs.Param.Shape

/-!
# What the words of a parameter tree are like

Every type name and every description in a parameter tree was taken from some
entry, or is one that a fresh place has.  So what holds of the words of all
entries holds of the words at every node of the trees.

Main results:

- Definition `Vocabulary`: properties of type names and descriptions that the
  words of a fresh place have.
- Theorem `Vocabulary.holds_ofEntries`: the branches of entries in a vocabulary
  are in that vocabulary.
- Theorem `Vocabulary.of_within_forest`: so is every node of their trees.
- Theorem `TypeExpr.over_parse`: the names in a type that was read, from what
  holds of the names that texts spell.
-/

namespace DocComment

/-- The names in a type expression have a property. -/
def TypeExpr.Over (P : TypeName → Prop) : TypeExpr → Prop
  | .named name => P name
  | .anyArray => True
  | .arrayOf element => element.Over P

/-- A type that is a name is made of this name. -/
theorem TypeExpr.over_ofName {P : TypeName → Prop} {name : TypeName} (h : P name) :
    (TypeExpr.ofName name).Over P := by
  cases name with
  | array => trivial
  | _ => exact h

/-- The names in a type that was read, when texts of a kind that element texts
keep to spell names with the property. -/
theorem TypeExpr.over_parse {P : TypeName → Prop} (good : Text → Prop) {raw : Text}
    (hraw : good raw)
    (helement : ∀ raw element, good raw → elementText? (Text.trim raw) = some element →
      Text.allBlank element = false → good element)
    (hname : ∀ raw, good raw → P (TypeName.ofText (Text.trim raw))) :
    (TypeExpr.parse raw).Over P := by
  fun_induction TypeExpr.parse raw with
  | case1 raw element h hlength hblank => trivial
  | case2 raw element h hlength hblank ih =>
      exact ih (helement raw element hraw h (by simpa using hblank))
  | case3 raw h => exact over_ofName (hname raw hraw)

/-- Properties of type names and of descriptions that hold of the words that
stand in a tree without having been written. -/
structure Vocabulary where
  name : TypeName → Prop
  description : Text → Prop
  name_string : name .string
  name_array : name .array
  name_object : name .object
  description_nil : description []

namespace Vocabulary

variable {words : Vocabulary}

/-- The words of an entry are in the vocabulary. -/
structure Admits (words : Vocabulary) (entry : ParamEntry) : Prop where
  type : ∀ type, entry.type = some type → type.Over words.name
  description : words.description entry.description

/-- The words of a branch, at every depth, are in the vocabulary. -/
inductive Holds (words : Vocabulary) : Branch → Prop
  | node {branch : Branch} (hname : words.name branch.type)
      (hdescription : words.description branch.description)
      (hitems : ∀ item, branch.items = some item → Holds words item)
      (hproperties : ∀ key property, (key, property) ∈ branch.properties →
        Holds words property) : Holds words branch

/-- The words of all branches of a list are in the vocabulary. -/
def HoldsAll (words : Vocabulary) (branches : List (Text × Branch)) : Prop :=
  ∀ key branch, (key, branch) ∈ branches → words.Holds branch

theorem holdsAll_nil : words.HoldsAll [] := by
  simp [HoldsAll]

namespace Holds

/-- The type of a branch is one of the words. -/
theorem name {branch : Branch} (h : words.Holds branch) : words.name branch.type := by
  cases h with
  | node hname _ _ _ => exact hname

/-- The description of a branch is one of the words. -/
theorem description {branch : Branch} (h : words.Holds branch) :
    words.description branch.description := by
  cases h with
  | node _ hdescription _ _ => exact hdescription

/-- The items of a branch hold the words. -/
theorem of_items {branch item : Branch} (h : words.Holds branch)
    (hitem : branch.items = some item) : words.Holds item := by
  cases h with
  | node _ _ hitems _ => exact hitems item hitem

/-- The properties of a branch hold the words. -/
theorem properties {branch : Branch} (h : words.Holds branch) :
    words.HoldsAll branch.properties := by
  cases h with
  | node _ _ _ hproperties => exact hproperties

theorem fresh (title : Text) : words.Holds (Branch.fresh title) :=
  .node words.name_object words.description_nil (by simp [Branch.fresh]) (by simp [Branch.fresh])

/-- The items of a branch hold the words, also when they are fresh. -/
theorem itemsOrFresh {branch : Branch} (h : words.Holds branch) :
    words.Holds branch.itemsOrFresh := by
  unfold Branch.itemsOrFresh
  cases hitems : branch.items with
  | none => exact Holds.fresh []
  | some item => exact h.of_items hitems

/-! ## One entry -/

/-- Describing a branch by words of the vocabulary. -/
theorem described {branch : Branch} (h : words.Holds branch) {type : TypeName}
    {description : Text} (htype : words.name type) (hdescription : words.description description) :
    words.Holds { branch with type := type, description := description } :=
  .node htype hdescription (fun _ => h.of_items) h.properties

/-- A branch may be given items that hold the words. -/
theorem with_items {branch item : Branch} (h : words.Holds branch) (hitem : words.Holds item) :
    words.Holds { branch with type := .array, items := some item } := by
  refine .node words.name_array h.description ?_ h.properties
  rintro _ ⟨⟩
  exact hitem

/-- A branch may be given properties that hold the words. -/
theorem with_properties {branch : Branch} (h : words.Holds branch)
    {properties : List (Text × Branch)} (hproperties : words.HoldsAll properties) :
    words.Holds { branch with type := .object, properties := properties } :=
  .node words.name_object h.description (fun _ => h.of_items) hproperties

/-- A branch may be given a type that is made of the words. -/
theorem applyType {type : TypeExpr} (htype : type.Over words.name) {branch : Branch}
    (h : words.Holds branch) : words.Holds (Branch.applyType type branch) := by
  induction type generalizing branch with
  | named name => exact h.described htype h.description
  | anyArray => exact h.described words.name_array h.description
  | arrayOf element ih => exact h.with_items (ih htype h.itemsOrFresh)

/-- An entry that the words admit may be written into a branch. -/
theorem define {entry : ParamEntry} (hentry : words.Admits entry) (marked : Bool)
    {branch : Branch} (h : words.Holds branch) :
    words.Holds (Branch.define entry marked branch) := by
  have htype : (entry.type.getD (.named .string)).Over words.name := by
    cases htype : entry.type with
    | none => exact words.name_string
    | some type => exact hentry.type type htype
  have hdescribed := h.described h.name hentry.description
  simp only [Branch.define]
  split
  · exact hdescribed.with_items (applyType htype hdescribed.itemsOrFresh)
  · split
    · exact h.described words.name_object hentry.description
    · exact applyType htype hdescribed

end Holds

/-- An insertion that changes a branch within the words stays within them. -/
theorem HoldsAll.upsert {branches : List (Text × Branch)} (h : words.HoldsAll branches)
    (name : Text) {change : Branch → Branch}
    (hchange : ∀ branch, words.Holds branch → words.Holds (change branch)) :
    words.HoldsAll (Branch.upsert name change branches) := by
  intro key branch hmem
  rcases Branch.mem_upsert hmem with hold | ⟨rfl, old, hold | rfl, rfl⟩
  · exact h key branch hold
  · exact hchange old (h key old hold)
  · exact hchange _ (.fresh key)

/-- Inserting an entry with words of the vocabulary. -/
theorem HoldsAll.insertAt {entry : ParamEntry} (hentry : words.Admits entry) (path : FieldPath)
    {branches : List (Text × Branch)} (h : words.HoldsAll branches) :
    words.HoldsAll (Branch.insertAt entry path branches) := by
  induction path generalizing branches with
  | nil => exact h
  | cons step rest ih =>
      rw [Branch.insertAt_cons]
      refine h.upsert step.name ?_
      intro branch hbranch
      cases rest with
      | nil => exact hbranch.define hentry step.marked
      | cons next rest =>
          simp only [Branch.visit]
          split
          · exact hbranch.with_items
              (hbranch.itemsOrFresh.with_properties (ih hbranch.itemsOrFresh.properties))
          · exact hbranch.with_properties (ih hbranch.properties)

/-! ## All entries -/

/-- The branches of entries in a vocabulary are in that vocabulary. -/
theorem holds_ofEntries {entries : List ParamEntry}
    (hentries : ∀ entry ∈ entries, words.Admits entry) :
    words.HoldsAll (Branch.ofEntries entries) := by
  refine List.foldlRecOn (motive := words.HoldsAll) entries Branch.insert holdsAll_nil ?_
  intro branches h entry hentry
  exact h.insertAt (hentries entry hentry) entry.path

/-- Every node of the trees of entries in a vocabulary is in that vocabulary. -/
theorem of_within_forest {entries : List ParamEntry}
    (hentries : ∀ entry ∈ entries, words.Admits entry) {root node : Param}
    (hroot : root ∈ Branch.forest (Branch.ofEntries entries)) (hnode : root.Within node) :
    words.name node.type ∧ words.description node.description := by
  -- Every node is the visible part of a branch.
  have hpruned : ∃ branch, node = Branch.prune branch ∧ words.Holds branch := by
    induction hnode with
    | self =>
        rcases List.mem_map.mp hroot with ⟨⟨key, branch⟩, hmem, rfl⟩
        exact ⟨branch, rfl, holds_ofEntries hentries key branch hmem⟩
    | items _ hitem ih =>
        rcases ih with ⟨branch, rfl, hbranch⟩
        rcases Branch.items_prune_eq_some hitem with ⟨_, item, hitem', rfl⟩
        exact ⟨item, rfl, hbranch.of_items hitem'⟩
    | property _ hmem ih =>
        rcases ih with ⟨branch, rfl, hbranch⟩
        rcases Branch.mem_properties_prune hmem with ⟨_, property, hmem', rfl⟩
        exact ⟨property, rfl, hbranch.properties _ property hmem'⟩
  rcases hpruned with ⟨branch, rfl, hbranch⟩
  rw [Branch.type_prune, Branch.description_prune]
  exact ⟨hbranch.name, hbranch.description⟩

end Vocabulary
end DocComment
