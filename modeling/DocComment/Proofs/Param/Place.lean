import DocComment.Proofs.Param.Order

/-!
# Places in parameter trees

A path leads from a tree down to one of its places: a step goes to the property
with its name, and a marked step goes on to the items of that property.  In the
trees of a draft a place can be found only when nothing on the way hides it; in
branches every place can be visited, and one that was never mentioned is fresh.

The forest itself is treated as one object whose properties are the roots, so
that roots and properties obey the same statements.

Main results:

- Definition `Param.descend?`: the node that a path leads to.
- Definition `Branch.descend`: the branch that a path leads to.
- Theorem `Branch.properties_descend_insertBelow`: what one entry does to the
  properties of every place.
- Theorem `Branch.child_descend_insertBelow`: what one entry does to every named
  place.
- Theorem `Branch.descend?_prune`: which places of a branch can be seen.
- Theorem `Branch.prune_ofForest_ofEntries`: the trees of a draft are the visible
  part of the branches of its entries.
-/

namespace DocComment

/-! ## Places of trees -/

namespace Param

/-- The trees of a forest as the properties of one object. -/
def ofForest (forest : List Param) : Param where
  title := []
  type := .object
  description := []
  items := none
  properties := forest.map fun root => (root.title, root)

/-- The node that one step leads to. -/
def step? (node : Param) (step : Step) : Option Param :=
  (node.property? step.name).bind fun property =>
    if step.marked then property.items else some property

/-- The node that a path leads to. -/
def descend? : Param → FieldPath → Option Param
  | node, [] => some node
  | node, step :: rest => (node.step? step).bind fun next => next.descend? rest

/-- The properties of a forest as one tree stand under their titles. -/
theorem map_fst_properties_ofForest (forest : List Param) :
    (ofForest forest).properties.map Prod.fst = forest.map Param.title := by
  simp [ofForest, Function.comp_def]

/-- Forests that give the same tree are equal. -/
theorem ofForest_inj {forest forest' : List Param} (h : ofForest forest = ofForest forest') :
    forest = forest' := by
  have hproperties := congrArg (fun node => node.properties.map Prod.snd) h
  simpa [ofForest, Function.comp_def] using hproperties

end Param

/-- The steps of a path below a place, when the path leads there with the same
marks. -/
def FieldPath.below? : FieldPath → FieldPath → Option FieldPath
  | [], path => some path
  | _ :: _, [] => none
  | step :: place, step' :: path => if step = step' then below? place path else none

/-- What lies below a place on a path is the rest of the path. -/
theorem FieldPath.below?_eq_some_iff {place path rest : FieldPath} :
    below? place path = some rest ↔ path = place ++ rest := by
  fun_induction below? place path with
  | case1 path => simp
  | case2 step place => simp
  | case3 place step path ih => simp [ih]
  | case4 step place step' path hne =>
      simp only [reduceCtorEq, List.cons_append, List.cons.injEq, false_iff, not_and]
      intro heq
      exact absurd heq.symm hne

namespace Branch

/-! ## Places of branches -/

/-- The branches of a forest as the properties of one object. -/
def ofForest (branches : List (Text × Branch)) : Branch where
  title := []
  type := .object
  description := []
  items := none
  properties := branches

/-- The names of the properties in their order. -/
def names (branch : Branch) : List Text :=
  branch.properties.map Prod.fst

/-- The property with a name, fresh when there is none. -/
def child (branch : Branch) (name : Text) : Branch :=
  (branch.properties.lookup name).getD (fresh name)

/-- The branch that one step leads to. -/
def enter (branch : Branch) (step : Step) : Branch :=
  if step.marked then (branch.child step.name).itemsOrFresh else branch.child step.name

/-- The branch that a path leads to. -/
def descend : Branch → FieldPath → Branch
  | branch, [] => branch
  | branch, step :: rest => (branch.enter step).descend rest

/-- Insert an entry among the properties of a branch. -/
def insertBelow (entry : ParamEntry) (path : FieldPath) (branch : Branch) : Branch :=
  { branch with properties := insertAt entry path branch.properties }

/-- One more entry is inserted into the tree of the entries before it. -/
theorem ofForest_ofEntries_concat (entries : List ParamEntry) (entry : ParamEntry) :
    ofForest (ofEntries (entries ++ [entry])) =
      insertBelow entry entry.path (ofForest (ofEntries entries)) := by
  simp [ofEntries, insertBelow, ofForest, insert]

/-- The way to a place goes on from the places before it. -/
theorem descend_append (branch : Branch) (place rest : FieldPath) :
    branch.descend (place ++ rest) = (branch.descend place).descend rest := by
  induction place generalizing branch with
  | nil => rfl
  | cons step place ih => exact ih (branch.enter step)

/-- What lies below a branch depends on its properties only. -/
theorem child_congr {branch branch' : Branch} (h : branch.properties = branch'.properties)
    (name : Text) : branch.child name = branch'.child name := by
  simp only [child, h]

/-- Entering a branch depends on its properties only. -/
theorem enter_congr {branch branch' : Branch} (h : branch.properties = branch'.properties)
    (step : Step) : branch.enter step = branch'.enter step := by
  simp only [enter, child_congr h]

/-- The properties below a branch depend on its properties only. -/
theorem properties_descend_congr {branch branch' : Branch}
    (h : branch.properties = branch'.properties) (place : FieldPath) :
    (branch.descend place).properties = (branch'.descend place).properties := by
  cases place with
  | nil => exact h
  | cons step place => simp only [descend, enter_congr h]

/-- A branch without properties has fresh children only. -/
theorem child_of_properties_eq_nil {branch : Branch} (h : branch.properties = []) (name : Text) :
    branch.child name = fresh name := by
  simp [child, h]

/-- Nothing lies below a branch without properties. -/
theorem properties_descend_eq_nil {branch : Branch} (h : branch.properties = [])
    (place : FieldPath) : (branch.descend place).properties = [] := by
  induction place generalizing branch with
  | nil => exact h
  | cons step place ih =>
      refine ih ?_
      rw [enter, child_of_properties_eq_nil h]
      split <;> rfl

/-- A property is found exactly when its name is there. -/
theorem lookup_isSome_iff_mem_names (branch : Branch) (name : Text) :
    (branch.properties.lookup name).isSome = true ↔ name ∈ branch.names := by
  simp [names, List.lookup_isSome_iff]

/-- A property whose name is there is the child with this name. -/
theorem lookup_eq_some_child {branch : Branch} {name : Text} (h : name ∈ branch.names) :
    branch.properties.lookup name = some (branch.child name) := by
  rcases Option.isSome_iff_exists.mp ((lookup_isSome_iff_mem_names branch name).mpr h) with
    ⟨property, hproperty⟩
  simp [child, hproperty]

/-- The child with a name that is there is a property. -/
theorem mem_properties_child {branch : Branch} {name : Text} (h : name ∈ branch.names) :
    (name, branch.child name) ∈ branch.properties := by
  rcases List.lookup_eq_some_iff.mp (lookup_eq_some_child h) with ⟨before, after, hsplit, _⟩
  rw [hsplit]
  simp

/-- Nothing is found under a name that is not there. -/
theorem lookup_eq_none {branch : Branch} {name : Text} (h : name ∉ branch.names) :
    branch.properties.lookup name = none := by
  rw [← Option.not_isSome_iff_eq_none, lookup_isSome_iff_mem_names]
  exact h

/-! ## What one entry does -/

/-- An insertion changes the lookup of its own name only. -/
theorem lookup_upsert (name key : Text) (change : Branch → Branch)
    (branches : List (Text × Branch)) :
    (upsert name change branches).lookup key =
      if key = name then some (change ((branches.lookup name).getD (fresh name)))
      else branches.lookup key := by
  fun_induction upsert name change branches with
  | case1 =>
      by_cases hkey : key = name
      · simp [hkey]
      · simp [hkey, List.lookup_cons, beq_false_of_ne hkey]
  | case2 branch rest =>
      by_cases hkey : key = name
      · simp [hkey]
      · simp [hkey, List.lookup_cons, beq_false_of_ne hkey]
  | case3 first branch rest hne ih =>
      by_cases hfirst : key = first
      · subst hfirst
        simp [hne]
      · have hne' : name ≠ first := fun heq => hne heq.symm
        simp only [List.lookup_cons, beq_false_of_ne hfirst, beq_false_of_ne hne', ih]

/-- An entry changes the property that its first step names. -/
theorem child_insertBelow (entry : ParamEntry) (first : Step) (rest : FieldPath)
    (branch : Branch) (name : Text) :
    (insertBelow entry (first :: rest) branch).child name =
      if name = first.name then visit entry first rest (branch.child name)
      else branch.child name := by
  simp only [child, insertBelow, insertAt_cons, lookup_upsert]
  split
  · rename_i heq
    subst heq
    rfl
  · rfl

/-- An insertion adds its first name at the end, unless the name is there. -/
theorem names_insertAt (entry : ParamEntry) (first : Step) (rest : FieldPath)
    (branches : List (Text × Branch)) :
    (insertAt entry (first :: rest) branches).map Prod.fst =
      if first.name ∈ branches.map Prod.fst then branches.map Prod.fst
      else branches.map Prod.fst ++ [first.name] := by
  rw [insertAt_cons]
  split
  · rename_i hmem
    exact map_fst_upsert_of_mem _ hmem
  · rename_i hmem
    simp [upsert_of_notMem _ hmem]

@[simp]
theorem properties_applyType (type : TypeExpr) (branch : Branch) :
    (applyType type branch).properties = branch.properties := by
  cases type <;> rfl

@[simp]
theorem properties_itemsOrFresh_applyType (type : TypeExpr) (branch : Branch) :
    (applyType type branch).itemsOrFresh.properties = branch.itemsOrFresh.properties := by
  cases type with
  | named name => rfl
  | anyArray => rfl
  | arrayOf element => exact properties_applyType element _

/-- Writing an entry into a branch keeps the properties of the branch. -/
theorem properties_define (entry : ParamEntry) (marked : Bool) (branch : Branch) :
    (define entry marked branch).properties = branch.properties := by
  rw [define_eq]
  split
  · rfl
  · exact properties_applyType _ _

@[simp]
theorem description_define (entry : ParamEntry) (marked : Bool) (branch : Branch) :
    (define entry marked branch).description = entry.description := by
  rw [define_eq]
  split
  · rfl
  · exact description_applyType _ _

/-- Writing an entry into a branch keeps the properties of its items. -/
theorem properties_itemsOrFresh_define (entry : ParamEntry) (marked : Bool) (branch : Branch) :
    (define entry marked branch).itemsOrFresh.properties = branch.itemsOrFresh.properties := by
  rw [define_eq]
  split
  · rfl
  · exact properties_itemsOrFresh_applyType _ _

/-- An entry that passes a place makes it an object, or its items one, and goes on
below. -/
theorem visit_of_ne_nil (entry : ParamEntry) (step : Step) {rest : FieldPath} (h : rest ≠ [])
    (branch : Branch) :
    visit entry step rest branch =
      if step.marked then
        { branch with
          type := .array
          items := some { insertBelow entry rest branch.itemsOrFresh with type := .object } }
      else { insertBelow entry rest branch with type := .object } := by
  cases rest with
  | nil => exact absurd rfl h
  | cons next rest => rfl

/-- An entry that visits a place without a mark goes on among its properties. -/
theorem properties_visit (entry : ParamEntry) (step : Step) (rest : FieldPath) (branch : Branch) :
    (visit entry step rest branch).properties =
      if step.marked then branch.properties else insertAt entry rest branch.properties := by
  cases rest with
  | nil => simp [visit, properties_define, insertAt]
  | cons next rest =>
      simp only [visit]
      split <;> rfl

/-- An entry that visits a place with a mark goes on among the properties of its
items. -/
theorem properties_itemsOrFresh_visit (entry : ParamEntry) (step : Step) (rest : FieldPath)
    (branch : Branch) :
    (visit entry step rest branch).itemsOrFresh.properties =
      if step.marked then insertAt entry rest branch.itemsOrFresh.properties
      else branch.itemsOrFresh.properties := by
  cases rest with
  | nil => simp [visit, properties_itemsOrFresh_define, insertAt]
  | cons next rest =>
      simp only [visit]
      split <;> rfl

/-- An entry goes on below the branch that its first step leads to, and leaves
alone what lies below every other branch. -/
theorem properties_enter_insertBelow (entry : ParamEntry) (first : Step) (rest : FieldPath)
    (branch : Branch) (step : Step) :
    ((insertBelow entry (first :: rest) branch).enter step).properties =
      if step = first then insertAt entry rest (branch.enter step).properties
      else (branch.enter step).properties := by
  rcases first with ⟨name, marked⟩
  rcases step with ⟨name', marked'⟩
  simp only [enter, child_insertBelow, Step.mk.injEq]
  by_cases hname : name' = name
  · cases marked <;> cases marked' <;>
      simp [hname, properties_visit, properties_itemsOrFresh_visit]
  · simp [hname]

/-- What one entry does to the properties of every place: it goes on below the
places on its path and leaves the properties of all others alone. -/
theorem properties_descend_insertBelow (entry : ParamEntry) (path : FieldPath) (branch : Branch)
    (place : FieldPath) :
    ((insertBelow entry path branch).descend place).properties =
      match place.below? path with
      | some rest => insertAt entry rest (branch.descend place).properties
      | none => (branch.descend place).properties := by
  induction place generalizing branch path with
  | nil => rfl
  | cons step place ih =>
      cases path with
      | nil => rfl
      | cons first rest =>
          have henter := properties_enter_insertBelow entry first rest branch step
          simp only [descend, FieldPath.below?]
          by_cases hstep : step = first
          · rw [if_pos hstep] at henter ⊢
            rw [← ih rest (branch.enter step)]
            exact properties_descend_congr henter place
          · rw [if_neg hstep] at henter ⊢
            exact properties_descend_congr henter place

/-- What one entry does to every named place: it visits the places that one of
its steps names and leaves all others alone. -/
theorem child_descend_insertBelow (entry : ParamEntry) (path : FieldPath) (branch : Branch)
    (place : FieldPath) (name : Text) :
    ((insertBelow entry path branch).descend place).child name =
      match place.below? path with
      | some (step :: rest) =>
        if name = step.name then visit entry step rest ((branch.descend place).child name)
        else (branch.descend place).child name
      | _ => (branch.descend place).child name := by
  have hproperties := properties_descend_insertBelow entry path branch place
  cases hbelow : place.below? path with
  | none =>
      rw [hbelow] at hproperties
      exact child_congr hproperties name
  | some below =>
      rw [hbelow] at hproperties
      cases below with
      | nil => exact child_congr hproperties name
      | cons step rest =>
          refine Eq.trans ?_ (child_insertBelow entry step rest (branch.descend place) name)
          exact child_congr hproperties name

/-! ## Places that are there and places that can be seen -/

/-- The path leads to something that was mentioned. -/
def Present : Branch → FieldPath → Prop
  | _, [] => True
  | branch, step :: rest =>
    step.name ∈ branch.names ∧
      (step.marked = true → (branch.child step.name).items.isSome = true) ∧
      Present (branch.enter step) rest

/-- No type on the way hides what the path leads to. -/
def Open : Branch → FieldPath → Prop
  | _, [] => True
  | branch, step :: rest =>
    branch.type = .object ∧
      (step.marked = true → (branch.child step.name).type = .array) ∧
      Open (branch.enter step) rest

/-- What is present below a branch depends on its properties only. -/
theorem present_congr {branch branch' : Branch} (h : branch.properties = branch'.properties)
    (place : FieldPath) : Present branch place ↔ Present branch' place := by
  cases place with
  | nil => rfl
  | cons step place => simp only [Present, names, child_congr h, enter_congr h, h]

/-- A branch with items keeps items when an entry visits it. -/
theorem isSome_items_visit (entry : ParamEntry) (step : Step) (rest : FieldPath) {branch : Branch}
    (h : branch.items.isSome = true) : (visit entry step rest branch).items.isSome = true := by
  cases rest with
  | nil =>
      rw [visit, define_eq]
      split
      · exact h
      · cases TypeExpr.atLeaf entry.type step.marked <;> simp [applyType, h]
  | cons next rest =>
      simp only [visit]
      split
      · rfl
      · exact h

/-- What was mentioned stays. -/
theorem Present.insertBelow {branch : Branch} {place : FieldPath} (h : Present branch place)
    (entry : ParamEntry) (path : FieldPath) :
    Present (Branch.insertBelow entry path branch) place := by
  induction place generalizing branch path with
  | nil => trivial
  | cons step place ih =>
      cases path with
      | nil => exact h
      | cons first rest =>
          rcases h with ⟨hname, hitems, hrest⟩
          refine ⟨?_, ?_, ?_⟩
          · rw [names, Branch.insertBelow, names_insertAt]
            split
            · exact hname
            · exact List.mem_append_left _ hname
          · intro hmarked
            rw [child_insertBelow]
            split
            · exact isSome_items_visit entry first rest (hitems hmarked)
            · exact hitems hmarked
          · have henter := properties_enter_insertBelow entry first rest branch step
            by_cases hstep : step = first
            · rw [if_pos hstep] at henter
              exact (present_congr henter place).mpr (ih hrest rest)
            · rw [if_neg hstep] at henter
              exact (present_congr henter place).mpr hrest

/-- The places that the steps of an entry name are there afterwards. -/
theorem present_insertBelow (entry : ParamEntry) (container : FieldPath) (step : Step)
    (rest : FieldPath) (branch : Branch) :
    Present (insertBelow entry (container ++ step :: rest) branch)
      (container ++ [⟨step.name, false⟩]) := by
  have hmem : ∀ (first : Step) (rest : FieldPath) (branch : Branch),
      first.name ∈ (insertBelow entry (first :: rest) branch).names := by
    intro first rest branch
    rw [names, insertBelow, names_insertAt]
    split
    · assumption
    · simp
  induction container generalizing branch with
  | nil => exact ⟨hmem step rest branch, by simp, trivial⟩
  | cons first container ih =>
      refine ⟨hmem first _ branch, ?_, ?_⟩
      · intro hmarked
        rw [List.cons_append, child_insertBelow, if_pos rfl]
        -- More steps follow, so the items are made to hold them.
        cases hsteps : container ++ step :: rest with
        | nil => simp at hsteps
        | cons next steps => simp [visit, hmarked]
      · have henter := properties_enter_insertBelow entry first (container ++ step :: rest)
          branch first
        rw [if_pos rfl] at henter
        exact (present_congr henter _).mpr (ih (branch.enter first))

/-- Above an open place stand objects. -/
theorem Open.type_eq {branch : Branch} {place : FieldPath} (h : Open branch place)
    (hne : place ≠ []) : branch.type = .object := by
  cases place with
  | nil => exact absurd rfl hne
  | cons step place => exact h.1

/-- Looking up a property and pruning it can be exchanged. -/
theorem lookup_map_prune (name : Text) (properties : List (Text × Branch)) :
    (properties.map fun property => (property.1, prune property.2)).lookup name =
      (properties.lookup name).map prune := by
  induction properties with
  | nil => rfl
  | cons first rest ih =>
      rcases first with ⟨key, branch⟩
      simp only [List.map_cons, List.lookup_cons, ih]
      split <;> rfl

/-- The properties of an object can be seen. -/
theorem property?_prune (branch : Branch) (name : Text) :
    (prune branch).property? name =
      if branch.type = .object ∧ name ∈ branch.names then some (prune (branch.child name))
      else none := by
  rw [Param.property?, prune_eq]
  by_cases htype : branch.type = .object
  · simp only [htype, if_true, true_and, lookup_map_prune]
    split
    · rename_i hname
      rw [lookup_eq_some_child hname, Option.map_some]
    · rename_i hname
      rw [lookup_eq_none hname, Option.map_none]
  · simp [htype]

/-- The items of an array can be seen. -/
theorem items_prune (branch : Branch) :
    (prune branch).items =
      if branch.type = .array ∧ branch.items.isSome = true then some (prune branch.itemsOrFresh)
      else none := by
  rw [prune_eq]
  by_cases htype : branch.type = .array
  · cases hitems : branch.items with
    | none => simp [htype]
    | some item => simp [htype, itemsOrFresh, hitems]
  · simp [htype]

/-- One step in the visible part of a branch. -/
theorem step?_prune {branch : Branch} {step : Step} {next : Param} :
    (prune branch).step? step = some next ↔
      (branch.type = .object ∧ step.name ∈ branch.names ∧
        (step.marked = true → (branch.child step.name).type = .array ∧
          (branch.child step.name).items.isSome = true)) ∧
        prune (branch.enter step) = next := by
  rw [Param.step?, property?_prune]
  by_cases hproperty : branch.type = .object ∧ step.name ∈ branch.names
  · rw [if_pos hproperty, Option.bind_some]
    cases hmarked : step.marked with
    | false => simp [hproperty, enter, hmarked]
    | true => simp [hproperty, enter, hmarked, items_prune]
  · rw [if_neg hproperty]
    constructor
    · intro h
      simp at h
    · rintro ⟨⟨htype, hname, _⟩, _⟩
      exact absurd ⟨htype, hname⟩ hproperty

/-- A place can be seen when it is there and no type on the way hides it. -/
theorem descend?_prune {branch : Branch} {place : FieldPath} {node : Param} :
    (prune branch).descend? place = some node ↔
      (Present branch place ∧ Open branch place) ∧ prune (branch.descend place) = node := by
  induction place generalizing branch with
  | nil => simp [Param.descend?, Present, Open, descend]
  | cons step place ih =>
      simp only [Param.descend?, Option.bind_eq_some_iff, step?_prune, Present, Open, descend]
      constructor
      · rintro ⟨_, ⟨⟨htype, hname, hmarked⟩, rfl⟩, hrest⟩
        rcases ih.mp hrest with ⟨⟨hpresent, hopen⟩, rfl⟩
        exact ⟨⟨⟨hname, fun h => (hmarked h).2, hpresent⟩, htype, fun h => (hmarked h).1, hopen⟩,
          rfl⟩
      · rintro ⟨⟨⟨hname, hitems, hpresent⟩, htype, harray, hopen⟩, rfl⟩
        exact ⟨_, ⟨⟨htype, hname, fun h => ⟨harray h, hitems h⟩⟩, rfl⟩,
          ih.mpr ⟨⟨hpresent, hopen⟩, rfl⟩⟩

/-- The visible part of tidy branches is the forest that they stand for. -/
theorem TidyList.prune_ofForest {branches : List (Text × Branch)} (h : TidyList branches) :
    prune (ofForest branches) = Param.ofForest (forest branches) := by
  rw [prune_eq, Param.ofForest, h.map_forest, pruneProperties_eq_map]
  simp [ofForest]

/-- The trees of a draft are the visible part of the branches of its entries. -/
theorem prune_ofForest_ofEntries {entries : List ParamEntry}
    (hpaths : ∀ entry ∈ entries, entry.path.Readable) :
    prune (ofForest (ofEntries entries)) = Param.ofForest (Draft.ofEntries entries).forest := by
  have hnamed : ∀ entry ∈ entries, entry.path.Named := fun entry hentry =>
    (hpaths entry hentry).named
  rw [(tidyList_ofEntries hnamed).prune_ofForest, (Draft.represents_ofEntries hnamed).forest_eq]

end Branch
end DocComment
