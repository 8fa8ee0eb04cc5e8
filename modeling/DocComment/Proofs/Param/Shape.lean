import DocComment.Proofs.Param.Refinement

/-!
# The shape of parameter trees

What the parameter trees of any list of entries have in common: items only in
arrays, properties only in objects, distinct keys that repeat the titles, and
items without a title and a description.  A branch may break the first two rules
for a while, so the invariant of branches has only the others; pruning supplies
the rest.

Main results:

- Definition `Branch.Tidy`: the invariant of branches.
- Theorem `Branch.tidyList_ofEntries`: the branches of every list of entries keep
  the invariant.
- Definition `Param.Fits`: the rules that one node has to keep.
- Theorem `Branch.Tidy.fits_of_within`: every node of a pruned branch keeps the
  rules.
-/

namespace DocComment
namespace Branch

/-! ## The invariant of branches -/

/-- The names of a list of branches are distinct identifiers, and each branch
has its name for a title. -/
structure Labelled (branches : List (Text × Branch)) : Prop where
  nodup : (branches.map Prod.fst).Nodup
  identifier : ∀ name branch, (name, branch) ∈ branches → Text.isIdentifier name = true
  title_eq : ∀ name branch, (name, branch) ∈ branches → branch.title = name

/-- Throughout the branch, properties are labelled, and items have neither a
title nor a description. -/
inductive Tidy : Branch → Prop
  | node {branch : Branch}
      (hbare : ∀ item, branch.items = some item → item.title = [] ∧ item.description = [])
      (hitems : ∀ item, branch.items = some item → Tidy item)
      (hlabels : Labelled branch.properties)
      (hproperties : ∀ name property, (name, property) ∈ branch.properties → Tidy property) :
      Tidy branch

/-- A labelled list of tidy branches. -/
structure TidyList (branches : List (Text × Branch)) : Prop where
  labels : Labelled branches
  tidy : ∀ name branch, (name, branch) ∈ branches → branch.Tidy

theorem tidyList_nil : TidyList [] :=
  ⟨⟨by simp, by simp, by simp⟩, by simp⟩

/-- The properties of a tidy branch are tidy. -/
theorem Tidy.tidyList {branch : Branch} (h : branch.Tidy) : TidyList branch.properties := by
  cases h with
  | node _ _ hlabels hproperties => exact ⟨hlabels, hproperties⟩

/-- The items of a tidy branch have neither title nor description. -/
theorem Tidy.bare {branch item : Branch} (h : branch.Tidy) (hitem : branch.items = some item) :
    item.title = [] ∧ item.description = [] := by
  cases h with
  | node hbare _ _ _ => exact hbare item hitem

/-- The items of a tidy branch are tidy. -/
theorem Tidy.of_items {branch item : Branch} (h : branch.Tidy)
    (hitem : branch.items = some item) : item.Tidy := by
  cases h with
  | node _ hitems _ _ => exact hitems item hitem

theorem tidy_fresh (title : Text) : (fresh title).Tidy :=
  .node (by simp [fresh]) (by simp [fresh]) tidyList_nil.labels (by simp [fresh])

/-- The type and the description of a branch, and its title, do not matter. -/
theorem Tidy.congr {branch branch' : Branch} (h : branch.Tidy)
    (hitems : branch'.items = branch.items) (hproperties : branch'.properties = branch.properties) :
    branch'.Tidy := by
  refine .node ?_ ?_ ?_ ?_
  · intro item hitem
    exact h.bare (hitems ▸ hitem)
  · intro item hitem
    exact h.of_items (hitems ▸ hitem)
  · rw [hproperties]
    exact h.tidyList.labels
  · rw [hproperties]
    exact h.tidyList.tidy

/-- Items of a tidy branch, fresh ones included, are tidy and bare. -/
theorem Tidy.itemsOrFresh {branch : Branch} (h : branch.Tidy) :
    branch.itemsOrFresh.Tidy ∧ branch.itemsOrFresh.title = [] ∧
      branch.itemsOrFresh.description = [] := by
  unfold Branch.itemsOrFresh
  cases hitems : branch.items with
  | none => exact ⟨tidy_fresh [], rfl, rfl⟩
  | some item => exact ⟨h.of_items hitems, h.bare hitems⟩

/-- Replacing the items of a tidy branch by tidy and bare ones. -/
theorem Tidy.with_items {branch branch' item : Branch} (h : branch.Tidy)
    (hitems : branch'.items = some item) (hproperties : branch'.properties = branch.properties)
    (hitem : item.Tidy) (hbare : item.title = [] ∧ item.description = []) : branch'.Tidy := by
  refine .node ?_ ?_ ?_ ?_
  · intro item' hitem'
    rw [hitems] at hitem'
    cases hitem'
    exact hbare
  · intro item' hitem'
    rw [hitems] at hitem'
    cases hitem'
    exact hitem
  · rw [hproperties]
    exact h.tidyList.labels
  · rw [hproperties]
    exact h.tidyList.tidy

/-- Replacing the properties of a tidy branch by a tidy list. -/
theorem Tidy.with_properties {branch branch' : Branch} (h : branch.Tidy)
    (hitems : branch'.items = branch.items) (hproperties : TidyList branch'.properties) :
    branch'.Tidy := by
  refine .node ?_ ?_ hproperties.labels hproperties.tidy
  · intro item hitem
    exact h.bare (hitems ▸ hitem)
  · intro item hitem
    exact h.of_items (hitems ▸ hitem)

/-! ## Insertion keeps the invariant -/

@[simp]
theorem title_applyType (type : TypeExpr) (branch : Branch) :
    (applyType type branch).title = branch.title := by
  cases type <;> rfl

@[simp]
theorem description_applyType (type : TypeExpr) (branch : Branch) :
    (applyType type branch).description = branch.description := by
  cases type <;> rfl

/-- Giving a type keeps a branch tidy. -/
theorem Tidy.applyType {branch : Branch} (h : branch.Tidy) (type : TypeExpr) :
    (applyType type branch).Tidy := by
  induction type generalizing branch with
  | named name => exact h.congr rfl rfl
  | anyArray => exact h.congr rfl rfl
  | arrayOf element ih =>
      rcases h.itemsOrFresh with ⟨htidy, htitle, hdescription⟩
      exact h.with_items rfl rfl (ih htidy) (by simp [htitle, hdescription])

@[simp]
theorem title_define (entry : ParamEntry) (marked : Bool) (branch : Branch) :
    (define entry marked branch).title = branch.title := by
  simp only [define]
  split
  · rfl
  · split
    · rfl
    · exact title_applyType _ _

/-- Writing an entry keeps a branch tidy. -/
theorem Tidy.define {branch : Branch} (h : branch.Tidy) (entry : ParamEntry) (marked : Bool) :
    (define entry marked branch).Tidy := by
  have hdescribed : ({ branch with description := entry.description } : Branch).Tidy :=
    h.congr rfl rfl
  simp only [Branch.define]
  split
  · rcases hdescribed.itemsOrFresh with ⟨htidy, htitle, hdescription⟩
    exact hdescribed.with_items rfl rfl (htidy.applyType _) (by simp [htitle, hdescription])
  · split
    · exact hdescribed.congr rfl rfl
    · exact hdescribed.applyType _

/-- An insertion keeps names different. -/
theorem map_fst_upsert_nodup {name : Text} (change : Branch → Branch)
    {branches : List (Text × Branch)} (h : (branches.map Prod.fst).Nodup) :
    ((upsert name change branches).map Prod.fst).Nodup := by
  by_cases hmem : name ∈ branches.map Prod.fst
  · rwa [map_fst_upsert_of_mem change hmem]
  · rw [upsert_of_notMem change hmem, List.map_append, List.nodup_append]
    refine ⟨h, by simp, ?_⟩
    intro name' hname' _ hlast
    rintro rfl
    rw [List.mem_singleton.mp hlast] at hname'
    exact hmem hname'

/-- A branch of the changed list is an old one under its old name, or the change
of an old or fresh one. -/
theorem mem_upsert {name key : Text} {change : Branch → Branch} {branch : Branch}
    {branches : List (Text × Branch)} (h : (key, branch) ∈ upsert name change branches) :
    (key, branch) ∈ branches ∨
      (key = name ∧ ∃ old, ((name, old) ∈ branches ∨ old = fresh name) ∧ branch = change old) := by
  fun_induction upsert name change branches with
  | case1 =>
      cases List.mem_singleton.mp h
      exact .inr ⟨rfl, fresh _, .inr rfl, rfl⟩
  | case2 old rest =>
      rcases List.mem_cons.mp h with heq | hmem
      · cases heq
        exact .inr ⟨rfl, old, .inl List.mem_cons_self, rfl⟩
      · exact .inl (List.mem_cons_of_mem _ hmem)
  | case3 first old rest hne ih =>
      rcases List.mem_cons.mp h with heq | hmem
      · cases heq
        exact .inl List.mem_cons_self
      · rcases ih hmem with hold | ⟨hkey, old', hold, hchange⟩
        · exact .inl (List.mem_cons_of_mem _ hold)
        · exact .inr ⟨hkey, old', hold.imp_left (List.mem_cons_of_mem _), hchange⟩

/-- Changing one branch of a tidy list by a change that keeps titles and
tidiness. -/
theorem TidyList.upsert {branches : List (Text × Branch)} (h : TidyList branches) {name : Text}
    (hname : Text.isIdentifier name = true) {change : Branch → Branch}
    (htitle : ∀ branch, (change branch).title = branch.title)
    (htidy : ∀ branch, branch.Tidy → (change branch).Tidy) :
    TidyList (upsert name change branches) := by
  refine ⟨⟨map_fst_upsert_nodup change h.labels.nodup, ?_, ?_⟩, ?_⟩
  · intro key branch hmem
    rcases mem_upsert hmem with hold | ⟨rfl, _⟩
    · exact h.labels.identifier key branch hold
    · exact hname
  · intro key branch hmem
    rcases mem_upsert hmem with hold | ⟨rfl, old, hold | rfl, rfl⟩
    · exact h.labels.title_eq key branch hold
    · rw [htitle]
      exact h.labels.title_eq key old hold
    · rw [htitle]
      rfl
  · intro key branch hmem
    rcases mem_upsert hmem with hold | ⟨rfl, old, hold | rfl, rfl⟩
    · exact h.tidy key branch hold
    · exact htidy old (h.tidy key old hold)
    · exact htidy _ (tidy_fresh key)

@[simp]
theorem title_visit (entry : ParamEntry) (step : Step) (rest : FieldPath) (branch : Branch) :
    (visit entry step rest branch).title = branch.title := by
  cases rest with
  | nil => exact title_define entry step.marked branch
  | cons next rest =>
      simp only [visit]
      split <;> rfl

/-- Inserting an entry keeps a list tidy. -/
theorem TidyList.insertAt (entry : ParamEntry) {path : FieldPath} (hpath : path.Named)
    {branches : List (Text × Branch)} (h : TidyList branches) :
    TidyList (insertAt entry path branches) := by
  induction path generalizing branches with
  | nil => exact h
  | cons step rest ih =>
      have hrest : FieldPath.Named rest := fun step' hstep' =>
        hpath step' (List.mem_cons_of_mem _ hstep')
      rw [insertAt_cons]
      refine h.upsert (hpath step List.mem_cons_self) (title_visit entry step rest) ?_
      intro branch hbranch
      cases rest with
      | nil => exact hbranch.define entry step.marked
      | cons next rest =>
          simp only [visit]
          split
          · rcases hbranch.itemsOrFresh with ⟨htidy, hbare⟩
            exact hbranch.with_items rfl rfl
              (htidy.with_properties rfl (ih hrest htidy.tidyList)) hbare
          · exact hbranch.with_properties rfl (ih hrest hbranch.tidyList)

/-- The branches of every list of entries are tidy. -/
theorem tidyList_ofEntries {entries : List ParamEntry}
    (hpaths : ∀ entry ∈ entries, entry.path.Named) : TidyList (ofEntries entries) := by
  have hrun : ∀ (entries : List ParamEntry) (branches : List (Text × Branch)),
      (∀ entry ∈ entries, entry.path.Named) → TidyList branches →
        TidyList (entries.foldl insert branches) := by
    intro entries
    induction entries with
    | nil =>
        intro branches _ h
        exact h
    | cons entry entries ih =>
        intro branches hnamed h
        refine ih _ (fun entry' hmem => hnamed entry' (List.mem_cons_of_mem _ hmem)) ?_
        exact h.insertAt entry (hnamed entry List.mem_cons_self)
  exact hrun entries [] hpaths tidyList_nil

end Branch

/-! ## The rules for one node -/

namespace Param

/-- The nodes of a parameter tree: the tree itself, and the items and the
properties of its nodes. -/
inductive Within (root : Param) : Param → Prop
  | self : Within root root
  | items {node item : Param} (hnode : Within root node) (hitem : node.items = some item) :
      Within root item
  | property {node property : Param} {key : Text} (hnode : Within root node)
      (hmem : (key, property) ∈ node.properties) : Within root property

/-- What lies within a node lies within every tree around the node. -/
theorem Within.trans {root node inner : Param} (h : root.Within node) (hinner : node.Within inner) :
    root.Within inner := by
  induction hinner with
  | self => exact h
  | items _ hitem ih => exact ih.items hitem
  | property _ hmem ih => exact ih.property hmem

/-- The rules that a node of a parameter tree keeps. -/
structure Fits (node : Param) : Prop where
  items_only_in_arrays : node.items.isSome = true → node.type = .array
  properties_only_in_objects : node.properties ≠ [] → node.type = .object
  never_both : node.items = none ∨ node.properties = []
  keys_nodup : (node.properties.map Prod.fst).Nodup
  key_eq_title : ∀ key property, (key, property) ∈ node.properties → property.title = key
  identifier : ∀ key property, (key, property) ∈ node.properties →
    Text.isIdentifier property.title = true
  items_bare : ∀ item, node.items = some item → item.title = [] ∧ item.description = []

/-- With distinct keys, a key leads to what stands under it. -/
theorem lookup_eq_some_of_mem {properties : List (Text × Param)}
    (hnodup : (properties.map Prod.fst).Nodup) {key : Text} {property : Param}
    (hmem : (key, property) ∈ properties) : properties.lookup key = some property := by
  induction properties with
  | nil => simp at hmem
  | cons first rest ih =>
      rcases first with ⟨key', first⟩
      simp only [List.map_cons, List.nodup_cons] at hnodup
      rcases List.mem_cons.mp hmem with heq | hrest
      · cases heq
        simp
      · have hne : key ≠ key' := by
          rintro rfl
          exact hnodup.1 (List.mem_map_of_mem hrest)
        rw [List.lookup_cons, beq_false_of_ne hne]
        exact ih hnodup.2 hrest

/-- A key of a node leads to the property that stands under it. -/
theorem Fits.property?_eq {node : Param} (h : node.Fits) {key : Text} {property : Param}
    (hmem : (key, property) ∈ node.properties) : node.property? key = some property :=
  lookup_eq_some_of_mem h.keys_nodup hmem

end Param

namespace Branch

/-- Items that are left after pruning are the pruned items of an array. -/
theorem items_prune_eq_some {branch : Branch} {item : Param}
    (h : (prune branch).items = some item) :
    branch.type = .array ∧ ∃ item', branch.items = some item' ∧ item = prune item' := by
  rw [prune_eq] at h
  simp only at h
  split at h
  · rename_i htype
    rcases Option.map_eq_some_iff.mp h with ⟨item', hitem', rfl⟩
    exact ⟨htype, item', hitem', rfl⟩
  · contradiction

/-- Properties that are left after pruning are pruned properties of an object. -/
theorem mem_properties_prune {branch : Branch} {key : Text} {property : Param}
    (h : (key, property) ∈ (prune branch).properties) :
    branch.type = .object ∧
      ∃ property', (key, property') ∈ branch.properties ∧ property = prune property' := by
  rw [prune_eq] at h
  simp only at h
  split at h
  · rename_i htype
    rcases List.mem_map.mp h with ⟨⟨_, property'⟩, hmem, heq⟩
    cases heq
    exact ⟨htype, property', hmem, rfl⟩
  · simp at h

@[simp]
theorem title_prune (branch : Branch) : (prune branch).title = branch.title := by
  rw [prune_eq]

@[simp]
theorem type_prune (branch : Branch) : (prune branch).type = branch.type := by
  rw [prune_eq]

@[simp]
theorem description_prune (branch : Branch) : (prune branch).description = branch.description := by
  rw [prune_eq]

/-- Pruning keeps the names of the properties for objects only. -/
theorem map_fst_properties_prune (branch : Branch) :
    (prune branch).properties.map Prod.fst =
      if branch.type = .object then branch.properties.map Prod.fst else [] := by
  rw [prune_eq]
  simp only
  split <;> simp [Function.comp_def]

/-- The visible part of a tidy branch keeps the rules. -/
theorem Tidy.fits {branch : Branch} (h : branch.Tidy) : (prune branch).Fits := by
  have harray : (prune branch).items.isSome = true → branch.type = .array := by
    intro hsome
    rcases Option.isSome_iff_exists.mp hsome with ⟨item, hitem⟩
    exact (items_prune_eq_some hitem).1
  have hobject : (prune branch).properties ≠ [] → branch.type = .object := by
    intro hne
    rcases List.exists_mem_of_ne_nil _ hne with ⟨⟨key, property⟩, hmem⟩
    exact (mem_properties_prune hmem).1
  refine
    { items_only_in_arrays := fun hsome => by rw [type_prune, harray hsome]
      properties_only_in_objects := fun hne => by rw [type_prune, hobject hne]
      never_both := ?_
      keys_nodup := ?_
      key_eq_title := ?_
      identifier := ?_
      items_bare := ?_ }
  · by_cases htype : branch.type = .array
    · right
      rw [prune_eq]
      simp [htype]
    · left
      rw [prune_eq]
      simp [htype]
  · rw [map_fst_properties_prune]
    split
    · exact h.tidyList.labels.nodup
    · exact List.nodup_nil
  · intro key property hmem
    rcases mem_properties_prune hmem with ⟨_, property', hmem', rfl⟩
    rw [title_prune]
    exact h.tidyList.labels.title_eq key property' hmem'
  · intro key property hmem
    rcases mem_properties_prune hmem with ⟨_, property', hmem', rfl⟩
    rw [title_prune, h.tidyList.labels.title_eq key property' hmem']
    exact h.tidyList.labels.identifier key property' hmem'
  · intro item hitem
    rcases items_prune_eq_some hitem with ⟨_, item', hitem', rfl⟩
    rw [title_prune, description_prune]
    exact h.bare hitem'

/-- Every node of a pruned tidy branch keeps the rules. -/
theorem Tidy.fits_of_within {branch : Branch} (h : branch.Tidy) {node : Param}
    (hnode : (prune branch).Within node) : node.Fits := by
  -- Every node is itself the visible part of a tidy branch.
  have hpruned : ∃ branch', node = prune branch' ∧ branch'.Tidy := by
    induction hnode with
    | self => exact ⟨branch, rfl, h⟩
    | items _ hitem ih =>
        rcases ih with ⟨branch', rfl, hbranch'⟩
        rcases items_prune_eq_some hitem with ⟨_, item', hitem', rfl⟩
        exact ⟨item', rfl, hbranch'.of_items hitem'⟩
    | property _ hmem ih =>
        rcases ih with ⟨branch', rfl, hbranch'⟩
        rcases mem_properties_prune hmem with ⟨_, property', hmem', rfl⟩
        exact ⟨property', rfl, hbranch'.tidyList.tidy _ property' hmem'⟩
  rcases hpruned with ⟨branch', rfl, hbranch'⟩
  exact hbranch'.fits

end Branch
end DocComment
