import DocComment.Proofs.Param.Shape

/-!
# Consistent entries in any order

Entries that do not contradict each other may be written in any order: an object
or an array may be described before, between or after its properties.  The trees
are then the same up to the order of the parameters and of the properties of
each node.

The proof works on branches.  Two compatible entries can be inserted in either
order, whatever the branches they are inserted into, and inserting an entry into
branches that differ in their order only gives such branches again.  A
permutation is a chain of such exchanges.

Main results:

- Definition `Param.Alike`: equality up to the order of properties.
- Definition `ParamEntry.Consistent`: entries that do not contradict each other.
- Theorem `Branch.reordered_insertAt_comm`: compatible entries commute.
- Theorem `Draft.forest_ofEntries_perm`: consistent entries give the same trees in
  every order.
-/

namespace DocComment

/-! ## Consistent entries -/

namespace FieldPath

/-- The place that a path leads to: the path without a mark on its last step. -/
def key : FieldPath → FieldPath
  | [] => []
  | [leaf] => [⟨leaf.name, false⟩]
  | step :: next :: rest => step :: key (next :: rest)

/-- The last step carries a mark. -/
def leafMarked : FieldPath → Bool
  | [] => false
  | [leaf] => leaf.marked
  | _ :: next :: rest => leafMarked (next :: rest)

/-- The places that a path passes through before its last step, each with the
mark of the step that passes it. -/
def interior : FieldPath → List (FieldPath × Bool)
  | [] => []
  | [_] => []
  | step :: next :: rest =>
    ([⟨step.name, false⟩], step.marked) ::
      (interior (next :: rest)).map fun place => (step :: place.1, place.2)

end FieldPath

/-- The type that an entry gives to the place of its path: a string without a type
of its own, and an array of its own type when the last step is marked. -/
def TypeExpr.atLeaf (type : Option TypeExpr) (marked : Bool) : TypeExpr :=
  if marked then .arrayOf (type.getD (.named .string)) else type.getD (.named .string)

namespace ParamEntry

/-- The place that an entry describes. -/
def key (entry : ParamEntry) : FieldPath :=
  entry.path.key

/-- The type that an entry gives to its place. -/
def effectiveType (entry : ParamEntry) : TypeExpr :=
  TypeExpr.atLeaf entry.type entry.path.leafMarked

/-- Entries that do not contradict each other: each describes a place of its own,
a place is passed always with or always without a mark, what is passed without a
mark is not described as an array, and what is passed with a mark is described
as an array of objects or of unspecified elements. -/
structure Consistent (entries : List ParamEntry) : Prop where
  keys_nodup : (entries.map key).Nodup
  one_mark : ∀ a ∈ entries, ∀ b ∈ entries, ∀ place ∈ a.path.interior,
    (place.1, !place.2) ∉ b.path.interior
  object_type : ∀ a ∈ entries, ∀ b ∈ entries, (a.key, false) ∈ b.path.interior →
    a.effectiveType.isArray = false
  array_type : ∀ a ∈ entries, ∀ b ∈ entries, (a.key, true) ∈ b.path.interior →
    a.effectiveType = .anyArray ∨ a.effectiveType = .arrayOf (.named .object)

/-- What one entry, with the given steps to go, asks of the steps of another. -/
structure Suits (entry : ParamEntry) (path path' : FieldPath) : Prop where
  one_mark : ∀ place ∈ path.interior, (place.1, !place.2) ∉ path'.interior
  object_type : (path.key, false) ∈ path'.interior →
    (TypeExpr.atLeaf entry.type path.leafMarked).isArray = false
  array_type : (path.key, true) ∈ path'.interior →
    TypeExpr.atLeaf entry.type path.leafMarked = .anyArray ∨
      TypeExpr.atLeaf entry.type path.leafMarked = .arrayOf (.named .object)

/-- Two entries, each with the given steps to go, do not contradict each other. -/
structure Compatible (entry entry' : ParamEntry) (path path' : FieldPath) : Prop where
  key_ne : path.key ≠ path'.key
  suits : entry.Suits path path'
  suits' : entry'.Suits path' path

theorem Compatible.symm {entry entry' : ParamEntry} {path path' : FieldPath}
    (h : Compatible entry entry' path path') : Compatible entry' entry path' path :=
  ⟨h.key_ne.symm, h.suits', h.suits⟩

/-- Consistent entries are compatible in pairs. -/
theorem Consistent.pairwise {entries : List ParamEntry} (h : Consistent entries) :
    entries.Pairwise fun a b => Compatible a b a.path b.path := by
  have hkeys : entries.Pairwise fun a b => a.key ≠ b.key := List.pairwise_map.mp h.keys_nodup
  have hsuits : ∀ a ∈ entries, ∀ b ∈ entries, a.Suits a.path b.path := by
    intro a ha b hb
    exact ⟨h.one_mark a ha b hb, h.object_type a ha b hb, h.array_type a ha b hb⟩
  refine hkeys.imp_of_mem ?_
  intro a b ha hb hne
  exact ⟨hne, hsuits a ha b hb, hsuits b hb a ha⟩

/-! ### Steps in common -/

/-- A place inside of a path stays inside when a step is put in front. -/
theorem mem_interior_cons_cons {step next : Step} {rest key : FieldPath} {marked : Bool}
    (h : (key, marked) ∈ FieldPath.interior (next :: rest)) :
    (step :: key, marked) ∈ FieldPath.interior (step :: next :: rest) := by
  refine List.mem_cons_of_mem _ ?_
  exact List.mem_map.mpr ⟨(key, marked), h, rfl⟩

/-- Paths with the same first step suit each other below it. -/
theorem Suits.tail {entry : ParamEntry} {step next next' : Step} {rest rest' : FieldPath}
    (h : entry.Suits (step :: next :: rest) (step :: next' :: rest')) :
    entry.Suits (next :: rest) (next' :: rest') where
  one_mark place hplace hplace' :=
    h.one_mark (step :: place.1, place.2) (mem_interior_cons_cons hplace)
      (mem_interior_cons_cons hplace')
  object_type hplace := h.object_type (mem_interior_cons_cons hplace)
  array_type hplace := h.array_type (mem_interior_cons_cons hplace)

/-- After a step in common the rests of the paths are compatible. -/
theorem Compatible.tail {entry entry' : ParamEntry} {step next next' : Step}
    {rest rest' : FieldPath}
    (h : Compatible entry entry' (step :: next :: rest) (step :: next' :: rest')) :
    Compatible entry entry' (next :: rest) (next' :: rest') := by
  refine ⟨?_, h.suits.tail, h.suits'.tail⟩
  intro heq
  exact h.key_ne (congrArg (step :: ·) heq)

/-- Two paths that pass a place of one name pass it with the same mark. -/
theorem Suits.marked_eq {entry : ParamEntry} {step step' next next' : Step}
    {rest rest' : FieldPath} (hname : step.name = step'.name)
    (h : entry.Suits (step :: next :: rest) (step' :: next' :: rest')) :
    step.marked = step'.marked := by
  have hother := h.one_mark _ List.mem_cons_self
  have hpassed : ([⟨step'.name, false⟩], step'.marked) ∈
      FieldPath.interior (step' :: next' :: rest') := List.mem_cons_self
  rw [← hname] at hpassed
  cases hmark : step.marked <;> cases hmark' : step'.marked <;> simp_all

end ParamEntry

/-! ## Equality up to order -/

/-- Two lists of keyed things differ in their order, and in the things
themselves as far as the relation allows.  Only neighbours with different keys
change places. -/
inductive Reordered {α : Type} (R : α → α → Prop) : List (Text × α) → List (Text × α) → Prop
  | nil : Reordered R [] []
  | cons {key : Text} {a b : α} {as bs : List (Text × α)} (h : R a b)
      (hrest : Reordered R as bs) : Reordered R ((key, a) :: as) ((key, b) :: bs)
  | swap {a b : Text × α} {as : List (Text × α)} (h : a.1 ≠ b.1) :
      Reordered R (a :: b :: as) (b :: a :: as)
  | trans {as bs cs : List (Text × α)} (h : Reordered R as bs) (h' : Reordered R bs cs) :
      Reordered R as cs

/-- Reordering leaves the same lists empty. -/
theorem Reordered.isEmpty_eq {α : Type} {R : α → α → Prop} {as bs : List (Text × α)}
    (h : Reordered R as bs) : as.isEmpty = bs.isEmpty := by
  induction h with
  | nil => rfl
  | cons _ _ _ => rfl
  | swap _ => rfl
  | trans _ _ ih ih' => exact ih.trans ih'

/-- Two parameter trees are the same up to the order of the properties of each
node. -/
inductive Param.Alike : Param → Param → Prop
  | node {title : Text} {type : TypeName} {description : Text} {items items' : Option Param}
      {properties properties' : List (Text × Param)}
      (hitems : Option.Rel Param.Alike items items')
      (hproperties : Reordered Param.Alike properties properties') :
      Param.Alike ⟨title, type, description, items, properties⟩
        ⟨title, type, description, items', properties'⟩

/-- Two forests are the same up to the order of the roots and of the properties
of each node. -/
def Param.ForestAlike (forest forest' : List Param) : Prop :=
  Reordered Param.Alike (forest.map fun root => (root.title, root))
    (forest'.map fun root => (root.title, root))

namespace Branch

/-- Two branches are the same up to the order of their properties. -/
inductive Alike : Branch → Branch → Prop
  | node {title : Text} {type : TypeName} {description : Text} {items items' : Option Branch}
      {properties properties' : List (Text × Branch)}
      (hitems : Option.Rel Alike items items')
      (hproperties : Reordered Alike properties properties') :
      Alike ⟨title, type, description, items, properties⟩
        ⟨title, type, description, items', properties'⟩

mutual

theorem Alike.refl : ∀ branch : Branch, Alike branch branch
  | ⟨_, _, _, items, properties⟩ => .node (rel_refl items) (reordered_refl properties)

theorem rel_refl : ∀ items : Option Branch, Option.Rel Alike items items
  | none => .none
  | some item => .some (Alike.refl item)

theorem reordered_refl : ∀ properties : List (Text × Branch), Reordered Alike properties properties
  | [] => .nil
  | (_, property) :: rest => .cons (Alike.refl property) (reordered_refl rest)

end

/-- Pruning keeps branches alike, and with them their items and properties. -/
theorem Alike.prune {branch branch' : Branch} (h : Alike branch branch') :
    (prune branch).Alike (prune branch') := by
  -- The induction is on the derivation, with a statement for each of the three relations in it.
  refine @Alike.rec (fun branch branch' _ => (Branch.prune branch).Alike (Branch.prune branch'))
    (fun items items' _ => Option.Rel Param.Alike (pruneItems items) (pruneItems items'))
    (fun properties properties' _ =>
      Reordered Param.Alike (pruneProperties properties) (pruneProperties properties'))
    ?_ ?_ ?_ ?_ ?_ ?_ ?_ branch branch' h
  · intro _ type _ _ _ _ _ _ _ hitems hproperties
    simp only [Branch.prune]
    refine .node ?_ ?_
    · split
      · exact hitems
      · exact .none
    · split
      · exact hproperties
      · exact .nil
  · intro _ _ _ hitem
    exact .some hitem
  · exact .none
  · exact .nil
  · intro _ _ _ _ _ _ _ hfirst hrest
    exact .cons hfirst hrest
  · intro _ _ _ hne
    exact .swap hne
  · intro _ _ _ _ _ hleft hright
    exact .trans hleft hright

/-- Reordered properties are reordered after pruning. -/
theorem reordered_pruneProperties {properties properties' : List (Text × Branch)}
    (h : Reordered Alike properties properties') :
    Reordered Param.Alike (pruneProperties properties) (pruneProperties properties') := by
  induction h with
  | nil => exact .nil
  | cons hfirst _ ih => exact .cons hfirst.prune ih
  | swap hne => exact .swap hne
  | trans _ _ ih ih' => exact .trans ih ih'

/-! ## Insertion into branches that are alike -/

/-- Branches that are alike have items that are alike. -/
theorem Alike.itemsOrFresh {branch branch' : Branch} (h : Alike branch branch') :
    Alike branch.itemsOrFresh branch'.itemsOrFresh := by
  cases h with
  | node hitems _ =>
      cases hitems with
      | none => exact Alike.refl _
      | some hitem => exact hitem

/-- Branches that are alike both have properties or both have none. -/
theorem Alike.isEmpty_properties {branch branch' : Branch} (h : Alike branch branch') :
    branch.properties.isEmpty = branch'.properties.isEmpty := by
  cases h with
  | node _ hproperties => exact hproperties.isEmpty_eq

/-- Branches that are alike stay so with a common type. -/
theorem Alike.with_type {branch branch' : Branch} (h : Alike branch branch') (type : TypeName) :
    Alike { branch with type } { branch' with type } := by
  cases h with
  | node hitems hproperties => exact .node hitems hproperties

/-- Branches that are alike stay so with a common description. -/
theorem Alike.with_description {branch branch' : Branch} (h : Alike branch branch')
    (description : Text) : Alike { branch with description } { branch' with description } := by
  cases h with
  | node hitems hproperties => exact .node hitems hproperties

/-- Branches that are alike stay so with items that are alike. -/
theorem Alike.with_items {branch branch' item item' : Branch} (h : Alike branch branch')
    (hitem : Alike item item') (type : TypeName) :
    Alike { branch with type, items := some item } { branch' with type, items := some item' } := by
  cases h with
  | node _ hproperties => exact .node (.some hitem) hproperties

/-- Branches that are alike stay so with properties that are alike up to their order. -/
theorem Alike.with_properties {branch branch' : Branch} (h : Alike branch branch')
    {properties properties' : List (Text × Branch)}
    (hproperties : Reordered Alike properties properties') (type : TypeName) :
    Alike { branch with type, properties } { branch' with type, properties := properties' } := by
  cases h with
  | node hitems _ => exact .node hitems hproperties

/-- The properties of branches that are alike are alike up to their order. -/
theorem Alike.properties {branch branch' : Branch} (h : Alike branch branch') :
    Reordered Alike branch.properties branch'.properties := by
  cases h with
  | node _ hproperties => exact hproperties

/-- Giving a common type keeps branches alike. -/
theorem Alike.applyType {branch branch' : Branch} (h : Alike branch branch') (type : TypeExpr) :
    Alike (applyType type branch) (applyType type branch') := by
  induction type generalizing branch branch' with
  | named name => exact h.with_type name
  | anyArray => exact h.with_type .array
  | arrayOf element ih => exact h.with_items (ih h.itemsOrFresh) .array

/-- Describing a branch in terms of the type that the entry gives to its place. -/
theorem define_eq (entry : ParamEntry) (marked : Bool) (branch : Branch) :
    define entry marked branch =
      if !branch.properties.isEmpty && !(TypeExpr.atLeaf entry.type marked).isArray then
        { branch with description := entry.description, type := .object }
      else
        applyType (TypeExpr.atLeaf entry.type marked)
          { branch with description := entry.description } := by
  cases marked with
  | false => rfl
  | true => simp [define, TypeExpr.atLeaf, TypeExpr.isArray, Branch.applyType]

/-- Writing a common entry keeps branches alike. -/
theorem Alike.define {branch branch' : Branch} (h : Alike branch branch') (entry : ParamEntry)
    (marked : Bool) : Alike (define entry marked branch) (define entry marked branch') := by
  have hdescribed := h.with_description entry.description
  rw [define_eq, define_eq, h.isEmpty_properties]
  split
  · exact hdescribed.with_type .object
  · exact hdescribed.applyType _

/-- Changing branches of one name in reordered lists, by changes that give
branches that are alike. -/
theorem reordered_upsert {branches branches' : List (Text × Branch)} (name : Text)
    {change : Branch → Branch}
    (hchange : ∀ branch branch', Alike branch branch' → Alike (change branch) (change branch'))
    (h : Reordered Alike branches branches') :
    Reordered Alike (upsert name change branches) (upsert name change branches') := by
  induction h with
  | nil => exact .cons (hchange _ _ (Alike.refl _)) .nil
  | @cons key branch branch' rest rest' hfirst hrest ih =>
      by_cases hkey : key = name
      · simp only [upsert, if_pos hkey]
        exact .cons (hchange _ _ hfirst) hrest
      · simp only [upsert, if_neg hkey]
        exact .cons hfirst ih
  | @swap first second rest hne =>
      rcases first with ⟨key, branch⟩
      rcases second with ⟨key', branch'⟩
      by_cases hkey : key = name
      · have hkey' : key' ≠ name := fun heq => hne (hkey.trans heq.symm)
        simp only [upsert, if_pos hkey, if_neg hkey']
        exact .swap hne
      · by_cases hkey' : key' = name
        · simp only [upsert, if_neg hkey, if_pos hkey']
          exact .swap hne
        · simp only [upsert, if_neg hkey, if_neg hkey']
          exact .swap hne
  | trans _ _ ih ih' => exact .trans ih ih'

/-- Inserting an entry into reordered branches gives reordered branches. -/
theorem reordered_insertAt (entry : ParamEntry) (path : FieldPath)
    {branches branches' : List (Text × Branch)} (h : Reordered Alike branches branches') :
    Reordered Alike (insertAt entry path branches) (insertAt entry path branches') := by
  induction path generalizing branches branches' with
  | nil => exact h
  | cons step rest ih =>
      rw [insertAt_cons, insertAt_cons]
      refine reordered_upsert step.name ?_ h
      intro branch branch' hbranch
      cases rest with
      | nil => exact hbranch.define entry step.marked
      | cons next rest =>
          simp only [visit]
          split
          · have hitems := hbranch.itemsOrFresh
            exact hbranch.with_items (hitems.with_properties (ih hitems.properties) .object) .array
          · exact hbranch.with_properties (ih hbranch.properties) .object

/-! ## Compatible entries commute -/

/-- Changes of branches of different names commute. -/
theorem reordered_upsert_comm {name name' : Text} (hne : name ≠ name')
    (change change' : Branch → Branch) (branches : List (Text × Branch)) :
    Reordered Alike (upsert name' change' (upsert name change branches))
      (upsert name change (upsert name' change' branches)) := by
  induction branches with
  | nil =>
      simp only [upsert, if_neg hne, if_neg hne.symm]
      exact .swap hne
  | cons first rest ih =>
      rcases first with ⟨key, branch⟩
      by_cases hkey : key = name
      · have hkey' : key ≠ name' := fun heq => hne (hkey.symm.trans heq)
        simp only [upsert, if_pos hkey, if_neg hkey']
        exact reordered_refl _
      · by_cases hkey' : key = name'
        · simp only [upsert, if_neg hkey, if_pos hkey']
          exact reordered_refl _
        · simp only [upsert, if_neg hkey, if_neg hkey']
          exact .cons (Alike.refl branch) ih

/-- Changes of branches of one name by changes that agree up to order. -/
theorem reordered_upsert_of_alike (name : Text) {change change' : Branch → Branch}
    (h : ∀ branch, Alike (change branch) (change' branch)) (branches : List (Text × Branch)) :
    Reordered Alike (upsert name change branches) (upsert name change' branches) := by
  induction branches with
  | nil => exact .cons (h _) .nil
  | cons first rest ih =>
      rcases first with ⟨key, branch⟩
      by_cases hkey : key = name
      · simp only [upsert, if_pos hkey]
        exact .cons (h branch) (reordered_refl rest)
      · simp only [upsert, if_neg hkey]
        exact .cons (Alike.refl branch) ih

/-- Something is there after an insertion. -/
theorem insertAt_cons_ne_nil (entry : ParamEntry) (step : Step) (rest : FieldPath)
    (branches : List (Text × Branch)) : insertAt entry (step :: rest) branches ≠ [] := by
  rw [insertAt_cons]
  fun_cases upsert step.name (visit entry step rest) branches <;> simp

/-- An object may be described before or after one of its properties. -/
theorem visit_define_of_object {entry entry' : ParamEntry} {marked : Bool} {step next : Step}
    {rest : FieldPath} (hmarked : step.marked = false)
    (htype : (TypeExpr.atLeaf entry.type marked).isArray = false) (branch : Branch) :
    visit entry' step (next :: rest) (define entry marked branch) =
      define entry marked (visit entry' step (next :: rest) branch) := by
  rcases branch with ⟨title, type, description, items, properties⟩
  cases hleaf : TypeExpr.atLeaf entry.type marked with
  | named name =>
      rw [define_eq, define_eq]
      have hne := insertAt_cons_ne_nil entry' next rest properties
      by_cases hempty : properties.isEmpty = true
      · simp [visit, hmarked, hleaf, hempty, hne, applyType, TypeExpr.isArray]
      · simp [visit, hmarked, hleaf, hempty, hne, TypeExpr.isArray]
  | anyArray => simp [hleaf, TypeExpr.isArray] at htype
  | arrayOf element => simp [hleaf, TypeExpr.isArray] at htype

/-- An array may be described before or after one of the properties of its
items. -/
theorem visit_define_of_array {entry entry' : ParamEntry} {marked : Bool} {step next : Step}
    {rest : FieldPath} (hmarked : step.marked = true)
    (htype : TypeExpr.atLeaf entry.type marked = .anyArray ∨
      TypeExpr.atLeaf entry.type marked = .arrayOf (.named .object)) (branch : Branch) :
    visit entry' step (next :: rest) (define entry marked branch) =
      define entry marked (visit entry' step (next :: rest) branch) := by
  rcases branch with ⟨title, type, description, items, properties⟩
  rw [define_eq, define_eq]
  rcases htype with htype | htype
  · simp [visit, hmarked, htype, applyType, TypeExpr.isArray, itemsOrFresh]
  · simp [visit, hmarked, htype, applyType, TypeExpr.isArray, itemsOrFresh]

/-- A place may be described before or after something below it. -/
theorem visit_define_comm {entry : ParamEntry} (entry' : ParamEntry) {leaf step next : Step}
    {rest : FieldPath} (hname : leaf.name = step.name)
    (h : entry.Suits [leaf] (step :: next :: rest)) (branch : Branch) :
    visit entry' step (next :: rest) (define entry leaf.marked branch) =
      define entry leaf.marked (visit entry' step (next :: rest) branch) := by
  have hpassed : (FieldPath.key [leaf], step.marked) ∈
      FieldPath.interior (step :: next :: rest) := by
    rw [FieldPath.key, hname]
    exact List.mem_cons_self
  cases hmarked : step.marked with
  | false => exact visit_define_of_object hmarked (h.object_type (hmarked ▸ hpassed)) branch
  | true => exact visit_define_of_array hmarked (h.array_type (hmarked ▸ hpassed)) branch

/-- Entries that share a place commute there, given that the rests of their
paths commute. -/
theorem alike_visit_comm {entry entry' : ParamEntry} {step step' : Step}
    {rest rest' : FieldPath} (hname : step.name = step'.name)
    (h : ParamEntry.Compatible entry entry' (step :: rest) (step' :: rest'))
    (hrest : ParamEntry.Compatible entry entry' rest rest' →
      ∀ branches, Reordered Alike (insertAt entry' rest' (insertAt entry rest branches))
        (insertAt entry rest (insertAt entry' rest' branches))) (branch : Branch) :
    Alike (visit entry' step' rest' (visit entry step rest branch))
      (visit entry step rest (visit entry' step' rest' branch)) := by
  -- Each path ends at the place or passes on below it.
  cases rest with
  | nil =>
      cases rest' with
      | nil => exact absurd (by simp [FieldPath.key, hname]) h.key_ne
      | cons next' rest' =>
          have hcomm := visit_define_comm entry' hname h.suits branch
          exact hcomm ▸ Alike.refl _
  | cons next rest =>
      cases rest' with
      | nil =>
          have hcomm := visit_define_comm entry hname.symm h.suits' branch
          exact hcomm ▸ Alike.refl _
      | cons next' rest' =>
          have hstep : step = step' := by
            have hmarked := h.suits.marked_eq hname
            cases step
            cases step'
            simp_all
          subst hstep
          rcases branch with ⟨title, type, description, items, properties⟩
          simp only [visit]
          split
          · exact .node (.some (.node (rel_refl _) (hrest h.tail _))) (reordered_refl _)
          · exact .node (rel_refl _) (hrest h.tail _)

/-- Compatible entries can be inserted in either order. -/
theorem reordered_insertAt_comm {entry entry' : ParamEntry} {path path' : FieldPath}
    (h : ParamEntry.Compatible entry entry' path path') (branches : List (Text × Branch)) :
    Reordered Alike (insertAt entry' path' (insertAt entry path branches))
      (insertAt entry path (insertAt entry' path' branches)) := by
  induction path generalizing path' branches with
  | nil => exact reordered_refl _
  | cons step rest ih =>
      cases path' with
      | nil => exact reordered_refl _
      | cons step' rest' =>
          simp only [insertAt_cons]
          by_cases hname : step.name = step'.name
          · rw [← hname, upsert_upsert, upsert_upsert]
            exact reordered_upsert_of_alike step.name
              (alike_visit_comm hname h fun hcompatible => ih hcompatible) branches
          · exact reordered_upsert_comm hname _ _ branches

/-! ## Permutations -/

/-- Inserting the same entries keeps reordered branches reordered. -/
theorem reordered_foldl_insert (entries : List ParamEntry)
    {branches branches' : List (Text × Branch)} (h : Reordered Alike branches branches') :
    Reordered Alike (entries.foldl insert branches) (entries.foldl insert branches') := by
  induction entries generalizing branches branches' with
  | nil => exact h
  | cons entry entries ih => exact ih (reordered_insertAt entry entry.path h)

/-- Entries that are compatible in pairs give the same branches in every order,
up to order. -/
theorem reordered_foldl_insert_of_perm {entries entries' : List ParamEntry}
    (hperm : entries.Perm entries')
    (h : entries.Pairwise fun a b => ParamEntry.Compatible a b a.path b.path)
    (branches : List (Text × Branch)) :
    Reordered Alike (entries.foldl insert branches) (entries'.foldl insert branches) := by
  induction hperm generalizing branches with
  | nil => exact reordered_refl _
  | cons entry _ ih => exact ih (List.pairwise_cons.mp h).2 _
  | swap entry entry' entries =>
      have hpair := (List.pairwise_cons.mp h).1 entry List.mem_cons_self
      exact reordered_foldl_insert entries (reordered_insertAt_comm hpair branches)
  | trans hleft _ ih ih' =>
      refine .trans (ih h _) (ih' ?_ _)
      exact (hleft.pairwise_iff fun hab => hab.symm).mp h

/-- The trees of tidy branches under their titles. -/
theorem TidyList.map_forest {branches : List (Text × Branch)} (h : TidyList branches) :
    (forest branches).map (fun root => (root.title, root)) = pruneProperties branches := by
  rw [forest, List.map_map, pruneProperties_eq_map]
  refine List.map_congr_left ?_
  intro branch hmem
  simp only [Function.comp_apply, title_prune, Prod.mk.injEq, and_true]
  exact h.labels.title_eq branch.1 branch.2 hmem

end Branch

namespace Draft

/-- Consistent entries give the same trees in every order, up to the order of the
roots and of the properties of each node. -/
theorem forest_ofEntries_perm {entries entries' : List ParamEntry}
    (hpaths : ∀ entry ∈ entries, entry.path.Readable)
    (hconsistent : ParamEntry.Consistent entries) (hperm : entries.Perm entries') :
    Param.ForestAlike (ofEntries entries).forest (ofEntries entries').forest := by
  have hnamed : ∀ entry ∈ entries, entry.path.Named := fun entry hentry =>
    (hpaths entry hentry).named
  have hnamed' : ∀ entry ∈ entries', entry.path.Named := fun entry hentry =>
    hnamed entry (hperm.mem_iff.mpr hentry)
  rw [(represents_ofEntries hnamed).forest_eq, (represents_ofEntries hnamed').forest_eq,
    Param.ForestAlike, (Branch.tidyList_ofEntries hnamed).map_forest,
    (Branch.tidyList_ofEntries hnamed').map_forest]
  exact Branch.reordered_pruneProperties
    (Branch.reordered_foldl_insert_of_perm hperm hconsistent.pairwise [])

/-- An object and an array of objects, each described after its property. -/
def lateEntries : List ParamEntry :=
  [⟨some (.named .number), [⟨['a'], false⟩, ⟨['x'], false⟩], ['p']⟩,
   ⟨none, [⟨['b'], true⟩, ⟨['y'], false⟩], []⟩,
   ⟨none, [⟨['a'], false⟩], ['q']⟩,
   ⟨some (.named .object), [⟨['b'], true⟩], ['r']⟩]

theorem forest_lateEntries_reverse :
    (∀ entry ∈ lateEntries, entry.path.Readable) ∧ ParamEntry.Consistent lateEntries ∧
      lateEntries.Perm lateEntries.reverse ∧
      Param.ForestAlike (ofEntries lateEntries).forest (ofEntries lateEntries.reverse).forest := by
  have hpaths : ∀ entry ∈ lateEntries, entry.path.Readable := by
    intro entry hentry
    simp only [lateEntries, List.mem_cons, List.not_mem_nil, or_false] at hentry
    rcases hentry with rfl | rfl | rfl | rfl
    · exact ⟨"a.x".toList, by decide⟩
    · exact ⟨"b[].y".toList, by decide⟩
    · exact ⟨"a".toList, by decide⟩
    · exact ⟨"b[]".toList, by decide⟩
  have hconsistent : ParamEntry.Consistent lateEntries :=
    ⟨by decide, by decide, by decide, by decide⟩
  have hperm : lateEntries.Perm lateEntries.reverse := lateEntries.reverse_perm.symm
  exact ⟨hpaths, hconsistent, hperm, forest_ofEntries_perm hpaths hconsistent hperm⟩

end Draft
end DocComment
