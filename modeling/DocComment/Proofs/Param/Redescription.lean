import DocComment.Proofs.Param.Change
import DocComment.Proofs.Param.History

/-!
# Describing a container again

An entry without a type may come after the entries for what lies below its place.
When the place is an object with properties, the entry adds its description and
nothing else changes.  An array of objects is not treated alike: the entry makes
it a string, or an object when it has properties of its own, and the items with
everything below them are lost from the trees.

Main results:

- Theorem `Branch.insertBelow_eq_changeAt`: an entry for a place that can be seen
  changes that place alone.
- Theorem `Draft.forest_describe_container`: what an entry without a type does to
  a container with described children.
- Theorem `Draft.forest_listEntry_lost`: an array that loses its items.
-/

namespace DocComment

/-- A path that can be read has a step. -/
theorem FieldPath.Readable.ne_nil {path : FieldPath} (h : path.Readable) : path ≠ [] := by
  rcases h with ⟨text, htext⟩
  rcases List.exists_cons_of_ne_nil (List.splitOn_ne_nil '.' text) with ⟨first, rest, hsplit⟩
  rw [parse?, hsplit, List.mapM_cons] at htext
  rintro rfl
  simp [Option.bind_eq_some_iff] at htext

/-- A path without a mark on its last step is the place that it leads to. -/
theorem FieldPath.exists_eq_named {path : FieldPath} (hne : path ≠ [])
    (hleaf : path.leafMarked = false) : ∃ container name, path = named container name := by
  rcases List.eq_nil_or_concat path with rfl | ⟨container, ⟨name, marked⟩, rfl⟩
  · exact absurd rfl hne
  · rw [List.concat_eq_append] at hleaf ⊢
    rw [leafMarked_concat] at hleaf
    subst hleaf
    exact ⟨container, name, rfl⟩

namespace Param

/-- A container with described children: an object with properties, or an array
whose items have properties. -/
def HasChildren (node : Param) : Prop :=
  (node.type = .object ∧ node.properties ≠ []) ∨
    (node.type = .array ∧ ∃ item, node.items = some item ∧ item.properties ≠ [])

/-- A node with another description. -/
def describe (description : Text) (node : Param) : Param :=
  { node with description }

end Param

namespace Branch

theorem with_type_eq {branch : Branch} {type : TypeName} (h : branch.type = type) :
    { branch with type } = branch := by
  cases branch
  subst h
  rfl

/-- An entry for a place that can be seen changes that place alone: everything on
the way has the type that the entry would give it. -/
theorem insertBelow_eq_changeAt (entry : ParamEntry) (container : FieldPath) (leaf : Step)
    {branch : Branch} (hpresent : Present branch (container.named leaf.name))
    (hopen : Open branch (container.named leaf.name)) :
    insertBelow entry (container ++ [leaf]) branch =
      branch.changeAt (define entry leaf.marked) (container.named leaf.name) := by
  induction container generalizing branch with
  | nil =>
      rw [insertBelow, List.nil_append, insertAt_cons, upsert_eq_change _ hpresent.1]
      rfl
  | cons step container ih =>
      rcases hpresent with ⟨hname, hitems, hpresent⟩
      rcases hopen with ⟨_, harray, hopen⟩
      have hobject : (branch.enter step).type = .object := hopen.type_eq (by simp)
      have hrest := ih hpresent hopen
      rw [insertBelow, List.cons_append, insertAt_cons, upsert_eq_change _ hname, FieldPath.named,
        List.cons_append, changeAt]
      congr 1
      refine Keyed.change_congr ?_
      intro property hproperty
      have hchild : branch.child step.name = property := by
        simp [child, hproperty]
      rw [visit_of_ne_nil entry step (by simp)]
      cases hmarked : step.marked with
      | false =>
          have henter : branch.enter step = property := by
            simp [enter, hmarked, hchild]
          rw [henter] at hobject hrest
          simp only [Bool.false_eq_true, if_false, changeInside]
          rw [with_type_eq (show (insertBelow entry (container ++ [leaf]) property).type = .object
            from hobject)]
          exact hrest
      | true =>
          rw [hchild] at harray hitems
          rcases Option.isSome_iff_exists.mp (hitems hmarked) with ⟨item, hitem⟩
          have henter : branch.enter step = item := by
            simp [enter, hmarked, hchild, itemsOrFresh, hitem]
          rw [henter] at hobject hrest
          simp only [if_true, changeInside, itemsOrFresh, hitem, Option.getD_some, Option.map_some]
          rw [with_type_eq (show (insertBelow entry (container ++ [leaf]) item).type = .object
            from hobject), hrest, ← harray hmarked]
          rfl

/-- An entry without a type gives an object with properties its description. -/
theorem prune_define_of_object {entry : ParamEntry} (htype : entry.type = none) {branch : Branch}
    (hobject : branch.type = .object) (hproperties : branch.properties ≠ []) :
    prune (define entry false branch) = (prune branch).describe entry.description := by
  have hdefine : define entry false branch =
      { branch with description := entry.description } := by
    simp [define, htype, hproperties, TypeExpr.isArray, ← hobject]
  rw [hdefine, prune_eq, prune_eq branch]
  rfl

/-- An entry without a type makes an array a string, or an object when it has
properties of its own. -/
theorem type_define_of_none {entry : ParamEntry} (htype : entry.type = none) (branch : Branch) :
    (define entry false branch).type =
      if !branch.properties.isEmpty then .object else .string := by
  simp only [define, htype]
  by_cases hproperties : branch.properties.isEmpty = true <;>
    simp [hproperties, TypeExpr.isArray, applyType]

/-- Only an array keeps its items when it is pruned. -/
theorem items_prune_of_ne {branch : Branch} (h : branch.type ≠ .array) :
    (prune branch).items = none := by
  rw [prune_eq]
  simp [h]

end Branch

namespace Draft

/-- What an entry without a type and without a mark on its last step does to a
container with described children.  An object keeps its type and everything
below it, and only its description changes.  An array becomes a string, or an
object when an earlier entry passes it without a mark, and its items are gone. -/
theorem forest_describe_container (entries : List ParamEntry)
    (hpaths : ∀ entry ∈ entries, entry.path.Readable) (entry : ParamEntry)
    (hpath : entry.path.Readable) (htype : entry.type = none)
    (hleaf : entry.path.leafMarked = false) (node : Param)
    (hnode : (Param.ofForest (ofEntries entries).forest).descend? entry.path = some node)
    (hchildren : node.HasChildren) :
    (node.type = .object →
      Param.ofForest (ofEntries (entries ++ [entry])).forest =
        (Param.ofForest (ofEntries entries).forest).changeAt
          (Param.describe entry.description) entry.path) ∧
    (node.type = .array → ∃ lost : Param,
      lost.description = entry.description ∧ lost.items = none ∧
      lost.type = (if entries.any fun entry' => entry'.passes entry.path false then .object
        else .string) ∧
      Param.ofForest (ofEntries (entries ++ [entry])).forest =
        (Param.ofForest (ofEntries entries).forest).changeAt (fun _ => lost) entry.path) := by
  have hpaths' : ∀ entry' ∈ entries ++ [entry], entry'.path.Readable := by
    intro entry' hentry'
    rcases List.mem_append.mp hentry' with hold | hlast
    · exact hpaths entry' hold
    · rw [List.mem_singleton.mp hlast]
      exact hpath
  rcases FieldPath.exists_eq_named hpath.ne_nil hleaf with ⟨container, name, hplace⟩
  rw [← Branch.prune_ofForest_ofEntries hpaths, hplace] at hnode
  rcases Branch.descend?_prune.mp hnode with ⟨⟨hpresent, hopen⟩, rfl⟩
  have hchange : Branch.insertBelow entry (container.named name)
      (Branch.ofForest (Branch.ofEntries entries)) =
        (Branch.ofForest (Branch.ofEntries entries)).changeAt (Branch.define entry false)
          (container.named name) :=
    Branch.insertBelow_eq_changeAt entry container ⟨name, false⟩ hpresent hopen
  rw [← Branch.prune_ofForest_ofEntries hpaths, ← Branch.prune_ofForest_ofEntries hpaths',
    Branch.ofForest_ofEntries_concat, hplace, hchange]
  constructor
  · intro hobject
    have hproperties : (Branch.prune ((Branch.ofForest (Branch.ofEntries entries)).descend
        (container.named name))).properties ≠ [] := by
      rcases hchildren with ⟨_, hproperties⟩ | ⟨harray, _⟩
      · exact hproperties
      · rw [hobject] at harray
        contradiction
    rw [Branch.type_prune] at hobject
    refine Branch.prune_changeAt (Branch.prune_define_of_object htype hobject ?_)
    intro hempty
    rw [Branch.prune_eq] at hproperties
    simp [hempty] at hproperties
  · intro harray
    have hlost := Branch.type_define_of_none htype
      ((Branch.ofForest (Branch.ofEntries entries)).descend (container.named name))
    rw [Branch.hasProperties_descend_ofEntries] at hlost
    refine ⟨_, ?_, ?_, ?_, Branch.prune_changeAt rfl⟩
    · rw [Branch.description_prune, Branch.description_define]
    · refine Branch.items_prune_of_ne ?_
      rw [hlost]
      split <;> simp
    · rw [Branch.type_prune, hlost]

/-- A property of an object inside of an array of objects. -/
def nestedEntries : List ParamEntry :=
  [⟨some (.named .number), [⟨['a'], true⟩, ⟨['b'], false⟩, ⟨['x'], false⟩], ['X']⟩]

/-- A description of the object without a type. -/
def nestedEntry : ParamEntry :=
  ⟨none, [⟨['a'], true⟩, ⟨['b'], false⟩], ['B']⟩

theorem forest_describe_nestedEntry :
    (∀ entry ∈ nestedEntries, entry.path.Readable) ∧ nestedEntry.path.Readable ∧
      (∃ node, (Param.ofForest (ofEntries nestedEntries).forest).descend? nestedEntry.path =
        some node ∧ node.HasChildren) ∧
      Param.ofForest (ofEntries (nestedEntries ++ [nestedEntry])).forest =
        (Param.ofForest (ofEntries nestedEntries).forest).changeAt (Param.describe ['B'])
          nestedEntry.path := by
  have hpaths : ∀ entry ∈ nestedEntries, entry.path.Readable := by
    intro entry hentry
    rw [List.mem_singleton.mp hentry]
    exact ⟨"a[].b.x".toList, by decide⟩
  have hpath : nestedEntry.path.Readable := ⟨"a[].b".toList, by decide⟩
  have hchildren : Param.HasChildren
      ⟨['b'], .object, [], none, [(['x'], ⟨['x'], .number, ['X'], none, []⟩)]⟩ :=
    .inl ⟨rfl, by simp⟩
  have hdescribe :=
    forest_describe_container nestedEntries hpaths nestedEntry hpath rfl rfl _ rfl hchildren
  exact ⟨hpaths, hpath, ⟨_, rfl, hchildren⟩, hdescribe.1 rfl⟩

/-- A property of the items of an array. -/
def listEntries : List ParamEntry :=
  [⟨some (.named .string), [⟨['a'], true⟩, ⟨['x'], false⟩], ['X']⟩]

/-- A description of the array without a type. -/
def listEntry : ParamEntry :=
  ⟨none, [⟨['a'], false⟩], ['A']⟩

/-- The array is a container with a described child, and describing it changes
more than its description. -/
theorem forest_listEntry_lost :
    (∀ entry ∈ listEntries, entry.path.Readable) ∧ listEntry.path.Readable ∧
      listEntry.type = none ∧ listEntry.path.leafMarked = false ∧
      (∃ node, (Param.ofForest (ofEntries listEntries).forest).descend? listEntry.path =
        some node ∧ node.HasChildren) ∧
      Param.ofForest (ofEntries (listEntries ++ [listEntry])).forest ≠
        (Param.ofForest (ofEntries listEntries).forest).changeAt
          (Param.describe listEntry.description) listEntry.path := by
  refine ⟨?_, ⟨"a".toList, by decide⟩, rfl, rfl, ⟨_, rfl, .inr ⟨rfl, _, rfl, by decide⟩⟩, ?_⟩
  · intro entry hentry
    rw [List.mem_singleton.mp hentry]
    exact ⟨"a[].x".toList, by decide⟩
  · intro heq
    have htype := congrArg (fun tree => (tree.descend? listEntry.path).map Param.type) heq
    exact absurd htype (by decide)

end Draft
end DocComment
