import DocComment.Proofs.Param.Place
import Mathlib.Data.List.Induction

/-!
# The children of every place

A place collects its children from the paths that lead on from it: whichever
entry mentions a name below the place first adds it at the end, and no entry
ever removes one.  So the names at a place are those that follow it on the paths
of the entries, each where it appeared first.

Main results:

- Theorem `Branch.names_descend_insertBelow`: what one entry does to the names at
  a place.
- Theorem `Branch.names_descend_ofEntries`: the names at a place after all
  entries.
- Theorem `Draft.keys_forest_ofEntries`: the keys of every object in the trees of
  a draft.
-/

namespace DocComment

/-- The name of the step that follows a place on a path. -/
def FieldPath.nameAfter? (place path : FieldPath) : Option Text :=
  (place.below? path).bind fun rest => rest.head?.map Step.name

/-- The name after a place is that of the next step of a path through the place. -/
theorem FieldPath.nameAfter?_eq_some_iff {place path : FieldPath} {name : Text} :
    place.nameAfter? path = some name ↔
      ∃ step rest, path = place ++ step :: rest ∧ step.name = name := by
  simp only [nameAfter?, Option.bind_eq_some_iff, below?_eq_some_iff, Option.map_eq_some_iff]
  constructor
  · rintro ⟨rest, rfl, step, hstep, rfl⟩
    rcases List.head?_eq_some_iff.mp hstep with ⟨rest', rfl⟩
    exact ⟨step, rest', rfl, rfl⟩
  · rintro ⟨step, rest, rfl, rfl⟩
    exact ⟨step :: rest, rfl, step, rfl, rfl⟩

/-- Without repeats, a further name is added at the end unless it is there. -/
theorem eraseDups_concat (names : List Text) (name : Text) :
    (names ++ [name]).eraseDups =
      if name ∈ names.eraseDups then names.eraseDups else names.eraseDups ++ [name] := by
  rw [List.eraseDups_append]
  by_cases hmem : name ∈ names
  · simp [hmem, List.removeAll]
  · simp [hmem, List.removeAll, List.eraseDups_cons]

namespace Branch

/-- What one entry does to the names at a place. -/
theorem names_descend_insertBelow (entry : ParamEntry) (path : FieldPath) (branch : Branch)
    (place : FieldPath) :
    ((insertBelow entry path branch).descend place).names =
      match place.nameAfter? path with
      | some name =>
        if name ∈ (branch.descend place).names then (branch.descend place).names
        else (branch.descend place).names ++ [name]
      | none => (branch.descend place).names := by
  rw [names, properties_descend_insertBelow, FieldPath.nameAfter?]
  cases place.below? path with
  | none => rfl
  | some below =>
      cases below with
      | nil => rfl
      | cons step rest => exact names_insertAt entry step rest _

/-- The names at a place are those that follow it on the paths of the entries, in
the order in which they appear first. -/
theorem names_descend_ofEntries (entries : List ParamEntry) (place : FieldPath) :
    ((ofForest (ofEntries entries)).descend place).names =
      (entries.filterMap fun entry => place.nameAfter? entry.path).eraseDups := by
  induction entries using List.reverseRecOn with
  | nil =>
      rw [names, properties_descend_eq_nil rfl]
      rfl
  | append_singleton entries entry ih =>
      rw [ofForest_ofEntries_concat, names_descend_insertBelow, ih, List.filterMap_append]
      cases hname : place.nameAfter? entry.path with
      | none => simp [hname]
      | some name =>
          simp only [List.filterMap_cons, hname, List.filterMap_nil]
          rw [eraseDups_concat]

end Branch

namespace Draft

/-- The titles of the trees are the first names of the paths, and the keys of
every object in the trees are the names that follow its place on the paths, both
in the order in which they appear first. -/
theorem keys_forest_ofEntries (entries : List ParamEntry)
    (hpaths : ∀ entry ∈ entries, entry.path.Readable) :
    (ofEntries entries).forest.map Param.title =
        (entries.filterMap fun entry => entry.path.head?.map Step.name).eraseDups ∧
      ∀ place node, (Param.ofForest (ofEntries entries).forest).descend? place = some node →
        node.type = .object →
          node.properties.map Prod.fst =
            (entries.filterMap fun entry => place.nameAfter? entry.path).eraseDups := by
  -- Where a place is an object, pruning keeps the names of its properties.
  have hkeys : ∀ place node,
      (Param.ofForest (ofEntries entries).forest).descend? place = some node →
        node.type = .object →
          node.properties.map Prod.fst =
            (entries.filterMap fun entry => place.nameAfter? entry.path).eraseDups := by
    intro place node hnode htype
    rw [← Branch.prune_ofForest_ofEntries hpaths] at hnode
    rcases Branch.descend?_prune.mp hnode with ⟨_, rfl⟩
    rw [Branch.type_prune] at htype
    rw [Branch.map_fst_properties_prune, if_pos htype]
    exact Branch.names_descend_ofEntries entries place
  refine ⟨?_, hkeys⟩
  rw [← Param.map_fst_properties_ofForest]
  exact hkeys [] _ rfl rfl

/-- Entries that give a place children while it is an object, an array and a
string, and describe it in between. -/
def returningEntries : List ParamEntry :=
  [⟨none, [⟨['b'], false⟩, ⟨['x'], false⟩], []⟩,
   ⟨none, [⟨['a'], false⟩], ['p']⟩,
   ⟨some (.arrayOf (.named .string)), [⟨['b'], false⟩], ['q']⟩,
   ⟨none, [⟨['b'], true⟩, ⟨['y'], false⟩], []⟩,
   ⟨none, [⟨['b'], false⟩, ⟨['z'], true⟩, ⟨['w'], false⟩], []⟩,
   ⟨none, [⟨['b'], false⟩, ⟨['x'], false⟩], ['r']⟩]

theorem keys_returningEntries :
    (∀ entry ∈ returningEntries, entry.path.Readable) ∧
      (ofEntries returningEntries).forest.map Param.title = [['b'], ['a']] ∧
      ∃ node, (Param.ofForest (ofEntries returningEntries).forest).descend? [⟨['b'], false⟩] =
          some node ∧ node.type = .object ∧ node.properties.map Prod.fst = [['x'], ['z']] := by
  have hpaths : ∀ entry ∈ returningEntries, entry.path.Readable := by
    intro entry hentry
    simp only [returningEntries, List.mem_cons, List.not_mem_nil, or_false] at hentry
    rcases hentry with rfl | rfl | rfl | rfl | rfl | rfl
    · exact ⟨"b.x".toList, by decide⟩
    · exact ⟨"a".toList, by decide⟩
    · exact ⟨"b".toList, by decide⟩
    · exact ⟨"b[].y".toList, by decide⟩
    · exact ⟨"b.z[].w".toList, by decide⟩
    · exact ⟨"b.x".toList, by decide⟩
  have hkeys := keys_forest_ofEntries returningEntries hpaths
  refine ⟨hpaths, hkeys.1.trans (by decide), _, rfl, rfl, ?_⟩
  exact (hkeys.2 [⟨['b'], false⟩] _ rfl rfl).trans (by decide)

end Draft
end DocComment
