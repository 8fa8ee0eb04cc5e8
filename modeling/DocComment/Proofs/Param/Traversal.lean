import DocComment.Proofs.Param.Access
import Mathlib.Data.List.Flatten
import Mathlib.Data.List.Forall2
import Mathlib.Data.List.Perm.Subperm

/-!
# Assembling the trees of a draft

The trees of a draft are assembled by following links, without a mark on the
cells that were visited.  This ends, meets only cells that are there, and visits
no cell twice, because the cells form a forest.

The visits are those of the roots and those that other visits lead to.  A link
leads upwards, so by induction over the numbers a cell is visited at most as often
as it is referred to, and that is once.

Main results:

- Definition `Draft.assemble?`: the tree below a cell and the cells visited for
  it, with every access checked.
- Theorem `Draft.Arranged.exists_assemble`: assembling ends within as many steps
  down as there are cells.
- Theorem `Draft.perm_visits`: what leads to the visits.
- Theorem `Draft.Arranged.nodup_visits`: no cell is visited twice.
- Theorem `Draft.cells_form_forest`: the cells of every draft form a forest, all
  accesses are to cells, and the trees are assembled in one pass.
-/

namespace DocComment

/-! ## Lists of optional results -/

section Results

variable {α β : Type}

/-- A list is mapped when every member is, each to its own result. -/
theorem mapM_eq_some_iff {f : α → Option β} {list : List α} {results : List β} :
    list.mapM f = some results ↔ List.Forall₂ (fun a b => f a = some b) list results := by
  induction list generalizing results with
  | nil => simp [eq_comm]
  | cons a list ih =>
      rw [List.forall₂_cons_left_iff]
      simp only [List.mapM_cons, Option.bind_eq_bind, Option.bind_eq_some_iff, Option.pure_def,
        Option.some.injEq, ih]
      constructor
      · rintro ⟨b, hb, rest, hrest, rfl⟩
        exact ⟨b, rest, hb, hrest, rfl⟩
      · rintro ⟨b, rest, hb, hrest, rfl⟩
        exact ⟨b, hb, rest, hrest, rfl⟩

/-- What gives each result from some depth on gives all of them from there on. -/
theorem exists_mapM_eq {f : Nat → α → Option β} {least : Nat} {list : List α}
    (h : ∀ a ∈ list, ∃ b, ∀ depth, least ≤ depth → f depth a = some b) :
    ∃ results, ∀ depth, least ≤ depth → list.mapM (f depth) = some results := by
  induction list with
  | nil => exact ⟨[], fun _ _ => rfl⟩
  | cons a list ih =>
      rcases h a List.mem_cons_self with ⟨b, hb⟩
      rcases ih fun a' ha' => h a' (List.mem_cons_of_mem _ ha') with ⟨results, hresults⟩
      refine ⟨b :: results, ?_⟩
      intro depth hdepth
      simp [hb depth hdepth, hresults depth hdepth]

end Results

/-! ## The cells that show -/

namespace Cell

/-- The cells that show in the tree of a cell: the items of an array and the
properties of an object. -/
def shown (cell : Cell) : List Nat :=
  if cell.type = .array then cell.items.toList
  else if cell.type = .object then cell.properties.map Prod.snd
  else []

/-- The tree of a cell, given the trees of the cells that show in it. -/
def param (cell : Cell) (parts : List Param) : Param where
  title := cell.title
  type := cell.type
  description := cell.description
  items := if cell.type = .array then parts.head? else none
  properties := if cell.type = .object then (cell.properties.map Prod.fst).zip parts else []

/-- The references of a cell are its items and its properties. -/
theorem references_eq (cell : Cell) :
    cell.references = cell.items.toList ++ cell.properties.map Prod.snd := by
  cases hitems : cell.items <;> simp [references, links, hitems, Function.comp_def]

/-- Only references are shown. -/
theorem shown_sublist (cell : Cell) : cell.shown.Sublist cell.references := by
  rw [references_eq, shown]
  split
  · exact List.sublist_append_left _ _
  · split
    · exact List.sublist_append_right _ _
    · exact List.nil_sublist _

end Cell

namespace Draft

/-! ## Assembling -/

/-- The tree below a cell, with links followed to the given depth, and the cells
visited for it in their order.  Nothing is passed over: a number without a cell
and a chain of links beyond the depth leave no result. -/
def assemble? (draft : Draft) : (depth i : Nat) → Option (Param × List Nat)
  | 0, _ => none
  | depth + 1, i => do
    let cell ← draft.cells[i]?
    let parts ← cell.shown.mapM (draft.assemble? depth)
    return (cell.param (parts.map Prod.fst), i :: parts.flatMap Prod.snd)

/-- The trees below all roots, each with the cells visited for it. -/
def assembleRoots? (draft : Draft) (depth : Nat) : Option (List (Param × List Nat)) :=
  draft.roots.mapM (draft.assemble? depth)

/-- The cells that show below a number. -/
def shownAt (draft : Draft) (i : Nat) : List Nat :=
  (draft.cells[i]?.map Cell.shown).getD []

variable {draft : Draft} {depth i : Nat}

/-- A tree is put together of the trees of the cells that its cell shows. -/
theorem assemble?_succ_eq_some {result : Param × List Nat}
    (h : draft.assemble? (depth + 1) i = some result) :
    ∃ cell parts, draft.cells[i]? = some cell ∧
      List.Forall₂ (fun j part => draft.assemble? depth j = some part) cell.shown parts ∧
      result = (cell.param (parts.map Prod.fst), i :: parts.flatMap Prod.snd) := by
  simp only [assemble?, Option.bind_eq_bind, Option.bind_eq_some_iff, Option.pure_def,
    Option.some.injEq] at h
  rcases h with ⟨cell, hcell, parts, hparts, rfl⟩
  exact ⟨cell, parts, hcell, mapM_eq_some_iff.mp hparts, rfl⟩

/-- Assembling ends: numbers grow along every link, so there are no more steps
down than cells. -/
theorem Arranged.exists_assemble (h : draft.Arranged) {steps : Nat} (hi : i < draft.cells.length)
    (hsteps : draft.cells.length ≤ i + steps) :
    ∃ result, ∀ depth, steps ≤ depth → draft.assemble? depth i = some result := by
  induction steps generalizing i with
  | zero => omega
  | succ steps ih =>
      have hcell := List.getElem?_eq_getElem hi
      have hshown : ∀ j ∈ draft.cells[i].shown,
          ∃ part, ∀ depth, steps ≤ depth → draft.assemble? depth j = some part := by
        intro j hj
        have hmem := (Cell.shown_sublist _).mem hj
        have hlt := h.ascending i _ hcell j hmem
        refine ih (h.lt_length j ?_) (by omega)
        exact List.mem_append_right _ (List.mem_flatMap.mpr ⟨_, List.getElem_mem hi, hmem⟩)
      rcases exists_mapM_eq hshown with ⟨parts, hparts⟩
      refine ⟨(draft.cells[i].param (parts.map Prod.fst), i :: parts.flatMap Prod.snd), ?_⟩
      intro depth hdepth
      cases depth with
      | zero => omega
      | succ depth => simp [assemble?, hcell, hparts depth (by omega)]

/-! ## The trees -/

/-- The trees of the properties are those that were assembled for them. -/
theorem filterMap_properties {tree : Nat → Option Param} {properties : List (Text × Nat)}
    {parts : List Param}
    (h : List.Forall₂ (fun j part => tree j = some part) (properties.map Prod.snd) parts) :
    (properties.filterMap fun property => (tree property.2).map fun param => (property.1, param)) =
      (properties.map Prod.fst).zip parts := by
  induction properties generalizing parts with
  | nil => simp
  | cons property properties ih =>
      rw [List.map_cons, List.forall₂_cons_left_iff] at h
      rcases h with ⟨part, parts, hpart, hparts, rfl⟩
      simp [hpart, ih hparts]

/-- The tree that is assembled is the tree of the draft. -/
theorem param?_of_assemble {result : Param × List Nat}
    (h : draft.assemble? depth i = some result) : draft.param? depth i = some result.1 := by
  induction depth generalizing i result with
  | zero => simp [assemble?] at h
  | succ depth ih =>
      rcases assemble?_succ_eq_some h with ⟨cell, parts, hcell, hparts, rfl⟩
      have htrees : List.Forall₂ (fun j part => draft.param? depth j = some part) cell.shown
          (parts.map Prod.fst) := by
        rw [List.forall₂_map_right_iff]
        exact hparts.imp fun _ _ => ih
      simp only [param?, hcell, Option.map_some, Cell.param, Option.some.injEq, Param.mk.injEq,
        true_and]
      constructor
      · split
        · rename_i htype
          rw [Cell.shown, if_pos htype] at htrees
          cases hitems : cell.items with
          | none => simp_all
          | some j =>
              rw [hitems, Option.toList_some, List.forall₂_cons_left_iff] at htrees
              rcases htrees with ⟨part, _, hpart, _, heq⟩
              rw [heq, Option.bind_some, hpart, List.head?_cons]
        · rfl
      · split
        · rename_i htype
          rw [Cell.shown, if_neg (by simp [htype]), if_pos htype] at htrees
          exact filterMap_properties htrees
        · rfl

/-- The trees of the roots are the forest of the draft. -/
theorem map_fst_of_assembleRoots {trees : List (Param × List Nat)}
    (h : draft.assembleRoots? draft.cells.length = some trees) :
    trees.map Prod.fst = draft.forest := by
  have htrees := mapM_eq_some_iff.mp h
  clear h
  rw [forest]
  generalize draft.roots = roots at htrees
  induction htrees with
  | nil => rfl
  | cons htree _ ih => simp [param?_of_assemble htree, ih]

/-! ## The visits -/

/-- The visits are those of the cells to start from and those that visits lead
to. -/
theorem perm_flatMap_visits {starts : List Nat} {parts : List (Param × List Nat)}
    (h : List.Forall₂ (fun i part => part.2.Perm (i :: part.2.flatMap draft.shownAt)) starts
      parts) :
    (parts.flatMap Prod.snd).Perm
      (starts ++ (parts.flatMap Prod.snd).flatMap draft.shownAt) := by
  induction h with
  | nil => rfl
  | @cons i part starts parts hpart _ ih =>
      simp only [List.flatMap_cons, List.flatMap_append, List.cons_append]
      refine (hpart.append ih).trans ?_
      rw [List.cons_append]
      refine List.Perm.cons i ?_
      rw [← List.append_assoc, ← List.append_assoc]
      exact List.perm_append_comm.append_right _

/-- The visits of a traversal are its start and all that the visited cells show. -/
theorem perm_visits {result : Param × List Nat} (h : draft.assemble? depth i = some result) :
    result.2.Perm (i :: result.2.flatMap draft.shownAt) := by
  induction depth generalizing i result with
  | zero => simp [assemble?] at h
  | succ depth ih =>
      rcases assemble?_succ_eq_some h with ⟨cell, parts, hcell, hparts, rfl⟩
      have hshown : draft.shownAt i = cell.shown := by simp [shownAt, hcell]
      rw [List.flatMap_cons, hshown]
      exact (perm_flatMap_visits (hparts.imp fun _ _ => ih)).cons i

/-- The cells in their order are those under the numbers in their order. -/
theorem flatMap_cells {α : Type} (draft : Draft) (f : Cell → List α) :
    draft.cells.flatMap f =
      (List.range draft.cells.length).flatMap fun i => (draft.cells[i]?.map f).getD [] := by
  have hcells : (List.range draft.cells.length).map (fun i => draft.cells[i]?) =
      draft.cells.map some := by
    refine List.ext_getElem (by simp) ?_
    intro i hi _
    simp only [List.length_map, List.length_range] at hi
    simp [hi]
  have hflat := congrArg (List.flatMap fun cell => (cell.map f).getD []) hcells
  simpa [List.flatMap_map] using hflat.symm

namespace Arranged

/-- A cell shows only cells with a greater number. -/
theorem mem_shownAt (h : draft.Arranged) {j : Nat} (hj : j ∈ draft.shownAt i) :
    i < j ∧ j < draft.cells.length := by
  rw [shownAt] at hj
  cases hcell : draft.cells[i]? with
  | none => simp [hcell] at hj
  | some cell =>
      rw [hcell, Option.map_some, Option.getD_some] at hj
      have hmem := (Cell.shown_sublist cell).mem hj
      refine ⟨h.ascending i cell hcell j hmem, h.lt_length j ?_⟩
      exact List.mem_append_right _
        (List.mem_flatMap.mpr ⟨cell, List.mem_of_getElem? hcell, hmem⟩)

/-- All that shows is referred to, and so shows once. -/
theorem nodup_shown (h : draft.Arranged) :
    (draft.roots ++ (List.range draft.cells.length).flatMap draft.shownAt).Nodup := by
  refine h.nodup_references.sublist ?_
  rw [references, flatMap_cells]
  refine List.Sublist.append_left (List.Sublist.flatMap_right _ ?_) _
  intro i _
  rw [shownAt]
  cases draft.cells[i]? with
  | none => exact List.Sublist.refl _
  | some cell => exact cell.shown_sublist

/-- Only the cells with smaller numbers lead to a cell. -/
theorem count_flatMap_shownAt (h : draft.Arranged) (visits : List Nat) (j : Nat) :
    (visits.flatMap draft.shownAt).count j =
      ((visits.filter (· < j)).flatMap draft.shownAt).count j := by
  induction visits with
  | nil => rfl
  | cons i visits ih =>
      by_cases hij : i < j
      · simp [hij, ih]
      · have hmem : j ∉ draft.shownAt i := fun hmem => hij (h.mem_shownAt hmem).1
        simp [hij, ih, List.count_eq_zero.mpr hmem]

/-- No cell is visited twice. -/
theorem nodup_visits (h : draft.Arranged) {visits : List Nat}
    (hvisits : visits.Perm (draft.roots ++ visits.flatMap draft.shownAt)) : visits.Nodup := by
  have hlt : ∀ j ∈ visits, j < draft.cells.length := by
    intro j hj
    rw [hvisits.mem_iff, List.mem_append, List.mem_flatMap] at hj
    rcases hj with hroot | ⟨i, _, hshown⟩
    · exact h.lt_length j (List.mem_append_left _ hroot)
    · exact (h.mem_shownAt hshown).2
  rw [List.nodup_iff_count]
  intro j
  induction j using Nat.strongRecOn with
  | ind j ih =>
      -- The cells that can lead to this one are visited at most once each.
      have hearly : (visits.filter (· < j)).Nodup := by
        rw [List.nodup_iff_count]
        intro i
        by_cases hij : i < j
        · exact Nat.le_trans (List.filter_sublist.count_le i) (ih i hij)
        · rw [List.count_eq_zero.mpr (by simp [hij])]
          exact Nat.zero_le 1
      have hsubset : visits.filter (· < j) ⊆ List.range draft.cells.length := by
        intro i hi
        exact List.mem_range.mpr (hlt i (List.mem_of_mem_filter hi))
      rcases hearly.subperm hsubset with ⟨early, hperm, hsublist⟩
      calc visits.count j
          = draft.roots.count j + (visits.flatMap draft.shownAt).count j := by
            rw [hvisits.count_eq, List.count_append]
        _ = draft.roots.count j + (early.flatMap draft.shownAt).count j := by
            rw [h.count_flatMap_shownAt, (hperm.flatMap_right draft.shownAt).count_eq]
        _ ≤ draft.roots.count j +
              ((List.range draft.cells.length).flatMap draft.shownAt).count j :=
            Nat.add_le_add_left ((hsublist.flatMap draft.shownAt).count_le j) _
        _ ≤ 1 := by
            rw [← List.count_append]
            exact List.nodup_iff_count.mp h.nodup_shown j

/-- The trees of an arranged draft are assembled in one pass. -/
theorem exists_assembleRoots (h : draft.Arranged) :
    ∃ trees, (∀ depth, draft.cells.length ≤ depth → draft.assembleRoots? depth = some trees) ∧
      trees.map Prod.fst = draft.forest ∧ (trees.flatMap Prod.snd).Nodup := by
  have hroots : ∀ i ∈ draft.roots,
      ∃ tree, ∀ depth, draft.cells.length ≤ depth → draft.assemble? depth i = some tree := by
    intro i hi
    exact h.exists_assemble (h.lt_length i (List.mem_append_left _ hi)) (by omega)
  rcases exists_mapM_eq hroots with ⟨trees, htrees⟩
  have htrees' := htrees draft.cells.length (Nat.le_refl _)
  refine ⟨trees, htrees, map_fst_of_assembleRoots htrees', h.nodup_visits ?_⟩
  exact perm_flatMap_visits ((mapM_eq_some_iff.mp htrees').imp fun _ _ => perm_visits)

end Arranged

/-! ## Every draft -/

/-- The cells of a draft form a forest, whatever the entries: every reference is
to a cell, leads from a smaller number to a larger one and is the only one to its
cell, and the index numbers the cells by path texts that follow the links.  So no
operation on the way asks for a cell that is not there, and the trees are
assembled by a recursion that ends and visits no cell twice. -/
theorem cells_form_forest (entries : List ParamEntry)
    (hpaths : ∀ entry ∈ entries, entry.path.Readable) :
    (ofEntries entries).Arranged ∧
      entries.foldlM add? empty = some (ofEntries entries) ∧
      ∃ trees,
        (∀ depth, (ofEntries entries).cells.length ≤ depth →
          (ofEntries entries).assembleRoots? depth = some trees) ∧
        trees.map Prod.fst = (ofEntries entries).forest ∧
        (trees.flatMap Prod.snd).Nodup := by
  have hrun := completes_ofEntries fun entry hentry => (hpaths entry hentry).named
  exact ⟨hrun.arranged, hrun.strict_eq, hrun.arranged.exists_assembleRoots⟩

/-- Entries that come back to places of earlier ones: an array of arrays becomes an
object and then an array of objects. -/
def crossedEntries : List ParamEntry :=
  [⟨some (.arrayOf (.arrayOf (.named .number))), [⟨['a'], false⟩], []⟩,
   ⟨none, [⟨['b'], true⟩, ⟨['x'], true⟩], []⟩,
   ⟨none, [⟨['a'], false⟩, ⟨['y'], false⟩], []⟩,
   ⟨none, [⟨['a'], true⟩, ⟨['z'], false⟩], []⟩]

theorem cells_form_forest_crossedEntries :
    (∀ entry ∈ crossedEntries, entry.path.Readable) ∧
      (ofEntries crossedEntries).references = [0, 3, 1, 7, 2, 8, 4, 5, 6] ∧
      (ofEntries crossedEntries).Arranged ∧
      crossedEntries.foldlM add? empty = some (ofEntries crossedEntries) ∧
      ∃ trees,
        (∀ depth, (ofEntries crossedEntries).cells.length ≤ depth →
          (ofEntries crossedEntries).assembleRoots? depth = some trees) ∧
        trees.map Prod.fst = (ofEntries crossedEntries).forest ∧
        (trees.flatMap Prod.snd).Nodup := by
  have hpaths : ∀ entry ∈ crossedEntries, entry.path.Readable := by
    intro entry hentry
    simp only [crossedEntries, List.mem_cons, List.not_mem_nil, or_false] at hentry
    rcases hentry with rfl | rfl | rfl | rfl
    · exact ⟨"a".toList, by decide⟩
    · exact ⟨"b[].x[]".toList, by decide⟩
    · exact ⟨"a.y".toList, by decide⟩
    · exact ⟨"a[].z".toList, by decide⟩
  exact ⟨hpaths, by decide, cells_form_forest crossedEntries hpaths⟩

end Draft
end DocComment
