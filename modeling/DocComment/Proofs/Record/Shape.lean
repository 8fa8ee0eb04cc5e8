import DocComment.Proofs.Param.Shape
import DocComment.Proofs.Record.Assembly

/-!
# The shape of records

Whatever the text of a comment, the parameters of its record keep the rules of
the data model at every depth, and looking a parameter or a property up by its
name finds that very node.

Main results:

- Theorem `Branch.TidyList.map_title_forest`: the titles of the trees are the
  names of the branches.
- Theorem `Record.param?_eq`: with distinct titles, a title leads to its
  parameter.
- Theorem `Record.ofComment_params_fit`: the rules hold for the record of every
  comment.
-/

namespace DocComment

namespace Branch

/-- Every root of a forest is a pruned branch. -/
theorem mem_forest {branches : List (Text × Branch)} {root : Param}
    (h : root ∈ forest branches) :
    ∃ name branch, (name, branch) ∈ branches ∧ root = prune branch := by
  rcases List.mem_map.mp h with ⟨⟨name, branch⟩, hmem, rfl⟩
  exact ⟨name, branch, hmem, rfl⟩

/-- The titles of the trees are the names of the branches. -/
theorem TidyList.map_title_forest {branches : List (Text × Branch)} (h : TidyList branches) :
    (forest branches).map Param.title = branches.map Prod.fst := by
  rw [forest, List.map_map]
  refine List.map_congr_left ?_
  intro branch hmem
  rw [Function.comp_apply, title_prune]
  exact h.labels.title_eq branch.1 branch.2 hmem

end Branch

namespace Record

/-- A root with a title of its own is found by it. -/
theorem find?_title_eq {params : List Param} (hnodup : (params.map Param.title).Nodup)
    {root : Param} (hroot : root ∈ params) :
    (params.find? fun param => param.title == root.title) = some root := by
  induction params with
  | nil => simp at hroot
  | cons first rest ih =>
      simp only [List.map_cons, List.nodup_cons] at hnodup
      rcases List.mem_cons.mp hroot with rfl | hrest
      · simp
      · have hne : first.title ≠ root.title := by
          intro heq
          exact hnodup.1 (heq ▸ List.mem_map_of_mem hrest)
        rw [List.find?_cons_of_neg (by simpa using hne)]
        exact ih hnodup.2 hrest

/-- With distinct titles, a title leads to the parameter that has it. -/
theorem param?_eq {record : Record} (hnodup : (record.params.map Param.title).Nodup)
    {root : Param} (hroot : root ∈ record.params) : record.param? root.title = some root :=
  find?_title_eq hnodup hroot

/-- The branches behind the parameters of a comment are tidy. -/
theorem exists_tidyList_ofComment (raw : Text) :
    ∃ branches, Branch.TidyList branches ∧ (ofComment raw).params = Branch.forest branches := by
  refine ⟨_, Branch.tidyList_ofEntries ?_, params_ofSections _⟩
  intro entry hentry
  rcases List.mem_filterMap.mp hentry with ⟨line, _, hline⟩
  exact (Tag.readable_of_entryOf? hline).named

/-- Every node of the parameters of a comment keeps the rules of the data model,
the top-level parameters have distinct identifiers for titles, and every node is
found under its own title or key. -/
theorem ofComment_params_fit (raw : Text) :
    (∀ root ∈ (ofComment raw).params, ∀ node, root.Within node → node.Fits) ∧
      ((ofComment raw).params.map Param.title).Nodup ∧
      (∀ root ∈ (ofComment raw).params, Text.isIdentifier root.title = true) ∧
      (∀ root ∈ (ofComment raw).params, (ofComment raw).param? root.title = some root) ∧
      (∀ root ∈ (ofComment raw).params, ∀ node, root.Within node →
        ∀ key property, (key, property) ∈ node.properties →
          node.property? key = some property) := by
  rcases exists_tidyList_ofComment raw with ⟨branches, htidy, hparams⟩
  have hfits : ∀ root ∈ (ofComment raw).params, ∀ node, root.Within node → node.Fits := by
    intro root hroot node hnode
    rw [hparams] at hroot
    rcases Branch.mem_forest hroot with ⟨name, branch, hmem, rfl⟩
    exact (htidy.tidy name branch hmem).fits_of_within hnode
  have hnodup : ((ofComment raw).params.map Param.title).Nodup := by
    rw [hparams, htidy.map_title_forest]
    exact htidy.labels.nodup
  refine ⟨hfits, hnodup, ?_, fun root => param?_eq hnodup, ?_⟩
  · intro root hroot
    rw [hparams] at hroot
    rcases Branch.mem_forest hroot with ⟨name, branch, hmem, rfl⟩
    rw [Branch.title_prune, htidy.labels.title_eq name branch hmem]
    exact htidy.labels.identifier name branch hmem
  · intro root hroot node hnode key property hmem
    exact (hfits root hroot node hnode).property?_eq hmem

end Record
end DocComment
