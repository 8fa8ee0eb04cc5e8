import DocComment.Proofs.Param.Place
import DocComment.Proofs.Record.Kinds

/-!
# Repeated entries

An entry that is taken in a second time, right after the first, changes nothing:
not the trees, not the cells and not the index.  For branches this is a law of
their insertion.  A draft follows because it moves only where its branches do: an
entry that leaves the stored branches alone creates no cell and changes none.

Main results:

- Theorem `Branch.insert_insert`: inserting an entry twice is inserting it once.
- Theorems `Draft.applyType_eq_self`, `Draft.define_eq_self` and
  `Draft.follow_eq_self`: the parts of a draft that an entry leaves alone because
  the stored branch is as the entry would make it.
- Theorem `Draft.Represents.add_eq_self`: an entry that leaves the stored branches
  alone leaves the draft alone.
- Theorem `Record.repeated_entry_idle`: a repeated entry changes neither the draft
  nor the record of a comment.
-/

namespace DocComment

/-! ## Branches -/

namespace Branch

/-- Giving a type twice is giving it once. -/
theorem applyType_applyType (type : TypeExpr) (branch : Branch) :
    applyType type (applyType type branch) = applyType type branch := by
  induction type generalizing branch with
  | named name => rfl
  | anyArray => rfl
  | arrayOf element ih =>
      simp only [applyType, itemsOrFresh, Option.getD_some]
      rw [ih]

theorem with_description_eq {branch : Branch} {description : Text}
    (h : branch.description = description) : { branch with description } = branch := by
  cases branch
  subst h
  rfl

/-- Writing an entry twice is writing it once. -/
theorem define_define (entry : ParamEntry) (marked : Bool) (branch : Branch) :
    define entry marked (define entry marked branch) = define entry marked branch := by
  -- The description is there already, and the properties decide as before.
  rw [define_eq entry marked (define entry marked branch),
    with_description_eq (description_define entry marked branch), properties_define]
  split
  · rename_i hobject
    rw [define_eq, if_pos hobject]
  · rename_i hobject
    rw [define_eq, if_neg hobject, applyType_applyType]

/-- Inserting an entry along a path twice is inserting it once. -/
theorem insertAt_insertAt (entry : ParamEntry) (path : FieldPath)
    (branches : List (Text × Branch)) :
    insertAt entry path (insertAt entry path branches) = insertAt entry path branches := by
  induction path generalizing branches with
  | nil => rfl
  | cons step rest ih =>
      have hvisit : visit entry step rest ∘ visit entry step rest = visit entry step rest := by
        funext branch
        cases rest with
        | nil => exact define_define entry step.marked branch
        | cons next rest =>
            simp only [Function.comp_apply, visit]
            split
            · simp only [itemsOrFresh, Option.getD_some, ih]
            · simp only [ih]
      rw [insertAt_cons, insertAt_cons, upsert_upsert, hvisit]

/-- Inserting an entry twice is inserting it once. -/
theorem insert_insert (branches : List (Text × Branch)) (entry : ParamEntry) :
    insert (insert branches entry) entry = insert branches entry :=
  insertAt_insertAt entry entry.path branches

/-- A list that a change at one name leaves alone has the name, with a branch that
the change leaves alone. -/
theorem exists_mem_of_upsert_eq_self {name : Text} {change : Branch → Branch}
    {branches : List (Text × Branch)} (h : upsert name change branches = branches) :
    ∃ branch, (name, branch) ∈ branches ∧ change branch = branch := by
  fun_induction upsert name change branches with
  | case1 => simp at h
  | case2 branch rest =>
      simp only [List.cons.injEq, Prod.mk.injEq, true_and, and_true] at h
      exact ⟨branch, List.mem_cons_self, h⟩
  | case3 key branch rest hne ih =>
      simp only [List.cons.injEq, true_and] at h
      rcases ih h with ⟨found, hmem, hfound⟩
      exact ⟨found, List.mem_cons_of_mem _ hmem, hfound⟩

end Branch

/-! ## Drafts that have nothing to do -/

namespace Draft

open Key

/-- A change that leaves a cell alone leaves the draft alone. -/
theorem modify_eq_self {draft : Draft} {i : Nat} {cell : Cell} {change : Cell → Cell}
    (hcell : draft.cells[i]? = some cell) (hchange : change cell = cell) :
    draft.modify i change = draft := by
  have hcells : draft.cells.modify i change = draft.cells := by
    apply List.ext_getElem?
    intro j
    rw [List.getElem?_modify]
    by_cases hj : i = j
    · simp [← hj, hcell, hchange]
    · simp [hj]
  rw [modify, hcells]

section Stored

variable {draft : Draft} {key : Text} {i : Nat} {branch : Branch}

/-- Setting the type that a cell has changes nothing. -/
theorem setType_eq_self (hstored : Stored draft key branch)
    (hi : draft.index.lookup key = some i) {type : TypeName} (h : branch.type = type) :
    draft.setType i type = draft := by
  rcases hstored.shows hi with ⟨cell, hshows⟩
  refine modify_eq_self hshows.cell_eq ?_
  rw [← h, ← hshows.type_eq]

/-- Setting the description that a cell has changes nothing. -/
theorem setDescription_eq_self (hstored : Stored draft key branch)
    (hi : draft.index.lookup key = some i) {description : Text}
    (h : branch.description = description) : draft.setDescription i description = draft := by
  rcases hstored.shows hi with ⟨cell, hshows⟩
  refine modify_eq_self hshows.cell_eq ?_
  rw [← h, ← hshows.description_eq]

/-- An array with items is not changed by asking for the items. -/
theorem itemsOf_eq_self (hstored : Stored draft key branch)
    (hi : draft.index.lookup key = some i) (htype : branch.type = .array) {item : Branch}
    (hitem : branch.items = some item) :
    ∃ j, (draft.setType i .array).itemsOf i key = (draft, j) ∧
      draft.index.lookup (key ++ brackets) = some j ∧ Stored draft (key ++ brackets) item := by
  rcases hstored.shows hi with ⟨cell, hshows⟩
  rcases hshows.items_some item hitem with ⟨j, hcell, hnumber, _⟩
  refine ⟨j, ?_, hnumber, hstored.of_items hitem⟩
  rw [setType_eq_self hstored hi htype]
  simp [itemsOf, hshows.cell_eq, hcell]

/-- A type expression that the stored branch has already changes nothing. -/
theorem applyType_eq_self (hstored : Stored draft key branch)
    (hi : draft.index.lookup key = some i) {type : TypeExpr}
    (h : Branch.applyType type branch = branch) : draft.applyType i key type = draft := by
  induction type generalizing key i branch with
  | named name => exact setType_eq_self hstored hi (congrArg Branch.type h).symm
  | anyArray => exact setType_eq_self hstored hi (congrArg Branch.type h).symm
  | arrayOf element ih =>
      have hitem : branch.items = some (Branch.applyType element branch.itemsOrFresh) :=
        (congrArg Branch.items h).symm
      rcases itemsOf_eq_self hstored hi (congrArg Branch.type h).symm hitem with
        ⟨j, hitems, hj, hbelow⟩
      simp only [applyType, hitems]
      exact ih hbelow hj (Branch.applyType_applyType element branch.itemsOrFresh)

/-- An entry whose description and type the stored branch has already changes
nothing at the place that it describes. -/
theorem define_eq_self (hstored : Stored draft key branch)
    (hi : draft.index.lookup key = some i) {marked : Bool} {entry : ParamEntry}
    (h : Branch.define entry marked branch = branch) :
    draft.define i key marked entry = draft := by
  have hdescription : branch.description = entry.description := by
    rw [← h, Branch.description_define]
  simp only [Branch.define, Branch.with_description_eq hdescription] at h
  simp only [define, setDescription_eq_self hstored hi hdescription, hasProperties_eq hstored hi]
  split at h
  · rename_i hmarked
    have hitem : branch.items =
        some (Branch.applyType (entry.type.getD (.named .string)) branch.itemsOrFresh) :=
      (congrArg Branch.items h).symm
    rcases itemsOf_eq_self hstored hi (congrArg Branch.type h).symm hitem with
      ⟨j, hitems, hj, hbelow⟩
    rw [if_pos hmarked, hitems]
    exact applyType_eq_self hbelow hj (Branch.applyType_applyType _ branch.itemsOrFresh)
  · rename_i hmarked
    rw [if_neg hmarked]
    split at h
    · rename_i hobject
      rw [if_pos hobject]
      exact setType_eq_self hstored hi (congrArg Branch.type h).symm
    · rename_i hobject
      rw [if_neg hobject]
      exact applyType_eq_self hstored hi h

/-- Working at the cell of one step changes nothing when the stored branch is as
the entry would make it, given the same of the steps to go. -/
theorem visit_eq_self {entry : ParamEntry} {step : Step} {rest : FieldPath}
    (hfollow : ∀ {key : Text} {i : Nat} {branch : Branch}, Stored draft key branch →
      draft.index.lookup key = some i →
        Branch.insertAt entry rest branch.properties = branch.properties →
          follow entry draft (some i) key rest = draft)
    (hstored : Stored draft key branch) (hi : draft.index.lookup key = some i)
    (h : Branch.visit entry step rest branch = branch) :
    visit entry draft i key step rest = draft := by
  cases rest with
  | nil => exact define_eq_self hstored hi h
  | cons next rest =>
      simp only [Branch.visit] at h
      simp only [visit]
      split at h
      · rename_i hmarked
        have hitem := (congrArg Branch.items h).symm
        rcases itemsOf_eq_self hstored hi (congrArg Branch.type h).symm hitem with
          ⟨j, hitems, hj, hbelow⟩
        rw [if_pos hmarked, hitems]
        simp only [setType_eq_self hbelow hj rfl]
        exact hfollow hbelow hj (Branch.insertAt_insertAt entry (next :: rest) _)
      · rename_i hmarked
        rw [if_neg hmarked, setType_eq_self hstored hi (congrArg Branch.type h).symm]
        exact hfollow hstored hi (congrArg Branch.properties h)

/-- Following the steps of an entry below a place changes nothing when the
properties of the stored branch are as the entry would make them. -/
theorem follow_eq_self {entry : ParamEntry} {path : FieldPath} (hstored : Stored draft key branch)
    (hi : draft.index.lookup key = some i)
    (h : Branch.insertAt entry path branch.properties = branch.properties) :
    follow entry draft (some i) key path = draft := by
  induction path generalizing key i branch with
  | nil => rfl
  | cons step rest ih =>
      rw [Branch.insertAt_cons] at h
      rcases Branch.exists_mem_of_upsert_eq_self h with ⟨property, hmem, hproperty⟩
      rcases hstored.shows hi with ⟨cell, hshows⟩
      have hfound := ((hshows.storedLinks hstored).mem_iff (hshows.isIdentifier_of_mem hmem)).mp
        (List.mem_map_of_mem hmem)
      rcases Option.isSome_iff_exists.mp hfound with ⟨j, hj⟩
      have hchild : draft.child (some i) (extend key step.name) step.name = (draft, j) := by
        simp [child, hj]
      simp only [follow_cons, hchild]
      exact visit_eq_self ih (hstored.of_properties hmem) hj hproperty

end Stored

/-- An entry that leaves the stored branches alone leaves the draft alone: it
creates no cell and changes none. -/
theorem Represents.add_eq_self {draft : Draft} {branches : List (Text × Branch)}
    (h : Represents draft branches) {entry : ParamEntry}
    (hfixed : Branch.insert branches entry = branches) : draft.add entry = draft := by
  unfold Branch.insert at hfixed
  unfold Draft.add
  cases hsteps : entry.path with
  | nil => rfl
  | cons step rest =>
      rw [hsteps, Branch.insertAt_cons] at hfixed
      rcases Branch.exists_mem_of_upsert_eq_self hfixed with ⟨root, hmem, hroot⟩
      rcases h.roots with ⟨links, _, hlinks⟩
      have hfound := (hlinks.mem_iff (hlinks.isIdentifier_of_mem hmem)).mp
        (List.mem_map_of_mem hmem)
      rcases Option.isSome_iff_exists.mp hfound with ⟨i, hi⟩
      have hchild : draft.child none (extend [] step.name) step.name = (draft, i) := by
        simp [child, hi]
      simp only [follow_cons, hchild]
      exact visit_eq_self follow_eq_self (hlinks.stored _ root hmem) hi hroot

/-- Taking in an entry twice is taking it in once. -/
theorem add_add_of_named {entries : List ParamEntry} {entry : ParamEntry}
    (hpaths : ∀ entry' ∈ entries, entry'.path.Named) (hpath : entry.path.Named) :
    ((ofEntries entries).add entry).add entry = (ofEntries entries).add entry :=
  ((represents_ofEntries hpaths).add hpath).add_eq_self (Branch.insert_insert _ entry)

end Draft

/-! ## Records -/

/-- A line that is read as a tag together with its continuation starts the tag
itself. -/
theorem Tag.startsTag_of_parse?_append {line : Text} {continuation : List Text} {tag : Tag}
    (h : Tag.parse? (line ++ (Comment.foldLines continuation).1) = some tag) :
    Comment.startsTag line = true := by
  have hlabel : ∃ label, Tag.label? (line ++ (Comment.foldLines continuation).1) = some label := by
    simp only [Tag.parse?, Option.bind_eq_bind, Option.bind_eq_some_iff] at h
    exact h.imp fun _ => And.left
  rcases hlabel with ⟨label, hlabel⟩
  have hstarts := Tag.startsTag_of_label? hlabel
  cases line with
  | cons c rest => exact hstarts
  | nil =>
      -- A continuation starts with a space, not with an at sign.
      have hhead : '@' ∈ (Comment.foldLines continuation).1.head? := by
        simpa [Comment.startsTag] using hstarts
      exact absurd (Comment.eq_space_of_mem_head?_foldLines hhead) (by decide)

namespace Record

/-- A line of an entry may be doubled. -/
theorem ofSections_repeat (prose : List Text) {earlier later : List Text} {line : Text}
    {entry : ParamEntry} (h : Tag.parse? line = some (.param entry)) :
    ofSections ⟨prose, earlier ++ line :: line :: later⟩ =
      ofSections ⟨prose, earlier ++ line :: later⟩ := by
  have hname : Tag.nameOf? line = none := by rw [Tag.nameOf?, h]
  have hthrows : Tag.throwsOf? line = none := by rw [Tag.throwsOf?, h]
  have hentry : Tag.entryOf? line = some entry := by rw [Tag.entryOf?, h]
  have hpaths : ∀ entry' ∈ earlier.filterMap Tag.entryOf?, entry'.path.Named := by
    intro entry' hentry'
    rcases List.mem_filterMap.mp hentry' with ⟨tag, _, htag⟩
    exact (Tag.readable_of_entryOf? htag).named
  have hentries : Draft.ofEntries ((earlier ++ line :: line :: later).filterMap Tag.entryOf?) =
      Draft.ofEntries ((earlier ++ line :: later).filterMap Tag.entryOf?) := by
    have hadd := Draft.add_add_of_named hpaths (Tag.readable_of_entryOf? hentry).named
    simp only [Draft.ofEntries] at hadd
    simp only [List.filterMap_append, List.filterMap_cons_some hentry, Draft.ofEntries,
      List.foldl_append, List.foldl_cons, hadd]
  rw [ofSections_eq_kinds, ofSections_eq_kinds]
  simp only [Tag.findSome?_insert (.inl hname), Tag.findSome?_insert (.inl hthrows), hentries]

/-- Repeating an entry at once changes nothing.  Whatever entries a draft has taken
in, one more entry leaves it the same, cell by cell and with the same index,
whether it is taken in once or twice in a row.  So a parameter tag may be doubled
in place, among the tags or among the lines of a comment, and the record stays. -/
theorem repeated_entry_idle :
    (∀ (entries : List ParamEntry) (entry : ParamEntry),
      (∀ entry' ∈ entries, entry'.path.Readable) → entry.path.Readable →
      ((Draft.ofEntries entries).add entry).add entry = (Draft.ofEntries entries).add entry) ∧
    (∀ (prose earlier later : List Text) (line : Text) (entry : ParamEntry),
      Tag.parse? line = some (.param entry) →
      ofSections ⟨prose, earlier ++ line :: line :: later⟩ =
        ofSections ⟨prose, earlier ++ line :: later⟩) ∧
    (∀ (before continuation after : List Text) (line : Text) (entry : ParamEntry),
      (∀ more ∈ continuation, Comment.startsTag more = false) →
      Comment.OpensTag after →
      Tag.parse? (line ++ (Comment.foldLines continuation).1) = some (.param entry) →
      ofLines (before ++ line :: (continuation ++ line :: (continuation ++ after))) =
        ofLines (before ++ line :: (continuation ++ after))) := by
  refine ⟨?_, ?_, ?_⟩
  · intro entries entry hpaths hpath
    exact Draft.add_add_of_named (fun entry' hmem => (hpaths entry' hmem).named) hpath.named
  · intro prose earlier later line entry hline
    exact ofSections_repeat prose hline
  · intro before continuation after line entry hcontinuation hafter hline
    have hstarts := Tag.startsTag_of_parse?_append hline
    have hagain := Comment.opensTag_cons hstarts (continuation ++ after)
    rw [ofLines, ofLines, Comment.ofLines_append_tag before hstarts hcontinuation hagain,
      Comment.ofLines_append_tag before hstarts hcontinuation hafter,
      Comment.foldLines_snd_of_tag hstarts hcontinuation hafter]
    exact ofSections_repeat _ hline

/-- Entries after which one place has both items and properties. -/
def mixedEntries : List ParamEntry :=
  [⟨none, [⟨['a'], true⟩, ⟨['x'], false⟩], []⟩,
   ⟨some (.named .number), [⟨['a'], false⟩, ⟨['y'], false⟩], ['d']⟩]

/-- An entry that makes the place an array of arrays. -/
def nestedEntry : ParamEntry :=
  ⟨some (.arrayOf (.arrayOf .anyArray)), [⟨['a'], true⟩], ['e']⟩

theorem repeated_nestedEntry_idle :
    ((Draft.ofEntries mixedEntries).add nestedEntry).add nestedEntry =
        (Draft.ofEntries mixedEntries).add nestedEntry ∧
      ofLines (loadLines ++ "@param row.cells[].id".toList ::
          (["The key.".toList] ++ "@param row.cells[].id".toList ::
            (["The key.".toList] ++ rowLines))) =
        ofLines (loadLines ++ "@param row.cells[].id".toList ::
          (["The key.".toList] ++ rowLines)) := by
  obtain ⟨hdraft, _, hlines⟩ := repeated_entry_idle
  constructor
  · refine hdraft mixedEntries nestedEntry ?_ ⟨"a[]".toList, by decide⟩
    intro entry hentry
    simp only [mixedEntries, List.mem_cons, List.not_mem_nil, or_false] at hentry
    rcases hentry with rfl | rfl
    · exact ⟨"a[].x".toList, by decide⟩
    · exact ⟨"a.y".toList, by decide⟩
  · refine hlines _ _ _ _ ⟨none, [⟨"row".toList, false⟩, ⟨"cells".toList, true⟩,
      ⟨"id".toList, false⟩], "The key.".toList⟩ (by decide) ?_ (by decide)
    unfold Comment.OpensTag
    decide

end Record
end DocComment
