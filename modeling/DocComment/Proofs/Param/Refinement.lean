import DocComment.Proofs.Param.Storage

/-!
# Drafts refine growing branches

A draft takes in an entry by following links between numbered cells; a forest of
branches takes it in by walking down its own structure.  This module shows that
the two stay in step: the draft of a list of entries stores the branches of the
list, so both give the same parameter trees.

Main results:

- Theorems `Draft.reworked_applyType` and `Draft.reworked_define`: what the last
  step of a path does to the branch stored there.
- Theorem `Draft.reworked_follow`: what the rest of a path does below a place.
- Theorem `Draft.represents_ofEntries`: the draft of a list of entries stores the
  branches of the list.
- Theorem `Draft.Represents.forest_eq`: a draft has the parameter trees of the
  branches that it stores.
-/

namespace DocComment

/-! ## Changing one branch of a list -/

namespace Branch

/-- Changing a branch twice is changing it by both changes. -/
theorem upsert_upsert (name : Text) (change change' : Branch → Branch)
    (branches : List (Text × Branch)) :
    upsert name change' (upsert name change branches) =
      upsert name (change' ∘ change) branches := by
  fun_induction upsert name change branches with
  | case1 => simp [upsert]
  | case2 branch rest => simp [upsert]
  | case3 key branch rest hne ih => simp [upsert, hne, ih]

/-- A name that is there stands for a branch. -/
theorem exists_mem_of_name_mem {name : Text} {branches : List (Text × Branch)}
    (h : name ∈ branches.map Prod.fst) : ∃ branch, (name, branch) ∈ branches := by
  rcases List.mem_map.mp h with ⟨⟨_, branch⟩, hmem, rfl⟩
  exact ⟨branch, hmem⟩

/-- An insertion under a name that is there keeps the names. -/
theorem map_fst_upsert_of_mem {name : Text} (change : Branch → Branch)
    {branches : List (Text × Branch)} (h : name ∈ branches.map Prod.fst) :
    (upsert name change branches).map Prod.fst = branches.map Prod.fst := by
  fun_induction upsert name change branches with
  | case1 => simp at h
  | case2 branch rest => rfl
  | case3 key branch rest hne ih =>
      simp only [List.map_cons, List.mem_cons] at h
      simp only [List.map_cons]
      rw [ih (h.resolve_left fun heq => hne heq.symm)]

/-- An insertion under a new name adds a branch at the end. -/
theorem upsert_of_notMem {name : Text} (change : Branch → Branch)
    {branches : List (Text × Branch)} (h : name ∉ branches.map Prod.fst) :
    upsert name change branches = branches ++ [(name, change (fresh name))] := by
  fun_induction upsert name change branches with
  | case1 => rfl
  | case2 branch rest => simp at h
  | case3 key branch rest hne ih =>
      simp only [List.map_cons, List.mem_cons, not_or] at h
      rw [ih h.2]
      rfl

/-- A branch of the changed list is an old branch under another name, or the
change of the branch with the name. -/
theorem mem_upsert_of_nodup {name key : Text} {change : Branch → Branch} {branch : Branch}
    {branches : List (Text × Branch)} (hnodup : (branches.map Prod.fst).Nodup)
    (hname : name ∈ branches.map Prod.fst)
    (h : (key, branch) ∈ upsert name change branches) :
    (key ≠ name ∧ (key, branch) ∈ branches) ∨
      (key = name ∧ ∃ old, (name, old) ∈ branches ∧ branch = change old) := by
  fun_induction upsert name change branches with
  | case1 => simp at hname
  | case2 old rest =>
      simp only [List.map_cons, List.nodup_cons] at hnodup
      rcases List.mem_cons.mp h with heq | hmem
      · cases heq
        exact .inr ⟨rfl, old, List.mem_cons_self, rfl⟩
      · refine .inl ⟨?_, List.mem_cons_of_mem _ hmem⟩
        rintro rfl
        exact hnodup.1 (List.mem_map_of_mem hmem)
  | case3 first old rest hne ih =>
      simp only [List.map_cons, List.nodup_cons, List.mem_cons] at hnodup hname
      rcases List.mem_cons.mp h with heq | hmem
      · cases heq
        exact .inl ⟨hne, List.mem_cons_self⟩
      · rcases ih hnodup.2 (hname.resolve_left fun heq => hne heq.symm) hmem with
          ⟨hkey, hold⟩ | ⟨hkey, old', hold, hchange⟩
        · exact .inl ⟨hkey, List.mem_cons_of_mem _ hold⟩
        · exact .inr ⟨hkey, old', List.mem_cons_of_mem _ hold, hchange⟩

/-- Take in an entry at the branch of one step, with the given steps to go. -/
def visit (entry : ParamEntry) (step : Step) : FieldPath → Branch → Branch
  | [], branch => define entry step.marked branch
  | next :: rest, branch =>
    if step.marked then
      { branch with
        type := .array
        items := some
          { branch.itemsOrFresh with
            type := .object
            properties := insertAt entry (next :: rest) branch.itemsOrFresh.properties } }
    else
      { branch with
        type := .object
        properties := insertAt entry (next :: rest) branch.properties }

/-! ## Pruning as a map -/

/-- Properties are pruned one by one. -/
theorem pruneProperties_eq_map (properties : List (Text × Branch)) :
    pruneProperties properties = properties.map fun property => (property.1, prune property.2) := by
  induction properties with
  | nil => rfl
  | cons property properties ih => simp [pruneProperties, ih]

/-- What pruning does to the fields of a branch. -/
theorem prune_eq (branch : Branch) :
    prune branch =
      { title := branch.title
        type := branch.type
        description := branch.description
        items := if branch.type = .array then branch.items.map prune else none
        properties :=
          if branch.type = .object then
            branch.properties.map fun property => (property.1, prune property.2)
          else [] } := by
  rcases branch with ⟨title, type, description, items, properties⟩
  simp only [prune, pruneProperties_eq_map]
  cases items <;> rfl

/-- An insertion visits the branch of its first step. -/
theorem insertAt_cons (entry : ParamEntry) (step : Step) (rest : FieldPath)
    (branches : List (Text × Branch)) :
    insertAt entry (step :: rest) branches = upsert step.name (visit entry step rest) branches := by
  cases rest <;> rfl

end Branch

namespace Draft

open Key

/-! ## Types and descriptions -/

/-- Making a cell an array and working on its items changes the stored branch
into an array with the changed items. -/
theorem reworked_array {draft after : Draft} {key : Text} {i : Nat} {branch item : Branch}
    (hindexed : draft.Indexed) (hstored : Stored draft key branch)
    (hi : draft.index.lookup key = some i)
    (h : let items := (draft.setType i .array).itemsOf i key
      items.1.Indexed → items.1.index.lookup (key ++ brackets) = some items.2 →
        Stored items.1 (key ++ brackets) branch.itemsOrFresh →
          Reworked items.1 after (key ++ brackets) item) :
    Reworked draft after key { branch with type := .array, items := some item } := by
  have htype := reworked_setType hindexed hstored hi .array
  rcases reworked_itemsOf htype.indexed htype.stored hi with ⟨hitems, hnumber⟩
  have hwork := h hitems.indexed hnumber (hitems.stored.of_items rfl)
  exact (htype.trans hitems).trans (hwork.of_items hitems.stored rfl)

/-- Giving a cell a type expression gives it to the stored branch. -/
theorem reworked_applyType {draft : Draft} {key : Text} {i : Nat} {branch : Branch}
    (hindexed : draft.Indexed) (hstored : Stored draft key branch)
    (hi : draft.index.lookup key = some i) (type : TypeExpr) :
    Reworked draft (draft.applyType i key type) key (Branch.applyType type branch) := by
  induction type generalizing draft key i branch with
  | named name => exact reworked_setType hindexed hstored hi name
  | anyArray => exact reworked_setType hindexed hstored hi .array
  | arrayOf element ih =>
      simp only [applyType, Branch.applyType]
      exact reworked_array hindexed hstored hi fun hindexed' hnumber hitems =>
        ih hindexed' hitems hnumber

/-- A cell has properties exactly when the branch that it stores does. -/
theorem hasProperties_eq {draft : Draft} {key : Text} {i : Nat} {branch : Branch}
    (hstored : Stored draft key branch) (hi : draft.index.lookup key = some i) :
    draft.hasProperties i = !branch.properties.isEmpty := by
  rcases hstored.shows hi with ⟨cell, hshows⟩
  have hempty : cell.properties.isEmpty = branch.properties.isEmpty := by
    rw [← List.isEmpty_map (f := Prod.fst), hshows.names_eq, List.isEmpty_map]
  simp [hasProperties, hshows.cell_eq, hempty]

/-- Describing a cell by an entry describes the stored branch by it. -/
theorem reworked_define {draft : Draft} {key : Text} {i : Nat} {branch : Branch}
    (hindexed : draft.Indexed) (hstored : Stored draft key branch)
    (hi : draft.index.lookup key = some i) (marked : Bool) (entry : ParamEntry) :
    Reworked draft (draft.define i key marked entry) key (Branch.define entry marked branch) := by
  have hdescribed := reworked_setDescription hindexed hstored hi entry.description
  have hi' := hdescribed.number.trans hi
  refine hdescribed.trans ?_
  simp only [define, Branch.define, hasProperties_eq hdescribed.stored hi']
  split
  · exact reworked_array hdescribed.indexed hdescribed.stored hi'
      fun hindexed' hnumber hitems => reworked_applyType hindexed' hitems hnumber _
  · split
    · exact reworked_setType hdescribed.indexed hdescribed.stored hi' .object
    · exact reworked_applyType hdescribed.indexed hdescribed.stored hi' _

/-! ## Lists of branches -/

/-- The draft stores a list of branches under the names of the given links. -/
structure StoredLinks (draft : Draft) (key : Text) (least : Nat) (links : List (Text × Nat))
    (branches : List (Text × Branch)) : Prop where
  names_eq : links.map Prod.fst = branches.map Prod.fst
  links : Links draft key least links
  stored : ∀ name branch, (name, branch) ∈ branches → Stored draft (extend key name) branch

/-- The names of stored branches are identifiers. -/
theorem StoredLinks.isIdentifier_of_mem {draft : Draft} {key : Text} {least : Nat}
    {links : List (Text × Nat)} {branches : List (Text × Branch)}
    (h : StoredLinks draft key least links branches) {name : Text} {branch : Branch}
    (hmem : (name, branch) ∈ branches) : Text.isIdentifier name = true := by
  have hname : name ∈ links.map Prod.fst := by
    rw [h.names_eq]
    exact List.mem_map_of_mem hmem
  rcases List.mem_map.mp hname with ⟨link, hlink, rfl⟩
  exact h.links.identifier link hlink

/-- A name is found below a place exactly when it is one of its names. -/
theorem StoredLinks.mem_iff {draft : Draft} {key : Text} {least : Nat}
    {links : List (Text × Nat)} {branches : List (Text × Branch)}
    (h : StoredLinks draft key least links branches) {name : Text}
    (hname : Text.isIdentifier name = true) :
    name ∈ branches.map Prod.fst ↔ (draft.index.lookup (extend key name)).isSome = true := by
  rw [← h.names_eq]
  constructor
  · intro hmem
    rcases List.mem_map.mp hmem with ⟨link, hlink, rfl⟩
    simp [h.links.number link hlink]
  · intro hsome
    by_cases hmem : name ∈ links.map Prod.fst
    · exact hmem
    · rw [h.links.absent name hname hmem _ (Below.refl _)] at hsome
      simp at hsome

/-- Changing what is stored under one of the names. -/
theorem StoredLinks.rework {before after : Draft} {key : Text} {least : Nat}
    {links : List (Text × Nat)} {branches : List (Text × Branch)}
    (h : StoredLinks before key least links branches) {name : Text}
    (hmem : name ∈ branches.map Prod.fst) {change : Branch → Branch}
    (hwork : ∀ old, (name, old) ∈ branches →
      Reworked before after (extend key name) (change old)) :
    StoredLinks after key least links (Branch.upsert name change branches) := by
  rcases Branch.exists_mem_of_name_mem hmem with ⟨old, hold⟩
  have hchanged := hwork old hold
  have hname := h.isIdentifier_of_mem hold
  -- A text below another name is outside of the change.
  have houtside : ∀ name' text, Text.isIdentifier name' = true → name' ≠ name →
      Below (extend key name') text → ¬ Below (extend key name) text := by
    intro name' text hname' hne htext hbelow
    exact hne (eq_of_below_extend hname' hname htext hbelow)
  refine ⟨?_, ?_, ?_⟩
  · rw [Branch.map_fst_upsert_of_mem change hmem, h.names_eq]
  · refine ⟨?_, h.links.least_le, h.links.identifier, h.links.nodup, ?_⟩
    · intro link hlink
      by_cases heq : link.1 = name
      · rw [heq, hchanged.number, ← heq]
        exact h.links.number link hlink
      · rw [(hchanged.outside _ (houtside _ _ (h.links.identifier link hlink) heq
          (Below.refl _))).1]
        exact h.links.number link hlink
    · intro name' hname' hmem' text htext
      have hne : name' ≠ name := by
        rintro rfl
        rw [h.names_eq] at hmem'
        exact hmem' hmem
      rw [(hchanged.outside text (houtside name' text hname' hne htext)).1]
      exact h.links.absent name' hname' hmem' text htext
  · intro name' branch hbranch
    have hnodup : (branches.map Prod.fst).Nodup := h.names_eq ▸ h.links.nodup
    rcases Branch.mem_upsert_of_nodup hnodup hmem hbranch with
      ⟨hne, hbranch⟩ | ⟨rfl, old', hold', rfl⟩
    · exact (h.stored name' branch hbranch).congr
        (hchanged.outside.mono fun text =>
          houtside name' text (h.isIdentifier_of_mem hbranch) hne)
    · exact (hwork old' hold').stored

/-- Entering a fresh cell under a new name. -/
theorem StoredLinks.graft {before after : Draft} {key : Text} {least : Nat}
    {links : List (Text × Nat)} {branches : List (Text × Branch)}
    (h : StoredLinks before key least links branches) {name : Text}
    (hname : Text.isIdentifier name = true) (hmem : name ∉ branches.map Prod.fst)
    (hleast : least ≤ before.cells.length)
    (hgraft : Grafted before after key (extend key name) name) :
    StoredLinks after key least (links ++ [(name, before.cells.length)])
      (Branch.upsert name id branches) := by
  have hmem' : name ∉ links.map Prod.fst := by rwa [h.names_eq]
  have hapart : ∀ name' text, Text.isIdentifier name' = true → name' ≠ name →
      Below (extend key name') text → text ≠ key ∧ text ≠ extend key name := by
    intro name' text hname' hne htext
    constructor
    · rintro rfl
      exact not_below_extend_self hname' htext
    · rintro rfl
      exact hne (eq_of_below_extend hname' hname htext (Below.refl _))
  rw [Branch.upsert_of_notMem id hmem]
  refine ⟨by simp [h.names_eq], ⟨?_, ?_, ?_, ?_, ?_⟩, ?_⟩
  · intro link hlink
    rcases List.mem_append.mp hlink with hold | hlink
    · have hne : link.1 ≠ name := by
        rintro rfl
        exact hmem' (List.mem_map_of_mem hold)
      rw [(hgraft.sameOn _ (hapart _ _ (h.links.identifier link hold) hne (Below.refl _))).1]
      exact h.links.number link hold
    · rw [List.mem_singleton.mp hlink, hgraft.number]
  · intro link hlink
    rcases List.mem_append.mp hlink with hlink | hlink
    · exact h.links.least_le link hlink
    · rw [List.mem_singleton.mp hlink]
      exact hleast
  · intro link hlink
    rcases List.mem_append.mp hlink with hlink | hlink
    · exact h.links.identifier link hlink
    · rw [List.mem_singleton.mp hlink]
      exact hname
  · rw [List.map_append, List.nodup_append]
    refine ⟨h.links.nodup, by simp, ?_⟩
    intro name' hname' _ hlast
    rintro rfl
    rw [List.mem_singleton.mp hlast] at hname'
    exact hmem' hname'
  · intro name' hname' hnew text htext
    simp only [List.map_append, List.map_cons, List.map_nil, List.mem_append,
      List.mem_singleton, not_or] at hnew
    rw [(hgraft.sameOn text (hapart name' text hname' hnew.2 htext)).1]
    exact h.links.absent name' hname' hnew.1 text htext
  · intro name' branch hbranch
    rcases List.mem_append.mp hbranch with hold | hbranch
    · have hne : name' ≠ name := by
        rintro rfl
        exact hmem (List.mem_map_of_mem hold)
      exact (h.stored name' branch hold).congr (hgraft.sameOn.mono fun text =>
        hapart name' text (h.isIdentifier_of_mem hold) hne)
    · cases List.mem_singleton.mp hbranch
      exact hgraft.stored (extend_ne_nil key hname) (h.links.absent name hname hmem')

/-! ## Properties of a place -/

/-- The properties of a cell that shows a branch store those of the branch. -/
theorem Shows.storedLinks {draft : Draft} {key : Text} {i : Nat} {cell : Cell}
    {branch : Branch} (h : Shows draft key i cell branch) (hstored : Stored draft key branch) :
    StoredLinks draft key (i + 1) cell.properties branch.properties :=
  ⟨h.names_eq, h.links, fun _ _ hmem => hstored.of_properties hmem⟩

/-- Changing a property changes the branch that has it. -/
theorem Reworked.of_properties {before after : Draft} {key name : Text} {branch : Branch}
    {change : Branch → Branch} (hstored : Stored before key branch)
    (hmem : name ∈ branch.properties.map Prod.fst)
    (hwork : ∀ old, (name, old) ∈ branch.properties →
      Reworked before after (extend key name) (change old)) :
    Reworked before after key
      { branch with properties := Branch.upsert name change branch.properties } := by
  rcases Branch.exists_mem_of_name_mem hmem with ⟨old, hold⟩
  have hchanged := hwork old hold
  cases hstored with
  | node i cell hshows hitems hproperties =>
      have hname := hshows.isIdentifier_of_mem hold
      have hself : ¬ Below (extend key name) key := not_below_extend_self hname
      have hitemsOutside : ∀ text, Below (key ++ brackets) text →
          ¬ Below (extend key name) text :=
        fun _ => not_below_extend_of_below_brackets hshows.key_ne_nil
      have hlinks := (hshows.storedLinks (.node i cell hshows hitems hproperties)).rework
        hmem hwork
      refine ⟨hchanged.indexed, hchanged.roots_eq, ?_, (hchanged.outside key hself).1, ?_⟩
      · refine hchanged.outside.mono ?_
        intro text htext hbelow
        exact htext ((below_extend hshows.key_ne_nil name).trans hbelow)
      · have hsame := hshows.items_congr fun text htext =>
          (hchanged.outside text (hitemsOutside text htext)).1
        refine .node i cell ?_ ?_ hlinks.stored
        · exact
            { key_ne_nil := hshows.key_ne_nil
              number := (hchanged.outside key hself).1.trans hshows.number
              cell_eq := ((hchanged.outside key hself).2 i hshows.number).trans hshows.cell_eq
              title_eq := hshows.title_eq
              type_eq := hshows.type_eq
              description_eq := hshows.description_eq
              items_none := hsame.1
              items_some := hsame.2
              names_eq := hlinks.names_eq
              links := hlinks.links }
        · intro item hitem
          exact (hitems item hitem).congr (hchanged.outside.mono hitemsOutside)

/-- A fresh cell linked as the last property of its owner gives the stored branch
a fresh property. -/
theorem Grafted.reworked_property {before after : Draft} {key name : Text} {i : Nat}
    {cell : Cell} {branch : Branch}
    (hgraft : Grafted before after key (extend key name) name)
    (hindexed : before.Indexed) (hroots : after.roots = before.roots)
    (hstored : Stored before key branch) (hshows : Shows before key i cell branch)
    (hname : Text.isIdentifier name = true) (hmem : name ∉ branch.properties.map Prod.fst)
    (howner : after.cells[i]? = some
      { cell with properties := cell.properties ++ [(name, before.cells.length)] }) :
    Reworked before after key
      { branch with properties := Branch.upsert name id branch.properties } := by
  have hlt := hindexed.lt_length hshows.number
  have hne : key ≠ extend key name := fun heq =>
    not_below_extend_self hname (below_of_eq heq)
  have hapart : ∀ text, Below (key ++ brackets) text → text ≠ key ∧ text ≠ extend key name := by
    intro text htext
    constructor
    · rintro rfl
      exact not_below_brackets_self text htext
    · rintro rfl
      exact not_below_extend_of_below_brackets hshows.key_ne_nil htext (Below.refl _)
  have hlinks := (hshows.storedLinks hstored).graft hname hmem hlt hgraft
  have hself := hgraft.number_owner hne
  have hsame := hshows.items_congr fun text htext => (hgraft.sameOn text (hapart text htext)).1
  refine ⟨hgraft.indexed hindexed, hroots, hgraft.outside (below_extend hshows.key_ne_nil name),
    hself, ?_⟩
  refine .node i { cell with
    properties := cell.properties ++ [(name, before.cells.length)] } ?_ ?_ hlinks.stored
  · exact
      { key_ne_nil := hshows.key_ne_nil
        number := hself.trans hshows.number
        cell_eq := howner
        title_eq := hshows.title_eq
        type_eq := hshows.type_eq
        description_eq := hshows.description_eq
        items_none := hsame.1
        items_some := hsame.2
        names_eq := hlinks.names_eq
        links := hlinks.links }
  · intro item hitem
    exact (hstored.of_items hitem).congr (hgraft.sameOn.mono hapart)

/-- Going to a property and working there changes the property with the name, or
adds a changed fresh one. -/
theorem reworked_child {draft after : Draft} {key name : Text} {p : Nat} {branch : Branch}
    {change : Branch → Branch} (hindexed : draft.Indexed) (hstored : Stored draft key branch)
    (hp : draft.index.lookup key = some p) (hname : Text.isIdentifier name = true)
    (hwork : ∀ old, let place := draft.child (some p) (extend key name) name
      place.1.Indexed → place.1.index.lookup (extend key name) = some place.2 →
        Stored place.1 (extend key name) old →
          Reworked place.1 after (extend key name) (change old)) :
    Reworked draft after key
      { branch with properties := Branch.upsert name change branch.properties } := by
  rcases hstored.shows hp with ⟨cell, hshows⟩
  have hiff := (hshows.storedLinks hstored).mem_iff hname
  cases hlookup : draft.index.lookup (extend key name) with
  | some i =>
      have hplace : draft.child (some p) (extend key name) name = (draft, i) := by
        simp [child, hlookup]
      simp only [hplace] at hwork
      refine Reworked.of_properties hstored (hiff.mpr (by simp [hlookup])) ?_
      intro old hold
      exact hwork old hindexed hlookup (hstored.of_properties hold)
  | none =>
      have hmem : name ∉ branch.properties.map Prod.fst := by
        simp [hiff, hlookup]
      have hplace : draft.child (some p) (extend key name) name =
          ((draft.allocate (extend key name) name).modify p fun cell =>
            { cell with properties := cell.properties ++ [(name, draft.cells.length)] },
            draft.cells.length) := by
        simp [child, hlookup, link]
      simp only [hplace] at hwork
      have hgraft := grafted_allocate_modify hindexed hp (extend key name) name
        fun cell => { cell with properties := cell.properties ++ [(name, draft.cells.length)] }
      have howner := getElem?_allocate_modify hindexed hp (extend key name) name
        fun cell => { cell with properties := cell.properties ++ [(name, draft.cells.length)] }
      rw [hshows.cell_eq] at howner
      have hadded := hgraft.reworked_property hindexed rfl hstored hshows hname hmem howner
      have hmem' : name ∈ (Branch.upsert name id branch.properties).map Prod.fst := by
        simp [Branch.upsert_of_notMem id hmem]
      have hchanged := Reworked.of_properties hadded.stored hmem' fun old hold =>
        hwork old hadded.indexed hgraft.number (hadded.stored.of_properties hold)
      rw [Branch.upsert_upsert] at hchanged
      exact hadded.trans hchanged

/-! ## Following a path -/

/-- Take in an entry at the cell of one step, with the given steps to go. -/
def visit (entry : ParamEntry) (draft : Draft) (i : Nat) (key : Text) (step : Step) :
    FieldPath → Draft
  | [] => draft.define i key step.marked entry
  | next :: rest =>
    if step.marked then
      let (draft, j) := (draft.setType i .array).itemsOf i key
      follow entry (draft.setType j .object) (some j) (key ++ brackets) (next :: rest)
    else follow entry (draft.setType i .object) (some i) key (next :: rest)

/-- What following a path does at its first step. -/
theorem follow_cons (entry : ParamEntry) (draft : Draft) (parent : Option Nat) (key : Text)
    (step : Step) (rest : FieldPath) :
    follow entry draft parent key (step :: rest) =
      let place := draft.child parent (extend key step.name) step.name
      visit entry place.1 place.2 (extend key step.name) step rest := by
  cases rest <;> rfl

/-- Working at the cell of one step, given what the steps to go do. -/
theorem reworked_visit {entry : ParamEntry} {step : Step} {rest : FieldPath}
    (hfollow : ∀ {draft : Draft} {key : Text} {i : Nat} {branch : Branch}, draft.Indexed →
      Stored draft key branch → draft.index.lookup key = some i →
        Reworked draft (follow entry draft (some i) key rest) key
          { branch with properties := Branch.insertAt entry rest branch.properties })
    {draft : Draft} {key : Text} {i : Nat} {branch : Branch} (hindexed : draft.Indexed)
    (hstored : Stored draft key branch) (hi : draft.index.lookup key = some i) :
    Reworked draft (visit entry draft i key step rest) key
      (Branch.visit entry step rest branch) := by
  cases rest with
  | nil => exact reworked_define hindexed hstored hi step.marked entry
  | cons next rest =>
      simp only [visit, Branch.visit]
      split
      · refine reworked_array hindexed hstored hi ?_
        intro items hindexed' hnumber hitems
        have htype := reworked_setType hindexed' hitems hnumber .object
        exact htype.trans (hfollow htype.indexed htype.stored hnumber)
      · have htype := reworked_setType hindexed hstored hi .object
        exact htype.trans (hfollow htype.indexed htype.stored hi)

/-- Following the steps of an entry below a place inserts the entry among the
properties of the stored branch. -/
theorem reworked_follow {entry : ParamEntry} {path : FieldPath} (hpath : path.Named)
    {draft : Draft} {key : Text} {i : Nat} {branch : Branch} (hindexed : draft.Indexed)
    (hstored : Stored draft key branch) (hi : draft.index.lookup key = some i) :
    Reworked draft (follow entry draft (some i) key path) key
      { branch with properties := Branch.insertAt entry path branch.properties } := by
  induction path generalizing draft key i branch with
  | nil =>
      cases branch
      exact Reworked.refl hindexed hstored
  | cons step rest ih =>
      have hrest : FieldPath.Named rest := fun step' hstep' =>
        hpath step' (List.mem_cons_of_mem _ hstep')
      rw [follow_cons, Branch.insertAt_cons]
      exact reworked_child hindexed hstored hi (hpath step List.mem_cons_self)
        fun _ hindexed' hnumber hold => reworked_visit (ih hrest) hindexed' hold hnumber

/-! ## The whole draft -/

/-- The draft stores a forest of branches under its roots. -/
structure Represents (draft : Draft) (branches : List (Text × Branch)) : Prop where
  indexed : draft.Indexed
  roots : ∃ links, draft.roots = links.map Prod.snd ∧ StoredLinks draft [] 0 links branches

/-- The draft without cells represents no branches. -/
theorem represents_empty : Represents empty [] where
  indexed := ⟨by simp [empty], by simp [empty]⟩
  roots := ⟨[], rfl, rfl, ⟨by simp, by simp, by simp, by simp, by simp [empty]⟩, by simp⟩

/-- Changing what is stored under one of the roots. -/
theorem Represents.rework {before after : Draft} {branches : List (Text × Branch)}
    (h : Represents before branches) {name : Text} (hmem : name ∈ branches.map Prod.fst)
    {change : Branch → Branch}
    (hwork : ∀ old, (name, old) ∈ branches → Reworked before after (extend [] name) (change old)) :
    Represents after (Branch.upsert name change branches) := by
  rcases h.roots with ⟨links, hroots, hlinks⟩
  rcases Branch.exists_mem_of_name_mem hmem with ⟨old, hold⟩
  have hchanged := hwork old hold
  exact ⟨hchanged.indexed, links, hchanged.roots_eq.trans hroots, hlinks.rework hmem hwork⟩

/-- Going to a root and working there changes the root with the name, or adds a
changed fresh one. -/
theorem Represents.rework_child {draft after : Draft} {branches : List (Text × Branch)}
    (h : Represents draft branches) {name : Text} (hname : Text.isIdentifier name = true)
    {change : Branch → Branch}
    (hwork : ∀ old, let place := draft.child none (extend [] name) name
      place.1.Indexed → place.1.index.lookup (extend [] name) = some place.2 →
        Stored place.1 (extend [] name) old →
          Reworked place.1 after (extend [] name) (change old)) :
    Represents after (Branch.upsert name change branches) := by
  rcases h.roots with ⟨links, hroots, hlinks⟩
  have hiff := hlinks.mem_iff hname
  cases hlookup : draft.index.lookup (extend [] name) with
  | some i =>
      have hplace : draft.child none (extend [] name) name = (draft, i) := by
        simp [child, hlookup]
      simp only [hplace] at hwork
      refine h.rework (hiff.mpr (by simp [hlookup])) ?_
      intro old hold
      exact hwork old h.indexed hlookup (hlinks.stored name old hold)
  | none =>
      have hmem : name ∉ branches.map Prod.fst := by
        simp [hiff, hlookup]
      have hplace : draft.child none (extend [] name) name =
          ((draft.allocate (extend [] name) name).link none name draft.cells.length,
            draft.cells.length) := by
        simp [child, hlookup]
      simp only [hplace] at hwork
      have hgraft := grafted_allocate_link h.indexed (extend [] name) name
      have hadded : Represents
          ((draft.allocate (extend [] name) name).link none name draft.cells.length)
          (Branch.upsert name id branches) :=
        ⟨hgraft.indexed h.indexed, links ++ [(name, draft.cells.length)],
          by simp [allocate, link, hroots],
          hlinks.graft hname hmem (Nat.zero_le _) hgraft⟩
      rcases hadded.roots with ⟨links', _, hlinks'⟩
      have hmem' : name ∈ (Branch.upsert name id branches).map Prod.fst := by
        simp [Branch.upsert_of_notMem id hmem]
      have hchanged := hadded.rework hmem' fun old hold =>
        hwork old hadded.indexed hgraft.number (hlinks'.stored name old hold)
      rwa [Branch.upsert_upsert] at hchanged

/-- Taking in an entry inserts it into the stored forest. -/
theorem Represents.add {draft : Draft} {branches : List (Text × Branch)}
    (h : Represents draft branches) {entry : ParamEntry} (hpath : entry.path.Named) :
    Represents (draft.add entry) (Branch.insert branches entry) := by
  unfold Draft.add Branch.insert
  cases hsteps : entry.path with
  | nil => exact h
  | cons step rest =>
      rw [hsteps] at hpath
      have hrest : FieldPath.Named rest := fun step' hstep' =>
        hpath step' (List.mem_cons_of_mem _ hstep')
      rw [follow_cons, Branch.insertAt_cons]
      exact h.rework_child (hpath step List.mem_cons_self) fun _ hindexed hnumber hold =>
        reworked_visit (reworked_follow hrest) hindexed hold hnumber

/-- The draft of a list of entries stores the branches of the list. -/
theorem represents_ofEntries {entries : List ParamEntry}
    (hpaths : ∀ entry ∈ entries, entry.path.Named) :
    Represents (ofEntries entries) (Branch.ofEntries entries) := by
  have hrun : ∀ (entries : List ParamEntry) (draft : Draft) (branches : List (Text × Branch)),
      (∀ entry ∈ entries, entry.path.Named) → Represents draft branches →
        Represents (entries.foldl Draft.add draft) (entries.foldl Branch.insert branches) := by
    intro entries
    induction entries with
    | nil =>
        intro draft branches _ h
        exact h
    | cons entry entries ih =>
        intro draft branches hnamed h
        refine ih _ _ (fun entry' hmem => hnamed entry' (List.mem_cons_of_mem _ hmem)) ?_
        exact h.add (hnamed entry List.mem_cons_self)
  exact hrun entries empty [] hpaths represents_empty

/-! ## The finished forest -/

/-- When every link leads to the pruned branch of its name, the links give all of them. -/
theorem filterMap_links (tree : Nat → Option Param) {links : List (Text × Nat)}
    {branches : List (Text × Branch)} (hnames : links.map Prod.fst = branches.map Prod.fst)
    (htree : ∀ link ∈ links, ∀ branch, (link.1, branch) ∈ branches →
      tree link.2 = some (Branch.prune branch)) :
    (links.filterMap fun link => (tree link.2).map fun param => (link.1, param)) =
      branches.map fun branch => (branch.1, Branch.prune branch.2) := by
  induction links generalizing branches with
  | nil =>
      cases branches with
      | nil => rfl
      | cons branch branches => simp at hnames
  | cons link links ih =>
      cases branches with
      | nil => simp at hnames
      | cons branch branches =>
          simp only [List.map_cons, List.cons.injEq] at hnames
          rcases hnames with ⟨hname, hnames⟩
          have hfirst := htree link List.mem_cons_self branch.2 (by simp [hname])
          have hrest := ih hnames fun link' hlink' branch' hbranch' =>
            htree link' (List.mem_cons_of_mem _ hlink') branch' (List.mem_cons_of_mem _ hbranch')
          simp [hfirst, hrest, hname]

/-- The tree below a cell is the visible part of the branch stored there, when
links are followed deep enough: numbers grow along every link. -/
theorem Stored.param?_eq {draft : Draft} {key : Text} {branch : Branch}
    (h : Stored draft key branch) (hindexed : draft.Indexed) {i depth : Nat}
    (hi : draft.index.lookup key = some i) (hdepth : draft.cells.length ≤ i + depth) :
    draft.param? depth i = some (Branch.prune branch) := by
  induction h generalizing i depth with
  | @node key branch number cell hshows hitems hproperties ihitems ihproperties =>
      have hnumber : number = i := Option.some.inj (hshows.number.symm.trans hi)
      subst hnumber
      have hlt := hindexed.lt_length hi
      cases depth with
      | zero => omega
      | succ depth =>
          have hitem : cell.items.bind (draft.param? depth) = branch.items.map Branch.prune := by
            cases hbranch : branch.items with
            | none => simp [(hshows.items_none hbranch).1]
            | some item =>
                rcases hshows.items_some item hbranch with ⟨j, hcell, hj, hlt⟩
                rw [hcell, Option.bind_some, ihitems item hbranch hj (by omega)]
                rfl
          have hproperty := filterMap_links (draft.param? depth) hshows.names_eq <| by
            intro link hlink property hmem
            have hleast := hshows.links.least_le link hlink
            exact ihproperties link.1 property hmem (hshows.links.number link hlink) (by omega)
          simp only [param?, hshows.cell_eq, Option.map_some, hitem, hproperty,
            hshows.title_eq, hshows.type_eq, hshows.description_eq, Branch.prune_eq branch]

/-- A draft has the parameter trees of the branches that it stores. -/
theorem Represents.forest_eq {draft : Draft} {branches : List (Text × Branch)}
    (h : Represents draft branches) : draft.forest = Branch.forest branches := by
  rcases h.roots with ⟨links, hroots, hlinks⟩
  have htrees := filterMap_links (draft.param? draft.cells.length) hlinks.names_eq <| by
    intro link hlink branch hmem
    exact (hlinks.stored _ branch hmem).param?_eq h.indexed (hlinks.links.number link hlink)
      (by omega)
  have hsnd := congrArg (List.map Prod.snd) htrees
  simpa [forest, Branch.forest, hroots, List.filterMap_map, List.map_filterMap,
    Function.comp_def] using hsnd

/-- The arena of linked cells and the plain recursive insertion into nested
branches build the same parameter trees, for every list of entries whose paths
were read from text. -/
theorem forest_ofEntries_eq_branch_forest (entries : List ParamEntry)
    (hpaths : ∀ entry ∈ entries, entry.path.Readable) :
    (ofEntries entries).forest = Branch.forest (Branch.ofEntries entries) :=
  (represents_ofEntries fun entry hentry => (hpaths entry hentry).named).forest_eq

/-- Entries that make one place an array of objects, an object and an array of
arrays in turn. -/
def turningEntries : List ParamEntry :=
  [⟨none, [⟨['a'], true⟩, ⟨['x'], false⟩], []⟩,
   ⟨some (.named .number), [⟨['a'], false⟩, ⟨['y'], true⟩, ⟨['z'], false⟩], ['d']⟩,
   ⟨some (.arrayOf (.arrayOf (.named .number))), [⟨['a'], false⟩], ['e']⟩]

theorem forest_turningEntries :
    (∀ entry ∈ turningEntries, entry.path.Readable) ∧
      (ofEntries turningEntries).forest = Branch.forest (Branch.ofEntries turningEntries) := by
  have hpaths : ∀ entry ∈ turningEntries, entry.path.Readable := by
    intro entry hentry
    simp only [turningEntries, List.mem_cons, List.not_mem_nil, or_false] at hentry
    rcases hentry with rfl | rfl | rfl
    · exact ⟨"a[].x".toList, by decide⟩
    · exact ⟨"a.y[].z".toList, by decide⟩
    · exact ⟨"a".toList, by decide⟩
  exact ⟨hpaths, forest_ofEntries_eq_branch_forest turningEntries hpaths⟩

end Draft
end DocComment
