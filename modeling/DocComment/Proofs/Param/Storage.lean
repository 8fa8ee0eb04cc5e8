import DocComment.Param.Branch
import DocComment.Proofs.Param.Key

/-!
# Branches stored in a draft

A draft stores a branch at a path text when the cell found under the text shows
the branch, and the cells it links to store the items and the properties below
it.  The module says this once, together with what a change of the draft has to
leave alone, and derives what each small operation on cells does to a stored
branch.

Main results:

- Definition `Draft.Stored`: the branch stored under a path text.
- Theorem `Draft.Stored.congr`: a stored branch depends only on the cells at and
  below its path text.
- Definition `Draft.Reworked`: one place of the draft has been changed into a
  given branch, and nothing else has.
- Theorems `Draft.reworked_setType`, `Draft.reworked_setDescription` and
  `Draft.reworked_itemsOf`: the operations on one cell.
-/

namespace DocComment

/-- A branch that has items keeps them when they are asked for. -/
theorem Branch.items_itemsOrFresh {branch item : Branch} (h : branch.items = some item) :
    { branch with items := some branch.itemsOrFresh } = branch := by
  rcases branch with ⟨title, type, description, items, properties⟩
  subst h
  rfl

namespace Draft

open Key

/-! ## The index -/

/-- Every path text of the index has a cell of its own. -/
structure Indexed (draft : Draft) : Prop where
  lt_length : ∀ {key : Text} {i : Nat},
    draft.index.lookup key = some i → i < draft.cells.length
  inj : ∀ {key key' : Text} {i : Nat},
    draft.index.lookup key = some i → draft.index.lookup key' = some i → key = key'

/-- Two drafts have the same numbers and the same cells under the given path
texts. -/
def SameOn (region : Text → Prop) (before after : Draft) : Prop :=
  ∀ text, region text →
    after.index.lookup text = before.index.lookup text ∧
      ∀ i, before.index.lookup text = some i → after.cells[i]? = before.cells[i]?

theorem SameOn.refl (region : Text → Prop) (draft : Draft) : SameOn region draft draft :=
  fun _ _ => ⟨rfl, fun _ _ => rfl⟩

/-- Drafts that agree on a region agree on every part of it. -/
theorem SameOn.mono {region region' : Text → Prop} {before after : Draft}
    (h : SameOn region before after) (hsub : ∀ text, region' text → region text) :
    SameOn region' before after :=
  fun text htext => h text (hsub text htext)

/-- Agreement on a region is passed on. -/
theorem SameOn.trans {region : Text → Prop} {before middle after : Draft}
    (h : SameOn region before middle) (h' : SameOn region middle after) :
    SameOn region before after := by
  intro text htext
  rcases h text htext with ⟨hindex, hcells⟩
  rcases h' text htext with ⟨hindex', hcells'⟩
  refine ⟨hindex'.trans hindex, ?_⟩
  intro i hi
  rw [hcells' i (hindex.trans hi), hcells i hi]

/-! ## Links -/

/-- The links from one place to its properties.  They go to cells of their path
texts, with numbers from the given one on, and under the names without a link
nothing is found. -/
structure Links (draft : Draft) (key : Text) (least : Nat) (links : List (Text × Nat)) :
    Prop where
  number : ∀ link ∈ links, draft.index.lookup (extend key link.1) = some link.2
  least_le : ∀ link ∈ links, least ≤ link.2
  identifier : ∀ link ∈ links, Text.isIdentifier link.1 = true
  nodup : (links.map Prod.fst).Nodup
  absent : ∀ name, Text.isIdentifier name = true → name ∉ links.map Prod.fst →
    ∀ text, Below (extend key name) text → draft.index.lookup text = none

/-- Links stay valid while nothing changes below them. -/
theorem Links.congr {before after : Draft} {key : Text} {least : Nat}
    {links : List (Text × Nat)} (h : Links before key least links)
    (hsame : ∀ name text, Text.isIdentifier name = true → Below (extend key name) text →
      after.index.lookup text = before.index.lookup text) :
    Links after key least links where
  number link hlink := by
    rw [hsame link.1 _ (h.identifier link hlink) (Below.refl _)]
    exact h.number link hlink
  least_le := h.least_le
  identifier := h.identifier
  nodup := h.nodup
  absent name hname hmem text htext := by
    rw [hsame name text hname htext]
    exact h.absent name hname hmem text htext

/-! ## Stored branches -/

/-- The cell of a path text shows a branch: it has the same title, type and
description, and links to the same items and properties. -/
structure Shows (draft : Draft) (key : Text) (i : Nat) (cell : Cell) (branch : Branch) :
    Prop where
  key_ne_nil : key ≠ []
  number : draft.index.lookup key = some i
  cell_eq : draft.cells[i]? = some cell
  title_eq : cell.title = branch.title
  type_eq : cell.type = branch.type
  description_eq : cell.description = branch.description
  items_none : branch.items = none → cell.items = none ∧
    ∀ text, Below (key ++ brackets) text → draft.index.lookup text = none
  items_some : ∀ item, branch.items = some item →
    ∃ j, cell.items = some j ∧ draft.index.lookup (key ++ brackets) = some j ∧ i < j
  names_eq : cell.properties.map Prod.fst = branch.properties.map Prod.fst
  links : Links draft key (i + 1) cell.properties

/-- The draft stores a branch under a path text. -/
inductive Stored (draft : Draft) : Text → Branch → Prop
  | node {key : Text} {branch : Branch} (i : Nat) (cell : Cell)
      (hshows : Shows draft key i cell branch)
      (hitems : ∀ item, branch.items = some item → Stored draft (key ++ brackets) item)
      (hproperties : ∀ name property, (name, property) ∈ branch.properties →
        Stored draft (extend key name) property) :
      Stored draft key branch

/-- What a cell says about its items depends only on what is found at and below
their path text. -/
theorem Shows.items_congr {before after : Draft} {key : Text} {i : Nat} {cell : Cell}
    {branch : Branch} (h : Shows before key i cell branch)
    (hsame : ∀ text, Below (key ++ brackets) text →
      after.index.lookup text = before.index.lookup text) :
    (branch.items = none → cell.items = none ∧
        ∀ text, Below (key ++ brackets) text → after.index.lookup text = none) ∧
      ∀ item, branch.items = some item →
        ∃ j, cell.items = some j ∧ after.index.lookup (key ++ brackets) = some j ∧ i < j := by
  constructor
  · intro hnone
    refine ⟨(h.items_none hnone).1, ?_⟩
    intro text htext
    rw [hsame text htext]
    exact (h.items_none hnone).2 text htext
  · intro item hitem
    rcases h.items_some item hitem with ⟨j, hcell, hnumber, hlt⟩
    exact ⟨j, hcell, (hsame _ (Below.refl _)).trans hnumber, hlt⟩

/-- A cell goes on showing a branch while nothing changes below its path text. -/
theorem Shows.congr {before after : Draft} {key : Text} {i : Nat} {cell : Cell}
    {branch : Branch} (h : Shows before key i cell branch)
    (hsame : SameOn (Below key) before after) : Shows after key i cell branch := by
  have hitems := h.items_congr fun text htext =>
    (hsame text ((below_brackets key).trans htext)).1
  exact
    { key_ne_nil := h.key_ne_nil
      number := (hsame key (Below.refl key)).1.trans h.number
      cell_eq := ((hsame key (Below.refl key)).2 i h.number).trans h.cell_eq
      title_eq := h.title_eq
      type_eq := h.type_eq
      description_eq := h.description_eq
      items_none := hitems.1
      items_some := hitems.2
      names_eq := h.names_eq
      links := h.links.congr fun name text _ htext =>
        (hsame text ((below_extend h.key_ne_nil name).trans htext)).1 }

/-- The properties of a branch that a cell shows have identifiers for names. -/
theorem Shows.isIdentifier_of_mem {draft : Draft} {key : Text} {i : Nat} {cell : Cell}
    {branch : Branch} (h : Shows draft key i cell branch) {name : Text} {property : Branch}
    (hmem : (name, property) ∈ branch.properties) : Text.isIdentifier name = true := by
  have hname : name ∈ cell.properties.map Prod.fst := by
    rw [h.names_eq]
    exact List.mem_map_of_mem hmem
  rcases List.mem_map.mp hname with ⟨link, hlink, rfl⟩
  exact h.links.identifier link hlink

/-- The cell with the number of a path text shows the branch stored there. -/
theorem Stored.shows {draft : Draft} {key : Text} {i : Nat} {branch : Branch}
    (h : Stored draft key branch) (hi : draft.index.lookup key = some i) :
    ∃ cell, Shows draft key i cell branch := by
  cases h with
  | node number cell hshows _ _ =>
      have hnumber : number = i := Option.some.inj (hshows.number.symm.trans hi)
      subst hnumber
      exact ⟨cell, hshows⟩

/-- The items of a stored branch are stored under its path text with a pair of brackets.
-/
theorem Stored.of_items {draft : Draft} {key : Text} {branch item : Branch}
    (h : Stored draft key branch) (hitem : branch.items = some item) :
    Stored draft (key ++ brackets) item := by
  cases h with
  | node _ _ _ hitems _ => exact hitems item hitem

/-- A property of a stored branch is stored under the path text extended by its name. -/
theorem Stored.of_properties {draft : Draft} {key : Text} {branch : Branch}
    (h : Stored draft key branch) {name : Text} {property : Branch}
    (hmem : (name, property) ∈ branch.properties) :
    Stored draft (extend key name) property := by
  cases h with
  | node _ _ _ _ hproperties => exact hproperties name property hmem

/-- A stored branch depends only on what is found at and below its path text. -/
theorem Stored.congr {before after : Draft} {key : Text} {branch : Branch}
    (h : Stored before key branch) (hsame : SameOn (Below key) before after) :
    Stored after key branch := by
  induction h with
  | node i cell hshows _ _ ihitems ihproperties =>
      refine .node i cell (hshows.congr hsame) ?_ ?_
      · intro item hitem
        exact ihitems item hitem (hsame.mono fun _ => (below_brackets _).trans)
      · intro name property hmem
        exact ihproperties name property hmem
          (hsame.mono fun _ => (below_extend hshows.key_ne_nil name).trans)

/-! ## Fresh cells -/

/-- A fresh cell has been entered under a path text.  Of the old cells only that
of the owner may have changed. -/
structure Grafted (before after : Draft) (owner key title : Text) : Prop where
  index_eq : ∀ text, after.index.lookup text =
    if text = key then some before.cells.length else before.index.lookup text
  fresh : after.cells[before.cells.length]? = some (Cell.fresh title)
  others : ∀ text i, text ≠ owner → before.index.lookup text = some i →
    after.cells[i]? = before.cells[i]?
  length_eq : after.cells.length = before.cells.length + 1

/-- A new cell is found under its path text, and the others where they were. -/
theorem lookup_allocate (draft : Draft) (key title text : Text) :
    (draft.allocate key title).index.lookup text =
      if text = key then some draft.cells.length else draft.index.lookup text := by
  simp only [allocate, List.lookup_cons]
  by_cases h : text = key
  · simp [h]
  · simp [h, beq_false_of_ne h]

/-- Entering a fresh cell and changing the owner afterwards. -/
theorem grafted_allocate_modify {draft : Draft} (hindexed : draft.Indexed) {owner : Text}
    {i : Nat} (hi : draft.index.lookup owner = some i) (key title : Text)
    (change : Cell → Cell) :
    Grafted draft ((draft.allocate key title).modify i change) owner key title where
  index_eq := lookup_allocate draft key title
  fresh := by
    have hne : i ≠ draft.cells.length := Nat.ne_of_lt (hindexed.lt_length hi)
    simp [modify, allocate, hne]
  others text j htext hj := by
    have hne : i ≠ j := by
      rintro rfl
      exact htext (hindexed.inj hj hi)
    simp [modify, allocate, hne, List.getElem?_append_left (hindexed.lt_length hj)]
  length_eq := by simp [allocate]

/-- Entering a fresh cell and linking it as a root. -/
theorem grafted_allocate_link {draft : Draft} (hindexed : draft.Indexed) (key title : Text) :
    Grafted draft ((draft.allocate key title).link none title draft.cells.length) [] key title where
  index_eq := lookup_allocate draft key title
  fresh := by simp [allocate, link]
  others _ _ _ hi := by
    simp [allocate, link, List.getElem?_append_left (hindexed.lt_length hi)]
  length_eq := by simp [allocate, link]

/-- The owner after a fresh cell has been entered and the owner changed. -/
theorem getElem?_allocate_modify {draft : Draft} (hindexed : draft.Indexed) {owner : Text}
    {i : Nat} (hi : draft.index.lookup owner = some i) (key title : Text)
    (change : Cell → Cell) :
    ((draft.allocate key title).modify i change).cells[i]? = draft.cells[i]?.map change := by
  simp [modify, allocate, List.getElem?_append_left (hindexed.lt_length hi)]

/-- Grafting a cell keeps every number of the index within the cells. -/
theorem Grafted.indexed {before after : Draft} {owner key title : Text}
    (h : Grafted before after owner key title) (hindexed : before.Indexed) :
    after.Indexed where
  lt_length {text i} htext := by
    rw [h.index_eq] at htext
    rw [h.length_eq]
    split at htext
    · cases htext
      omega
    · have := hindexed.lt_length htext
      omega
  inj {text text' i} htext htext' := by
    rw [h.index_eq] at htext htext'
    split at htext <;> split at htext'
    · simp_all
    · cases htext
      have := hindexed.lt_length htext'
      omega
    · cases htext'
      have := hindexed.lt_length htext
      omega
    · exact hindexed.inj htext htext'

/-- Grafting a cell changes nothing but the new cell and its owner. -/
theorem Grafted.sameOn {before after : Draft} {owner key title : Text}
    (h : Grafted before after owner key title) :
    SameOn (fun text => text ≠ owner ∧ text ≠ key) before after := by
  intro text htext
  refine ⟨?_, fun i hi => h.others text i htext.1 hi⟩
  rw [h.index_eq, if_neg htext.2]

/-- Outside of the owner nothing changes when the fresh cell lies below it. -/
theorem Grafted.outside {before after : Draft} {owner key title : Text}
    (h : Grafted before after owner key title) (hbelow : Below owner key) :
    SameOn (fun text => ¬ Below owner text) before after := by
  refine h.sameOn.mono ?_
  intro text htext
  constructor
  · rintro rfl
    exact htext (Below.refl text)
  · rintro rfl
    exact htext hbelow

/-- The new cell has the next number. -/
theorem Grafted.number {before after : Draft} {owner key title : Text}
    (h : Grafted before after owner key title) :
    after.index.lookup key = some before.cells.length := by
  rw [h.index_eq, if_pos rfl]

/-- The owner of a new cell keeps its number. -/
theorem Grafted.number_owner {before after : Draft} {owner key title : Text}
    (h : Grafted before after owner key title) (hne : owner ≠ key) :
    after.index.lookup owner = before.index.lookup owner := by
  rw [h.index_eq, if_neg hne]

/-- The fresh cell stores a fresh branch when nothing was found below its path
text before. -/
theorem Grafted.stored {before after : Draft} {owner key title : Text}
    (h : Grafted before after owner key title) (hkey : key ≠ [])
    (habsent : ∀ text, Below key text → before.index.lookup text = none) :
    Stored after key (Branch.fresh title) := by
  -- Only the path text itself was entered, so below it still nothing is found.
  have hbelow : ∀ text, Below key text → text ≠ key → after.index.lookup text = none := by
    intro text htext hne
    rw [h.index_eq, if_neg hne]
    exact habsent text htext
  refine .node before.cells.length (Cell.fresh title) ?_ ?_ ?_
  · refine
      { key_ne_nil := hkey
        number := h.number
        cell_eq := h.fresh
        title_eq := rfl
        type_eq := rfl
        description_eq := rfl
        items_none := fun _ => ⟨rfl, ?_⟩
        items_some := by simp [Branch.fresh]
        names_eq := rfl
        links := ⟨by simp [Cell.fresh], by simp [Cell.fresh], by simp [Cell.fresh],
          by simp [Cell.fresh], ?_⟩ }
    · intro text htext
      refine hbelow text ((below_brackets key).trans htext) ?_
      rintro rfl
      exact not_below_brackets_self text htext
    · intro name hname _ text htext
      refine hbelow text ((below_extend hkey name).trans htext) ?_
      rintro rfl
      exact not_below_extend_self hname htext
  · intro item hitem
    simp [Branch.fresh] at hitem
  · intro name property hmem
    simp [Branch.fresh] at hmem

/-! ## Changes at one place -/

/-- The draft has been changed at and below one path text, where it now stores
the given branch. -/
structure Reworked (before after : Draft) (key : Text) (branch : Branch) : Prop where
  indexed : after.Indexed
  roots_eq : after.roots = before.roots
  outside : SameOn (fun text => ¬ Below key text) before after
  number : after.index.lookup key = before.index.lookup key
  stored : Stored after key branch

/-- A draft that is left alone is reworked into itself. -/
theorem Reworked.refl {draft : Draft} {key : Text} {branch : Branch}
    (hindexed : draft.Indexed) (hstored : Stored draft key branch) :
    Reworked draft draft key branch :=
  ⟨hindexed, rfl, SameOn.refl _ _, rfl, hstored⟩

/-- Two reworkings of one cell are one. -/
theorem Reworked.trans {before middle after : Draft} {key : Text} {branch branch' : Branch}
    (h : Reworked before middle key branch) (h' : Reworked middle after key branch') :
    Reworked before after key branch' :=
  ⟨h'.indexed, h'.roots_eq.trans h.roots_eq, h.outside.trans h'.outside,
    h'.number.trans h.number, h'.stored⟩

/-- Modifying a cell changes nothing elsewhere. -/
theorem sameOn_modify {draft : Draft} (hindexed : draft.Indexed) {key : Text} {i : Nat}
    (hi : draft.index.lookup key = some i) (change : Cell → Cell) :
    SameOn (fun text => text ≠ key) draft (draft.modify i change) := by
  intro text htext
  refine ⟨rfl, ?_⟩
  intro j hj
  have hne : i ≠ j := by
    rintro rfl
    exact htext (hindexed.inj hj hi)
  simp [modify, hne]

/-- Modifying a cell keeps every number of the index within the cells. -/
theorem indexed_modify {draft : Draft} (hindexed : draft.Indexed) (i : Nat)
    (change : Cell → Cell) : (draft.modify i change).Indexed where
  lt_length hkey := by
    rw [length_cells_modify]
    exact hindexed.lt_length hkey
  inj hkey hkey' := hindexed.inj hkey hkey'

/-- Changing the type and the description of a cell changes those of the stored
branch. -/
theorem reworked_modify {draft : Draft} {key : Text} {i : Nat} {branch branch' : Branch}
    {change : Cell → Cell} (hindexed : draft.Indexed) (hstored : Stored draft key branch)
    (hi : draft.index.lookup key = some i)
    (hlinks : ∀ cell, (change cell).items = cell.items ∧
      (change cell).properties = cell.properties)
    (hitems : branch'.items = branch.items) (hproperties : branch'.properties = branch.properties)
    (hfields : ∀ cell, cell.title = branch.title → cell.type = branch.type →
      cell.description = branch.description →
      (change cell).title = branch'.title ∧ (change cell).type = branch'.type ∧
        (change cell).description = branch'.description) :
    Reworked draft (draft.modify i change) key branch' := by
  have hsame := sameOn_modify hindexed hi change
  refine ⟨indexed_modify hindexed i change, rfl, ?_, rfl, ?_⟩
  · refine hsame.mono ?_
    rintro text htext rfl
    exact htext (Below.refl text)
  · rcases hstored.shows hi with ⟨cell, hshows⟩
    obtain ⟨htitle, htype, hdescription⟩ :=
      hfields cell hshows.title_eq hshows.type_eq hshows.description_eq
    refine .node i (change cell) ?_ ?_ ?_
    · refine
        { key_ne_nil := hshows.key_ne_nil
          number := hshows.number
          cell_eq := by simp [modify, hshows.cell_eq]
          title_eq := htitle
          type_eq := htype
          description_eq := hdescription
          items_none := ?_
          items_some := ?_
          names_eq := ?_
          links := ?_ }
      · rw [hitems, (hlinks cell).1]
        exact hshows.items_none
      · rw [hitems, (hlinks cell).1]
        exact hshows.items_some
      · rw [hproperties, (hlinks cell).2]
        exact hshows.names_eq
      · rw [(hlinks cell).2]
        exact hshows.links.congr fun _ _ _ _ => rfl
    · intro item hitem
      rw [hitems] at hitem
      refine (hstored.of_items hitem).congr (hsame.mono ?_)
      rintro text htext rfl
      exact not_below_brackets_self text htext
    · intro name property hmem
      rw [hproperties] at hmem
      refine (hstored.of_properties hmem).congr (hsame.mono ?_)
      rintro text htext rfl
      exact not_below_extend_self (hshows.isIdentifier_of_mem hmem) htext

/-- Setting the type of a cell sets the type of the stored branch. -/
theorem reworked_setType {draft : Draft} {key : Text} {i : Nat} {branch : Branch}
    (hindexed : draft.Indexed) (hstored : Stored draft key branch)
    (hi : draft.index.lookup key = some i) (type : TypeName) :
    Reworked draft (draft.setType i type) key { branch with type } :=
  reworked_modify hindexed hstored hi (fun _ => ⟨rfl, rfl⟩) rfl rfl
    fun _ htitle _ hdescription => ⟨htitle, rfl, hdescription⟩

/-- Setting the description of a cell sets the description of the stored
branch. -/
theorem reworked_setDescription {draft : Draft} {key : Text} {i : Nat} {branch : Branch}
    (hindexed : draft.Indexed) (hstored : Stored draft key branch)
    (hi : draft.index.lookup key = some i) (description : Text) :
    Reworked draft (draft.setDescription i description) key { branch with description } :=
  reworked_modify hindexed hstored hi (fun _ => ⟨rfl, rfl⟩) rfl rfl
    fun _ htitle htype _ => ⟨htitle, htype, rfl⟩

/-! ## Items -/

/-- Changing the items changes the branch that has them. -/
theorem Reworked.of_items {before after : Draft} {key : Text} {branch item item' : Branch}
    (hstored : Stored before key branch) (hitem : branch.items = some item)
    (h : Reworked before after (key ++ brackets) item') :
    Reworked before after key { branch with items := some item' } := by
  have hself : ¬ Below (key ++ brackets) key := not_below_brackets_self key
  refine ⟨h.indexed, h.roots_eq, ?_, (h.outside key hself).1, ?_⟩
  · refine h.outside.mono ?_
    intro text htext hbelow
    exact htext ((below_brackets key).trans hbelow)
  · cases hstored with
    | node i cell hshows hitems hproperties =>
        have hapart : ∀ name text, Below (extend key name) text →
            ¬ Below (key ++ brackets) text := by
          intro name text htext hbelow
          exact not_below_extend_of_below_brackets hshows.key_ne_nil hbelow htext
        refine .node i cell ?_ ?_ ?_
        · refine
            { key_ne_nil := hshows.key_ne_nil
              number := (h.outside key hself).1.trans hshows.number
              cell_eq := ((h.outside key hself).2 i hshows.number).trans hshows.cell_eq
              title_eq := hshows.title_eq
              type_eq := hshows.type_eq
              description_eq := hshows.description_eq
              items_none := fun hnone => by simp at hnone
              items_some := ?_
              names_eq := hshows.names_eq
              links := hshows.links.congr fun name text _ htext =>
                (h.outside text (hapart name text htext)).1 }
          intro _ _
          rcases hshows.items_some item hitem with ⟨j, hcell, hnumber, hlt⟩
          exact ⟨j, hcell, h.number.trans hnumber, hlt⟩
        · intro item'' heq
          cases heq
          exact h.stored
        · intro name property hmem
          exact (hproperties name property hmem).congr
            (h.outside.mono (hapart name))

/-- A fresh cell linked as the items of its owner gives the stored branch fresh
items. -/
theorem Grafted.reworked_items {before after : Draft} {key : Text} {i : Nat} {cell : Cell}
    {branch : Branch} (hgraft : Grafted before after key (key ++ brackets) [])
    (hindexed : before.Indexed) (hroots : after.roots = before.roots)
    (hstored : Stored before key branch) (hshows : Shows before key i cell branch)
    (hnone : branch.items = none)
    (howner : after.cells[i]? = some { cell with items := some before.cells.length }) :
    Reworked before after key { branch with items := some (Branch.fresh []) } := by
  have hne : key ≠ key ++ brackets := fun heq =>
    not_below_brackets_self key (below_of_eq heq)
  have hself := hgraft.number_owner hne
  -- Neither the owner nor the fresh cell lies below a property of the owner.
  have hapart : ∀ name text, Text.isIdentifier name = true →
      Below (extend key name) text → text ≠ key ∧ text ≠ key ++ brackets := by
    intro name text hname htext
    constructor
    · rintro rfl
      exact not_below_extend_self hname htext
    · rintro rfl
      exact not_below_extend_of_below_brackets hshows.key_ne_nil (Below.refl _) htext
  refine ⟨hgraft.indexed hindexed, hroots, hgraft.outside (below_brackets key), hself, ?_⟩
  refine .node i { cell with items := some before.cells.length } ?_ ?_ ?_
  · exact
      { key_ne_nil := hshows.key_ne_nil
        number := hself.trans hshows.number
        cell_eq := howner
        title_eq := hshows.title_eq
        type_eq := hshows.type_eq
        description_eq := hshows.description_eq
        items_none := fun hnone => by simp at hnone
        items_some := fun _ _ => ⟨_, rfl, hgraft.number, hindexed.lt_length hshows.number⟩
        names_eq := hshows.names_eq
        links := hshows.links.congr fun name text hname htext =>
          (hgraft.sameOn text (hapart name text hname htext)).1 }
  · intro item hitem
    cases hitem
    exact hgraft.stored (by simp [hshows.key_ne_nil]) (hshows.items_none hnone).2
  · intro name property hmem
    exact (hstored.of_properties hmem).congr
      (hgraft.sameOn.mono fun text => hapart name text (hshows.isIdentifier_of_mem hmem))

/-- Asking for the items of a cell gives the stored branch items, and the number
of their cell. -/
theorem reworked_itemsOf {draft : Draft} {key : Text} {i : Nat} {branch : Branch}
    (hindexed : draft.Indexed) (hstored : Stored draft key branch)
    (hi : draft.index.lookup key = some i) :
    Reworked draft (draft.itemsOf i key).1 key
        { branch with items := some branch.itemsOrFresh } ∧
      (draft.itemsOf i key).1.index.lookup (key ++ brackets) = some (draft.itemsOf i key).2 := by
  rcases hstored.shows hi with ⟨cell, hshows⟩
  cases hbranch : branch.items with
  | some item =>
      rcases hshows.items_some item hbranch with ⟨j, hcell, hnumber, _⟩
      have hfound : draft.itemsOf i key = (draft, j) := by
        simp [itemsOf, hshows.cell_eq, hcell]
      rw [hfound, Branch.items_itemsOrFresh hbranch]
      exact ⟨Reworked.refl hindexed hstored, hnumber⟩
  | none =>
      have hmissing : draft.itemsOf i key =
          ((draft.allocate (key ++ brackets) []).modify i fun cell =>
            { cell with items := some draft.cells.length }, draft.cells.length) := by
        simp [itemsOf, hshows.cell_eq, (hshows.items_none hbranch).1]
      have hgraft := grafted_allocate_modify hindexed hi (key ++ brackets) []
        fun cell => { cell with items := some draft.cells.length }
      have howner := getElem?_allocate_modify hindexed hi (key ++ brackets) []
        fun cell => { cell with items := some draft.cells.length }
      rw [hshows.cell_eq] at howner
      simp only [Branch.itemsOrFresh, hbranch, Option.getD_none]
      rw [hmissing]
      exact ⟨hgraft.reworked_items hindexed rfl hstored hshows hbranch howner, hgraft.number⟩

end Draft
end DocComment
