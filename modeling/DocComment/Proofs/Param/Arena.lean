import DocComment.Proofs.Param.Storage

/-!
# The cells of a draft form a forest

A draft never removes a cell and never changes a link.  So its cells stay a
forest: every cell is linked exactly once, from the roots or from a cell with a
smaller number, and the index finds every cell under a path text that is made
from those of the cells above it.

Main results:

- Definition `Cell.links`: the links of a cell, each with the text that leads to
  the linked cell.
- Definition `Draft.Arranged`: the cells form a forest, and the index numbers them
  by path texts that follow the links.
- Theorem `Draft.Arranged.lookup_brackets`: the items of a cell without items are
  not in the index.
- Theorems `Draft.Arranged.modify`, `Draft.Arranged.graft` and
  `Draft.Arranged.graftRoot`: what the operations on cells preserve.
-/

namespace DocComment

/-! ## Links -/

/-- The links of a cell to its items and to its properties.  Each comes with the
text that leads from the path text of the cell to that of the linked one. -/
def Cell.links (cell : Cell) : List (Text × Nat) :=
  (cell.items.map fun j => (brackets, j)).toList ++
    cell.properties.map fun property => ('.' :: property.1, property.2)

/-- The numbers that a cell refers to. -/
def Cell.references (cell : Cell) : List Nat :=
  cell.links.map Prod.snd

@[simp]
theorem Cell.links_fresh (title : Text) : (Cell.fresh title).links = [] :=
  rfl

/-- The links of a cell lead to its items, under a pair of brackets, and to its
properties, under a point and their names. -/
theorem Cell.mem_links {cell : Cell} {link : Text × Nat} :
    link ∈ cell.links ↔
      (link.1 = brackets ∧ cell.items = some link.2) ∨
        ∃ name, link.1 = '.' :: name ∧ (name, link.2) ∈ cell.properties := by
  rcases link with ⟨suffix, j⟩
  simp only [links, List.mem_append, Option.mem_toList, Option.map_eq_some_iff, List.mem_map,
    Prod.mk.injEq, Prod.exists]
  constructor
  · rintro (⟨_, hitems, rfl, rfl⟩ | ⟨name, _, hmem, rfl, rfl⟩)
    · exact .inl ⟨rfl, hitems⟩
    · exact .inr ⟨name, rfl, hmem⟩
  · rintro (⟨rfl, hitems⟩ | ⟨name, rfl, hmem⟩)
    · exact .inl ⟨j, hitems, rfl, rfl⟩
    · exact .inr ⟨name, j, hmem, rfl, rfl⟩

/-- A new property is one more link. -/
theorem Cell.links_addProperty (cell : Cell) (name : Text) (j : Nat) :
    { cell with properties := cell.properties ++ [(name, j)] }.links.Perm
      (('.' :: name, j) :: cell.links) := by
  simp only [links, List.map_append, List.map_cons, List.map_nil, ← List.append_assoc]
  exact List.perm_append_singleton _ _

/-- New items are one more link of a cell that had none. -/
theorem Cell.links_addItems {cell : Cell} (h : cell.items = none) (j : Nat) :
    { cell with items := some j }.links.Perm ((brackets, j) :: cell.links) := by
  simp [links, h]

namespace Draft

/-- Every reference of a draft to a cell: from the roots, and from the items and
the properties of the cells. -/
def references (draft : Draft) : List Nat :=
  draft.roots ++ draft.cells.flatMap Cell.references

/-! ## Arranged drafts -/

/-- The cells of a draft form a forest. -/
structure Linked (draft : Draft) : Prop where
  /-- Every reference is to a cell. -/
  lt_length : ∀ j ∈ draft.references, j < draft.cells.length
  /-- Links lead to cells with larger numbers. -/
  ascending : ∀ (i : Nat) (cell : Cell), draft.cells[i]? = some cell →
    ∀ j ∈ cell.references, i < j
  /-- Every cell is referred to once. -/
  once : ∀ i < draft.cells.length, draft.references.count i = 1

/-- The index of a draft gives every cell a path text, and every path text a cell
of its own. -/
structure Numbered (draft : Draft) : Prop where
  indexed : draft.Indexed
  covered : ∀ i < draft.cells.length, ∃ key, draft.index.lookup key = some i
  /-- No entry of the index is hidden behind another one. -/
  found : ∀ entry ∈ draft.index, draft.index.lookup entry.1 = some entry.2

/-- The path texts of the cells follow the links. -/
structure PathKeyed (draft : Draft) : Prop where
  /-- The path text of a root is a name. -/
  root_key : ∀ i ∈ draft.roots,
    ∃ name, Text.isIdentifier name = true ∧ draft.index.lookup name = some i
  /-- Properties have names. -/
  named : ∀ (i : Nat) (cell : Cell), draft.cells[i]? = some cell →
    ∀ name j, ('.' :: name, j) ∈ cell.links → Text.isIdentifier name = true
  /-- The path text of a linked cell is made from that of the cell above it. -/
  link_key : ∀ (key : Text) (i : Nat) (cell : Cell), draft.index.lookup key = some i →
    draft.cells[i]? = some cell →
      ∀ link ∈ cell.links, draft.index.lookup (key ++ link.1) = some link.2

/-- The cells of a draft form a forest, and the index numbers them by path texts
that follow the links. -/
structure Arranged (draft : Draft) : Prop extends Linked draft, Numbered draft, PathKeyed draft

/-- The draft without cells is arranged. -/
theorem arranged_empty : empty.Arranged where
  lt_length := by simp [references, empty]
  ascending := by simp [empty]
  once := by simp [empty]
  indexed := ⟨by simp [empty], by simp [empty]⟩
  covered := by simp [empty]
  found := by simp [empty]
  root_key := by simp [empty]
  named := by simp [empty]
  link_key := by simp [empty]

/-- One more link of one cell is one more reference. -/
theorem flatMap_references_modify {cells : List Cell} {p n : Nat} {cell : Cell} {suffix : Text}
    {change : Cell → Cell} (hp : cells[p]? = some cell)
    (hchange : (change cell).links.Perm ((suffix, n) :: cell.links)) :
    ((cells.modify p change).flatMap Cell.references).Perm
      (n :: cells.flatMap Cell.references) := by
  induction cells generalizing p with
  | nil => simp at hp
  | cons first cells ih =>
      cases p with
      | zero =>
          rw [List.getElem?_cons_zero, Option.some.injEq] at hp
          subst hp
          rw [List.modify_zero_cons, List.flatMap_cons, List.flatMap_cons]
          exact (hchange.map Prod.snd).append_right _
      | succ p =>
          rw [List.getElem?_cons_succ] at hp
          rw [List.modify_succ_cons, List.flatMap_cons, List.flatMap_cons]
          exact ((ih hp).append_left _).trans List.perm_middle

/-- A cell has the links of an old one when a change keeps them. -/
theorem exists_links_eq_of_modify {draft : Draft} {i j : Nat} {cell : Cell} {change : Cell → Cell}
    (hchange : ∀ cell, (change cell).links = cell.links)
    (hcell : (draft.modify i change).cells[j]? = some cell) :
    ∃ old, draft.cells[j]? = some old ∧ cell.links = old.links := by
  rw [Draft.modify, List.getElem?_modify, Option.map_eq_map, Option.map_eq_some_iff] at hcell
  rcases hcell with ⟨old, hold, rfl⟩
  refine ⟨old, hold, ?_⟩
  split
  · exact hchange old
  · rfl

/-- A change that keeps the links of every cell keeps the references. -/
theorem references_modify {draft : Draft} {i : Nat} {change : Cell → Cell}
    (hchange : ∀ cell, (change cell).links = cell.links) :
    (draft.modify i change).references = draft.references := by
  have hmap : (draft.cells.modify i change).map Cell.references =
      draft.cells.map Cell.references := by
    refine List.ext_getElem? fun j => ?_
    rw [List.getElem?_map, List.getElem?_map, List.getElem?_modify]
    cases draft.cells[j]? with
    | none => rfl
    | some cell =>
        by_cases hij : i = j <;> simp [hij, Cell.references, hchange]
  rw [references, references, List.flatMap_def, List.flatMap_def, ← hmap]
  rfl

/-- A fresh cell has no links: a cell with a link was there before. -/
theorem getElem?_of_allocate {draft : Draft} {key title : Text} {i : Nat} {cell : Cell}
    {link : Text × Nat} (hcell : (draft.allocate key title).cells[i]? = some cell)
    (hlink : link ∈ cell.links) : draft.cells[i]? = some cell := by
  rw [allocate, List.getElem?_append] at hcell
  split at hcell
  · exact hcell
  · have hmem := List.mem_of_getElem? hcell
    rw [List.mem_singleton] at hmem
    simp [hmem] at hlink

/-- What was found before a fresh cell was entered is found again. -/
theorem Grafted.lookup_of_some {before after : Draft} {owner key title text : Text} {i : Nat}
    (h : Grafted before after owner key title) (hfresh : before.index.lookup key = none)
    (hi : before.index.lookup text = some i) : after.index.lookup text = some i := by
  have hne : text ≠ key := by
    rintro rfl
    simp [hfresh] at hi
  rw [h.index_eq, if_neg hne, hi]

/-- A name holds no bracket. -/
theorem bracket_notMem {name : Text} (hname : Text.isIdentifier name = true) : ']' ∉ name := by
  intro hmem
  exact absurd (Text.isIdentPart_of_mem hname hmem) (by decide)

/-- No cell is referred to twice. -/
theorem Linked.nodup_references {draft : Draft} (h : draft.Linked) : draft.references.Nodup := by
  rw [List.nodup_iff_count]
  intro i
  by_cases hi : i < draft.cells.length
  · exact Nat.le_of_eq (h.once i hi)
  · have hmem : i ∉ draft.references := fun hmem => hi (h.lt_length i hmem)
    simp [List.count_eq_zero.mpr hmem]

namespace Arranged

variable {draft : Draft} {key : Text} {i : Nat} {cell : Cell}

/-- The cell of a path text is there. -/
theorem exists_cell (h : draft.Arranged) (hi : draft.index.lookup key = some i) :
    ∃ cell, draft.cells[i]? = some cell :=
  ⟨_, List.getElem?_eq_getElem (h.indexed.lt_length hi)⟩

/-- Every cell is a root, or is linked from a cell. -/
theorem referred (h : draft.Arranged) (hi : i < draft.cells.length) :
    i ∈ draft.roots ∨
      ∃ (p : Nat) (owner : Cell) (suffix : Text),
        draft.cells[p]? = some owner ∧ (suffix, i) ∈ owner.links := by
  have hmem : i ∈ draft.references := by
    refine List.count_pos_iff.mp ?_
    rw [h.once i hi]
    exact Nat.zero_lt_one
  rw [references, List.mem_append, List.mem_flatMap] at hmem
  refine hmem.imp id ?_
  rintro ⟨owner, howner, hreference⟩
  rcases List.mem_iff_getElem?.mp howner with ⟨p, hp⟩
  rcases List.mem_map.mp hreference with ⟨⟨suffix, _⟩, hlink, rfl⟩
  exact ⟨p, owner, suffix, hp, hlink⟩

/-- The items of a cell without items are not in the index: their path text ends
with brackets, and no other place has such a path text. -/
theorem lookup_brackets (h : draft.Arranged) (hi : draft.index.lookup key = some i)
    (hcell : draft.cells[i]? = some cell) (hnone : cell.items = none) :
    draft.index.lookup (key ++ brackets) = none := by
  have hlast : [']'] <:+ key ++ brackets := ⟨key ++ ['['], by simp [brackets]⟩
  rw [Option.eq_none_iff_forall_ne_some]
  intro j hj
  rcases h.referred (h.indexed.lt_length hj) with hroot | ⟨p, owner, suffix, hp, hlink⟩
  · rcases h.root_key j hroot with ⟨name, hidentifier, hnumber⟩
    rw [← h.indexed.inj hnumber hj] at hlast
    exact bracket_notMem hidentifier (hlast.mem List.mem_cons_self)
  · rcases h.covered p (List.getElem?_eq_some_iff.mp hp).1 with ⟨key', hkey'⟩
    have heq := h.indexed.inj (h.link_key key' p owner hkey' hp _ hlink) hj
    rcases Cell.mem_links.mp hlink with ⟨rfl, hitems⟩ | ⟨name, rfl, _⟩
    · obtain rfl : key' = key := List.append_cancel_right heq
      obtain rfl : p = i := Option.some.inj (hkey'.symm.trans hi)
      obtain rfl : owner = cell := Option.some.inj (hp.symm.trans hcell)
      simp [hnone] at hitems
    · have hidentifier := h.named p owner hp name j hlink
      have hname : name <:+ key ++ brackets := ⟨key' ++ ['.'], by simpa using heq⟩
      have hpos := List.length_pos_iff.mpr (Text.ne_nil_of_isIdentifier hidentifier)
      have hsuffix := List.suffix_of_suffix_length_le hlast hname hpos
      exact bracket_notMem hidentifier (hsuffix.mem List.mem_cons_self)

/-! ## Changes that keep the links -/

/-- A change of a cell that keeps its links keeps the arrangement. -/
theorem modify (h : draft.Arranged) (i : Nat) {change : Cell → Cell}
    (hchange : ∀ cell, (change cell).links = cell.links) : (draft.modify i change).Arranged where
  lt_length := by
    rw [references_modify hchange, length_cells_modify]
    exact h.lt_length
  ascending j cell hcell := by
    rcases exists_links_eq_of_modify hchange hcell with ⟨old, hold, hlinks⟩
    rw [Cell.references, hlinks]
    exact h.ascending j old hold
  once := by
    rw [references_modify hchange, length_cells_modify]
    exact h.once
  indexed := indexed_modify h.indexed i change
  covered := by
    rw [length_cells_modify]
    exact h.covered
  found := h.found
  root_key := h.root_key
  named j cell hcell := by
    rcases exists_links_eq_of_modify hchange hcell with ⟨old, hold, hlinks⟩
    rw [hlinks]
    exact h.named j old hold
  link_key key j cell hj hcell := by
    rcases exists_links_eq_of_modify hchange hcell with ⟨old, hold, hlinks⟩
    rw [hlinks]
    exact h.link_key key j old hj hold

/-- Setting a type keeps a draft arranged. -/
theorem setType (h : draft.Arranged) (i : Nat) (type : TypeName) :
    (draft.setType i type).Arranged :=
  h.modify i fun _ => rfl

/-- Setting a description keeps a draft arranged. -/
theorem setDescription (h : draft.Arranged) (i : Nat) (description : Text) :
    (draft.setDescription i description).Arranged :=
  h.modify i fun _ => rfl

end Arranged

/-! ## Fresh cells -/

/-- A fresh cell has been linked under a path text, and nothing else has been
linked. -/
structure Attached (before after : Draft) (key : Text) : Prop where
  references_perm : after.references.Perm (before.cells.length :: before.references)
  roots : ∀ i ∈ after.roots, i ∈ before.roots ∨
    i = before.cells.length ∧ Text.isIdentifier key = true
  links : ∀ (i : Nat) (cell : Cell), after.cells[i]? = some cell → ∀ link ∈ cell.links,
    (∃ old, before.cells[i]? = some old ∧ link ∈ old.links) ∨
      link.2 = before.cells.length ∧
        (∃ text, before.index.lookup text = some i ∧ text ++ link.1 = key) ∧
        ∀ name, link.1 = '.' :: name → Text.isIdentifier name = true

section Attached

variable {before after : Draft} {owner key title : Text}

/-- A new cell that is attached in one place keeps the draft linked. -/
theorem Linked.attached (h : before.Linked) (hindexed : before.Indexed)
    (hlength : after.cells.length = before.cells.length + 1)
    (hattached : Attached before after key) : after.Linked where
  lt_length j hj := by
    rw [hattached.references_perm.mem_iff, List.mem_cons] at hj
    rcases hj with rfl | hj
    · omega
    · have := h.lt_length j hj
      omega
  ascending i cell hcell j hj := by
    rcases List.mem_map.mp hj with ⟨link, hlink, rfl⟩
    rcases hattached.links i cell hcell link hlink with ⟨old, hold, hmem⟩ | ⟨hnew, ⟨_, htext, _⟩, _⟩
    · exact h.ascending i old hold _ (List.mem_map_of_mem hmem)
    · rw [hnew]
      exact hindexed.lt_length htext
  once i hi := by
    rw [hattached.references_perm.count_eq, List.count_cons]
    by_cases heq : before.cells.length = i
    · have hmem : i ∉ before.references := fun hmem => by
        have := h.lt_length i hmem
        omega
      simp [heq, List.count_eq_zero.mpr hmem]
    · rw [h.once i (by omega)]
      simp [heq]

/-- A new cell under a new path text keeps the draft numbered. -/
theorem Numbered.grafted (h : before.Numbered) (hgraft : Grafted before after owner key title)
    (hfresh : before.index.lookup key = none)
    (hindex : after.index = (key, before.cells.length) :: before.index) : after.Numbered where
  indexed := hgraft.indexed h.indexed
  covered i hi := by
    have hlength := hgraft.length_eq
    by_cases heq : i = before.cells.length
    · exact ⟨key, heq ▸ hgraft.number⟩
    · rcases h.covered i (by omega) with ⟨text, htext⟩
      exact ⟨text, hgraft.lookup_of_some hfresh htext⟩
  found entry hentry := by
    rw [hindex, List.mem_cons] at hentry
    rcases hentry with rfl | hentry
    · exact hgraft.number
    · exact hgraft.lookup_of_some hfresh (h.found entry hentry)

/-- A new cell that is attached under its own path text keeps the draft keyed by paths. -/
theorem PathKeyed.attached (h : before.PathKeyed) (hindexed : before.Indexed)
    (hgraft : Grafted before after owner key title) (hfresh : before.index.lookup key = none)
    (hattached : Attached before after key) : after.PathKeyed where
  root_key i hi := by
    rcases hattached.roots i hi with hold | ⟨rfl, hname⟩
    · rcases h.root_key i hold with ⟨name, hname, hnumber⟩
      exact ⟨name, hname, hgraft.lookup_of_some hfresh hnumber⟩
    · exact ⟨key, hname, hgraft.number⟩
  named i cell hcell name j hlink := by
    rcases hattached.links i cell hcell _ hlink with ⟨old, hold, hmem⟩ | ⟨_, _, hname⟩
    · exact h.named i old hold name j hmem
    · exact hname name rfl
  link_key text i cell hi hcell link hlink := by
    rcases hattached.links i cell hcell link hlink with
      ⟨old, hold, hmem⟩ | ⟨hnew, ⟨text', htext', heq⟩, _⟩
    · -- The fresh cell has another number, so the path text is an old one.
      have hlt := (List.getElem?_eq_some_iff.mp hold).1
      rw [hgraft.index_eq] at hi
      split at hi
      · cases hi
        omega
      · exact hgraft.lookup_of_some hfresh (h.link_key text i old hi hold link hmem)
    · obtain rfl : text = text' :=
        (hgraft.indexed hindexed).inj hi (hgraft.lookup_of_some hfresh htext')
      rw [heq, hnew]
      exact hgraft.number

/-- Entering a fresh cell under a new path text and linking it once keeps the
arrangement. -/
theorem Arranged.attached (h : before.Arranged) (hgraft : Grafted before after owner key title)
    (hfresh : before.index.lookup key = none)
    (hindex : after.index = (key, before.cells.length) :: before.index)
    (hattached : Attached before after key) : after.Arranged where
  toLinked := h.toLinked.attached h.indexed hgraft.length_eq hattached
  toNumbered := h.toNumbered.grafted hgraft hfresh hindex
  toPathKeyed := h.toPathKeyed.attached h.indexed hgraft hfresh hattached

end Attached

namespace Arranged

variable {draft : Draft} {key : Text} {i : Nat} {cell : Cell}

/-- Linking a fresh cell to its owner keeps the arrangement. -/
theorem graft (h : draft.Arranged) {suffix title : Text} {change : Cell → Cell}
    (hi : draft.index.lookup key = some i) (hcell : draft.cells[i]? = some cell)
    (hfresh : draft.index.lookup (key ++ suffix) = none)
    (hsuffix : ∀ name, suffix = '.' :: name → Text.isIdentifier name = true)
    (hchange : (change cell).links.Perm ((suffix, draft.cells.length) :: cell.links)) :
    ((draft.allocate (key ++ suffix) title).modify i change).Arranged := by
  have hlt := h.indexed.lt_length hi
  have hcell' : (draft.allocate (key ++ suffix) title).cells[i]? = some cell := by
    rw [allocate, List.getElem?_append_left hlt, hcell]
  refine h.attached (grafted_allocate_modify h.indexed hi (key ++ suffix) title change) hfresh rfl
    ⟨?_, fun j hj => .inl hj, ?_⟩
  · have hcells := flatMap_references_modify hcell' hchange
    simp only [allocate, List.flatMap_append, List.flatMap_cons, List.flatMap_nil,
      Cell.references, Cell.links_fresh, List.map_nil, List.append_nil] at hcells
    exact (hcells.append_left draft.roots).trans List.perm_middle
  · intro j cell' hj link hlink
    rw [Draft.modify, List.getElem?_modify, Option.map_eq_map, Option.map_eq_some_iff] at hj
    rcases hj with ⟨old, hold, rfl⟩
    by_cases hij : i = j
    · subst hij
      obtain rfl : cell = old := Option.some.inj (hcell'.symm.trans hold)
      rw [if_pos rfl, hchange.mem_iff, List.mem_cons] at hlink
      rcases hlink with rfl | hlink
      · exact .inr ⟨rfl, ⟨key, hi, rfl⟩, hsuffix⟩
      · exact .inl ⟨cell, hcell, hlink⟩
    · rw [if_neg hij] at hlink
      exact .inl ⟨old, getElem?_of_allocate hold hlink, hlink⟩

/-- Linking a fresh cell as a root keeps the arrangement. -/
theorem graftRoot (h : draft.Arranged) {name : Text} (hname : Text.isIdentifier name = true)
    (hfresh : draft.index.lookup name = none) :
    ((draft.allocate name name).link none name draft.cells.length).Arranged := by
  refine h.attached (grafted_allocate_link h.indexed name name) hfresh rfl ⟨?_, ?_, ?_⟩
  · simp only [references, allocate, link, List.flatMap_append, List.flatMap_cons,
      List.flatMap_nil, Cell.references, Cell.links_fresh, List.map_nil, List.append_nil,
      List.append_assoc]
    exact List.perm_middle
  · intro i hi
    rw [link, List.mem_append, List.mem_singleton] at hi
    exact hi.imp id fun heq => ⟨heq, hname⟩
  · intro i cell (hcell : (draft.allocate name name).cells[i]? = some cell) link hlink
    exact .inl ⟨cell, getElem?_of_allocate hcell hlink, hlink⟩

end Arranged
end Draft
end DocComment
