import DocComment.Proofs.Param.Arena

/-!
# Every cell that is asked for is there

The operations on a draft follow numbers to cells.  Here they are written once
more in a strict form, which has no result as soon as one of the numbers is not
that of a cell.  Starting from the empty draft the strict operations always have
a result, and it is the draft of the plain ones: no number ever leads beyond the
cells.

Main results:

- Definition `Draft.add?`: take in one entry, with every access checked.
- Theorem `Draft.completes_follow`: from an arranged draft the strict operations
  complete, and leave an arranged draft.
- Theorem `Draft.completes_ofEntries`: so do all entries of a list, one after the
  other.
-/

namespace DocComment
namespace Draft

/-! ## Strict operations -/

/-- Change one cell, which has to be there. -/
def modify? (draft : Draft) (i : Nat) (change : Cell → Cell) : Option Draft :=
  if i < draft.cells.length then some (draft.modify i change) else none

/-- Give a cell a type, if it is there. -/
def setType? (draft : Draft) (i : Nat) (type : TypeName) : Option Draft :=
  draft.modify? i fun cell => { cell with type }

/-- Give a cell a description, if it is there. -/
def setDescription? (draft : Draft) (i : Nat) (description : Text) : Option Draft :=
  draft.modify? i fun cell => { cell with description }

/-- Whether a cell has properties, if it is there. -/
def hasProperties? (draft : Draft) (i : Nat) : Option Bool :=
  draft.cells[i]?.map fun cell => !cell.properties.isEmpty

/-- Link a cell as the last property of its parent, which has to be there, or as
the last root. -/
def link? (draft : Draft) (parent : Option Nat) (name : Text) (i : Nat) : Option Draft :=
  match parent with
  | some p =>
    draft.modify? p fun cell => { cell with properties := cell.properties ++ [(name, i)] }
  | none => some { draft with roots := draft.roots ++ [i] }

/-- The cell of a path, created under the given parent when it is missing. -/
def child? (draft : Draft) (parent : Option Nat) (key name : Text) : Option (Draft × Nat) :=
  match draft.index.lookup key with
  | some i => some (draft, i)
  | none => do
    let linked ← (draft.allocate key name).link? parent name draft.cells.length
    return (linked, draft.cells.length)

/-- The cell of the items of a cell, which has to be there. -/
def itemsOf? (draft : Draft) (i : Nat) (key : Text) : Option (Draft × Nat) := do
  let cell ← draft.cells[i]?
  match cell.items with
  | some j => return (draft, j)
  | none =>
    let linked ← (draft.allocate (key ++ brackets) []).modify? i fun cell =>
      { cell with items := some draft.cells.length }
    return (linked, draft.cells.length)

/-- Give a cell a type expression, with every access checked. -/
def applyType? (draft : Draft) (i : Nat) (key : Text) : TypeExpr → Option Draft
  | .named name => draft.setType? i name
  | .anyArray => draft.setType? i .array
  | .arrayOf element => do
    let draft ← draft.setType? i .array
    let items ← draft.itemsOf? i key
    items.1.applyType? items.2 (key ++ brackets) element

/-- Describe a cell by the entry whose path leads to it, with every access
checked. -/
def define? (draft : Draft) (i : Nat) (key : Text) (marked : Bool) (entry : ParamEntry) :
    Option Draft := do
  let type := entry.type.getD (.named .string)
  let draft ← draft.setDescription? i entry.description
  if marked then
    let draft ← draft.setType? i .array
    let items ← draft.itemsOf? i key
    items.1.applyType? items.2 (key ++ brackets) type
  else
    let full ← draft.hasProperties? i
    if full && !type.isArray then draft.setType? i .object
    else draft.applyType? i key type

/-- Follow the steps of an entry from a parent, with every access checked. -/
def follow? (entry : ParamEntry) (draft : Draft) (parent : Option Nat) (key : Text) :
    FieldPath → Option Draft
  | [] => some draft
  | [leaf] => do
    let place ← draft.child? parent (extend key leaf.name) leaf.name
    place.1.define? place.2 (extend key leaf.name) leaf.marked entry
  | step :: next :: rest => do
    let place ← draft.child? parent (extend key step.name) step.name
    if step.marked then
      let draft ← place.1.setType? place.2 .array
      let items ← draft.itemsOf? place.2 (extend key step.name)
      let draft ← items.1.setType? items.2 .object
      follow? entry draft (some items.2) (extend key step.name ++ brackets) (next :: rest)
    else
      let draft ← place.1.setType? place.2 .object
      follow? entry draft (some place.2) (extend key step.name) (next :: rest)

/-- Take in one entry, with every access checked. -/
def add? (draft : Draft) (entry : ParamEntry) : Option Draft :=
  follow? entry draft none [] entry.path

/-! ## Completion -/

/-- A strict operation completes: it gives the draft of the plain one, which is
arranged and finds everything under its old number. -/
structure Completes (before : Draft) (strict : Option Draft) (after : Draft) : Prop where
  strict_eq : strict = some after
  arranged : after.Arranged
  keeps : ∀ {key : Text} {i : Nat},
    before.index.lookup key = some i → after.index.lookup key = some i

/-- The same for an operation that also gives the number of a path text. -/
structure Finds (before : Draft) (strict : Option (Draft × Nat)) (place : Draft × Nat)
    (key : Text) : Prop where
  strict_eq : strict = some place
  arranged : place.1.Arranged
  keeps : ∀ {text : Text} {i : Nat},
    before.index.lookup text = some i → place.1.index.lookup text = some i
  number : place.1.index.lookup key = some place.2

/-- One operation after another completes when each does. -/
theorem Completes.bind {before middle after : Draft} {strict : Option Draft}
    {next : Draft → Option Draft} (h : Completes before strict middle)
    (h' : Completes middle (next middle) after) : Completes before (strict >>= next) after where
  strict_eq := by
    rw [h.strict_eq]
    exact h'.strict_eq
  arranged := h'.arranged
  keeps hi := h'.keeps (h.keeps hi)

/-- An operation at a place that was found completes when it completes at the place. -/
theorem Finds.bind {before after : Draft} {strict : Option (Draft × Nat)} {place : Draft × Nat}
    {key : Text} {next : Draft × Nat → Option Draft} (h : Finds before strict place key)
    (h' : Completes place.1 (next place) after) : Completes before (strict >>= next) after where
  strict_eq := by
    rw [h.strict_eq]
    exact h'.strict_eq
  arranged := h'.arranged
  keeps hi := h'.keeps (h.keeps hi)

variable {draft : Draft} {key : Text} {i : Nat}

/-- Changing a cell that exists does not fail. -/
theorem modify?_eq (change : Cell → Cell) (h : i < draft.cells.length) :
    draft.modify? i change = some (draft.modify i change) :=
  if_pos h

/-- Setting the type of a known cell does not fail. -/
theorem completes_setType (h : draft.Arranged) (hi : draft.index.lookup key = some i)
    (type : TypeName) : Completes draft (draft.setType? i type) (draft.setType i type) where
  strict_eq := modify?_eq _ (h.indexed.lt_length hi)
  arranged := h.setType i type
  keeps := id

/-- Setting the description of a known cell does not fail. -/
theorem completes_setDescription (h : draft.Arranged) (hi : draft.index.lookup key = some i)
    (description : Text) :
    Completes draft (draft.setDescription? i description)
      (draft.setDescription i description) where
  strict_eq := modify?_eq _ (h.indexed.lt_length hi)
  arranged := h.setDescription i description
  keeps := id

/-- The cells of a draft stay where they are when one is added. -/
theorem lt_length_allocate (key title : Text) (h : i < draft.cells.length) :
    i < (draft.allocate key title).cells.length := by
  simp only [allocate, List.length_append, List.length_singleton]
  omega

/-- The items of a known cell are found or made under its path text with a pair of
brackets. -/
theorem finds_itemsOf (h : draft.Arranged) (hi : draft.index.lookup key = some i) :
    Finds draft (draft.itemsOf? i key) (draft.itemsOf i key) (key ++ brackets) := by
  rcases h.exists_cell hi with ⟨cell, hcell⟩
  cases hitems : cell.items with
  | some j =>
      have hplace : draft.itemsOf i key = (draft, j) := by
        simp [itemsOf, hcell, hitems]
      have hlink : (brackets, j) ∈ cell.links := Cell.mem_links.mpr (.inl ⟨rfl, hitems⟩)
      rw [hplace]
      exact
        { strict_eq := by simp [itemsOf?, hcell, hitems]
          arranged := h
          keeps := id
          number := h.link_key key i cell hi hcell _ hlink }
  | none =>
      have hfresh := h.lookup_brackets hi hcell hitems
      have hplace : draft.itemsOf i key =
          ((draft.allocate (key ++ brackets) []).modify i fun cell =>
            { cell with items := some draft.cells.length }, draft.cells.length) := by
        simp [itemsOf, hcell, hitems]
      have hlt := lt_length_allocate (key ++ brackets) [] (h.indexed.lt_length hi)
      have hgraft := grafted_allocate_modify h.indexed hi (key ++ brackets) []
        fun cell => { cell with items := some draft.cells.length }
      rw [hplace]
      exact
        { strict_eq := by simp [itemsOf?, hcell, hitems, modify?_eq _ hlt]
          arranged := h.graft hi hcell hfresh (by simp [brackets]) (Cell.links_addItems hitems _)
          keeps := hgraft.lookup_of_some hfresh
          number := hgraft.number }

/-! ## Types and descriptions -/

/-- Making a cell an array and working on its items completes if the work
does. -/
theorem completes_array {after : Draft} (h : draft.Arranged)
    (hi : draft.index.lookup key = some i) {next : Draft × Nat → Option Draft}
    (hnext : let items := (draft.setType i .array).itemsOf i key
      items.1.Arranged → items.1.index.lookup (key ++ brackets) = some items.2 →
        Completes items.1 (next items) after) :
    Completes draft (draft.setType? i .array >>= fun draft => draft.itemsOf? i key >>= next)
      after := by
  have htype := completes_setType h hi .array
  have hitems := finds_itemsOf htype.arranged (htype.keeps hi)
  exact htype.bind (hitems.bind (hnext hitems.arranged hitems.number))

/-- Giving a type to a known cell does not fail, also when the type makes items for the
cell. -/
theorem completes_applyType (h : draft.Arranged) (hi : draft.index.lookup key = some i)
    (type : TypeExpr) :
    Completes draft (draft.applyType? i key type) (draft.applyType i key type) := by
  induction type generalizing draft key i with
  | named name => exact completes_setType h hi name
  | anyArray => exact completes_setType h hi .array
  | arrayOf element ih =>
      exact completes_array h hi fun harranged hnumber => ih harranged hnumber

/-- Asking a known cell for its properties does not fail. -/
theorem hasProperties?_eq (h : draft.Arranged) (hi : draft.index.lookup key = some i) :
    draft.hasProperties? i = some (draft.hasProperties i) := by
  rcases h.exists_cell hi with ⟨cell, hcell⟩
  simp [hasProperties?, hasProperties, hcell]

/-- Writing an entry into a known cell does not fail. -/
theorem completes_define (h : draft.Arranged) (hi : draft.index.lookup key = some i)
    (marked : Bool) (entry : ParamEntry) :
    Completes draft (draft.define? i key marked entry) (draft.define i key marked entry) := by
  have hdescribed := completes_setDescription h hi entry.description
  have hi' := hdescribed.keeps hi
  refine hdescribed.bind ?_
  simp only [define]
  cases marked with
  | true =>
      exact completes_array hdescribed.arranged hi' fun harranged hnumber =>
        completes_applyType harranged hnumber _
  | false =>
      simp only [Bool.false_eq_true, if_false, hasProperties?_eq hdescribed.arranged hi',
        Option.bind_eq_bind, Option.bind_some]
      split
      · exact completes_setType hdescribed.arranged hi' .object
      · exact completes_applyType hdescribed.arranged hi' _

/-! ## Following a path -/

/-- A parent and its path text belong together; without a parent the text is
empty. -/
def At (draft : Draft) (parent : Option Nat) (key : Text) : Prop :=
  match parent with
  | none => key = []
  | some p => key ≠ [] ∧ draft.index.lookup key = some p

/-- The cell of a step is found, or made below its parent. -/
theorem finds_child (h : draft.Arranged) {parent : Option Nat} (hat : draft.At parent key)
    {name : Text} (hname : Text.isIdentifier name = true) :
    Finds draft (draft.child? parent (extend key name) name)
      (draft.child parent (extend key name) name) (extend key name) := by
  cases hlookup : draft.index.lookup (extend key name) with
  | some i =>
      have hplace : draft.child parent (extend key name) name = (draft, i) := by
        simp [child, hlookup]
      rw [hplace]
      exact
        { strict_eq := by simp [child?, hlookup]
          arranged := h
          keeps := id
          number := hlookup }
  | none =>
      have hplace : draft.child parent (extend key name) name =
          ((draft.allocate (extend key name) name).link parent name draft.cells.length,
            draft.cells.length) := by
        simp [child, hlookup]
      rw [hplace]
      cases parent with
      | none =>
          obtain rfl : key = [] := hat
          have hgraft := grafted_allocate_link h.indexed (extend [] name) name
          exact
            { strict_eq := by simp [child?, hlookup, link?, link]
              arranged := h.graftRoot hname hlookup
              keeps := hgraft.lookup_of_some hlookup
              number := hgraft.number }
      | some p =>
          rcases hat with ⟨hkey, hp⟩
          rcases h.exists_cell hp with ⟨cell, hcell⟩
          have hlt := lt_length_allocate (extend key name) name (h.indexed.lt_length hp)
          have hgraft := grafted_allocate_modify h.indexed hp (extend key name) name
            fun cell => { cell with properties := cell.properties ++ [(name, draft.cells.length)] }
          have hlinked : ((draft.allocate (extend key name) name).link (some p) name
              draft.cells.length).Arranged := by
            have hextend : extend key name = key ++ '.' :: name := by
              simp [extend, hkey]
            rw [hextend] at hlookup ⊢
            refine h.graft hp hcell hlookup ?_ (Cell.links_addProperty cell name _)
            intro name' heq
            obtain rfl : name = name' := List.tail_eq_of_cons_eq heq
            exact hname
          exact
            { strict_eq := by simp [child?, hlookup, link?, link, modify?_eq _ hlt]
              arranged := hlinked
              keeps := hgraft.lookup_of_some hlookup
              number := hgraft.number }

/-- Following the steps of an entry completes, from every parent. -/
theorem completes_follow {entry : ParamEntry} {path : FieldPath} (hpath : path.Named)
    (h : draft.Arranged) {parent : Option Nat} (hat : draft.At parent key) :
    Completes draft (follow? entry draft parent key path) (follow entry draft parent key path) := by
  induction path generalizing draft parent key with
  | nil => exact ⟨rfl, h, id⟩
  | cons step rest ih =>
      have hname := hpath step List.mem_cons_self
      have hrest : FieldPath.Named rest := fun step' hstep' =>
        hpath step' (List.mem_cons_of_mem _ hstep')
      have hplace := finds_child h hat hname
      cases rest with
      | nil => exact hplace.bind (completes_define hplace.arranged hplace.number _ entry)
      | cons next rest =>
          refine hplace.bind ?_
          simp only [follow]
          split
          · refine completes_array hplace.arranged hplace.number ?_
            intro items harranged hnumber
            have htype := completes_setType harranged hnumber .object
            exact htype.bind (ih hrest htype.arranged ⟨by simp [brackets], htype.keeps hnumber⟩)
          · have htype := completes_setType hplace.arranged hplace.number .object
            exact htype.bind (ih hrest htype.arranged
              ⟨Key.extend_ne_nil key hname, htype.keeps hplace.number⟩)

/-- Taking in an entry completes. -/
theorem completes_add (h : draft.Arranged) {entry : ParamEntry} (hpath : entry.path.Named) :
    Completes draft (draft.add? entry) (draft.add entry) :=
  completes_follow hpath h rfl

/-- Taking in any number of entries completes. -/
theorem completes_ofEntries {entries : List ParamEntry}
    (hpaths : ∀ entry ∈ entries, entry.path.Named) :
    Completes empty (entries.foldlM add? empty) (ofEntries entries) := by
  have hrun : ∀ (entries : List ParamEntry) (draft : Draft),
      (∀ entry ∈ entries, entry.path.Named) → draft.Arranged →
        Completes draft (entries.foldlM add? draft) (entries.foldl add draft) := by
    intro entries
    induction entries with
    | nil =>
        intro draft _ h
        exact ⟨rfl, h, id⟩
    | cons entry entries ih =>
        intro draft hnamed h
        have hadd := completes_add h (hnamed entry List.mem_cons_self)
        rw [List.foldlM_cons, List.foldl_cons]
        exact hadd.bind (ih _ (fun entry' hmem => hnamed entry' (List.mem_cons_of_mem _ hmem))
          hadd.arranged)
  exact hrun entries empty hpaths arranged_empty

end Draft
end DocComment
