import DocComment.Proofs.Param.Place

/-!
# Changing one place of a tree

The two operations that a comparison of trees needs: changing the first thing
with a key in a list, and changing the node that a path leads to while all else
stays.  Both exist for trees and for branches, and pruning takes one to the
other.

Main results:

- Definition `Param.changeAt`: a tree with one node changed.
- Theorem `Branch.upsert_eq_change`: changing a branch that is there.
- Theorem `Branch.prune_changeAt`: the visible part of a branch that was changed
  at one place.
-/

namespace DocComment

/-! ## Lists of keyed things -/

namespace Keyed

/-- Change the first thing with a key. -/
def change {α : Type} (key : Text) (f : α → α) : List (Text × α) → List (Text × α)
  | [] => []
  | (key', a) :: rest => if key' = key then (key', f a) :: rest else (key', a) :: change key f rest

/-- Changing a thing leaves the same lists empty. -/
theorem isEmpty_change {α : Type} (key : Text) (f : α → α) (things : List (Text × α)) :
    (change key f things).isEmpty = things.isEmpty := by
  fun_cases change key f things <;> rfl

theorem change_id {α : Type} (key : Text) (things : List (Text × α)) :
    change key (fun a => a) things = things := by
  fun_induction change key (fun a => a) things with
  | case1 => rfl
  | case2 a rest => rfl
  | case3 key' a rest hne ih => rw [ih]

/-- A change matters only at the first thing with the key. -/
theorem change_congr {α : Type} {key : Text} {f g : α → α} {things : List (Text × α)}
    (h : ∀ a, things.lookup key = some a → f a = g a) :
    change key f things = change key g things := by
  fun_induction change key f things with
  | case1 => rfl
  | case2 a rest =>
      rw [change, if_pos rfl, h a (by simp)]
  | case3 key' a rest hne ih =>
      rw [change, if_neg hne, ih]
      intro b hb
      refine h b ?_
      rw [List.lookup_cons, beq_false_of_ne fun heq => hne heq.symm]
      exact hb

/-- Changing a thing before and after all things are mapped. -/
theorem map_change {α β : Type} {key : Text} {f : α → α} {g : β → β} (φ : α → β)
    {things : List (Text × α)} (h : ∀ a, things.lookup key = some a → φ (f a) = g (φ a)) :
    (change key f things).map (fun thing => (thing.1, φ thing.2)) =
      change key g (things.map fun thing => (thing.1, φ thing.2)) := by
  fun_induction change key f things with
  | case1 => rfl
  | case2 a rest => simp [change, h a (by simp)]
  | case3 key' a rest hne ih =>
      simp only [List.map_cons, change, if_neg hne]
      rw [ih]
      intro b hb
      refine h b ?_
      rw [List.lookup_cons, beq_false_of_ne fun heq => hne heq.symm]
      exact hb

end Keyed

/-! ## Trees and branches -/

namespace Param

/-- Change a node, or the items of a node when they are meant. -/
def changeInside (marked : Bool) (f : Param → Param) (node : Param) : Param :=
  if marked then { node with items := node.items.map f } else f node

/-- The tree with the node that a path leads to changed. -/
def changeAt (f : Param → Param) : FieldPath → Param → Param
  | [], node => f node
  | step :: rest, node =>
    { node with
      properties :=
        Keyed.change step.name (changeInside step.marked (changeAt f rest)) node.properties }

end Param

namespace Branch

/-- Change a branch, or the items of a branch when they are meant. -/
def changeInside (marked : Bool) (f : Branch → Branch) (branch : Branch) : Branch :=
  if marked then { branch with items := branch.items.map f } else f branch

/-- The branch with the branch that a path leads to changed. -/
def changeAt (f : Branch → Branch) : FieldPath → Branch → Branch
  | [], branch => f branch
  | step :: rest, branch =>
    { branch with
      properties :=
        Keyed.change step.name (changeInside step.marked (changeAt f rest)) branch.properties }

/-- Changing a branch that is there. -/
theorem upsert_eq_change {name : Text} (f : Branch → Branch) {branches : List (Text × Branch)}
    (h : name ∈ branches.map Prod.fst) : upsert name f branches = Keyed.change name f branches := by
  fun_induction upsert name f branches with
  | case1 => simp at h
  | case2 branch rest => rw [Keyed.change, if_pos rfl]
  | case3 key branch rest hne ih =>
      simp only [List.map_cons, List.mem_cons] at h
      rw [Keyed.change, if_neg hne, ih (h.resolve_left fun heq => hne heq.symm)]

/-- What an addition or a change does depends on the one branch it meets. -/
theorem upsert_congr {name : Text} {f g : Branch → Branch} {branch : Branch}
    (h : f (branch.child name) = g (branch.child name)) :
    upsert name f branch.properties = upsert name g branch.properties := by
  rw [child] at h
  generalize branch.properties = branches at h
  fun_induction upsert name f branches with
  | case1 => simpa [upsert] using h
  | case2 first rest => simpa [upsert] using h
  | case3 key first rest hne ih =>
      rw [List.lookup_cons, beq_false_of_ne (Ne.symm hne)] at h
      rw [upsert, if_neg hne, ih h]

/-- A change after an insertion under the same name is one insertion. -/
theorem change_upsert (name : Text) (f g : Branch → Branch) (branches : List (Text × Branch)) :
    Keyed.change name g (upsert name f branches) = upsert name (g ∘ f) branches := by
  fun_induction upsert name f branches with
  | case1 => simp [Keyed.change, upsert]
  | case2 branch rest => simp [Keyed.change, upsert]
  | case3 key branch rest hne ih => simp [Keyed.change, upsert, hne, ih]

/-- A change before an addition or another change, when it leaves a fresh branch
alone. -/
theorem upsert_change {name : Text} (f : Branch → Branch) {g : Branch → Branch}
    (h : g (fresh name) = fresh name) (branches : List (Text × Branch)) :
    upsert name f (Keyed.change name g branches) = upsert name (f ∘ g) branches := by
  fun_induction Keyed.change name g branches with
  | case1 => simp [upsert, h]
  | case2 branch rest => simp [upsert]
  | case3 key branch rest hne ih => simp [upsert, hne, ih]

/-- Changes under different names do not meet. -/
theorem upsert_change_of_ne {name name' : Text} (hne : name ≠ name') (f g : Branch → Branch)
    (branches : List (Text × Branch)) :
    upsert name f (Keyed.change name' g branches) =
      Keyed.change name' g (upsert name f branches) := by
  fun_induction Keyed.change name' g branches with
  | case1 => simp [upsert, Keyed.change, hne]
  | case2 branch rest => simp [upsert, Keyed.change, Ne.symm hne]
  | case3 key branch rest hkey ih =>
      by_cases hname : key = name
      · simp [upsert, Keyed.change, hname, hne]
      · simp [upsert, Keyed.change, hname, hkey, ih]

/-- The way down starts at the property with the name of the first step. -/
theorem descend_cons_of_lookup {branch property : Branch} {step : Step}
    (h : branch.properties.lookup step.name = some property) (rest : FieldPath) :
    branch.descend (step :: rest) =
      (if step.marked then property.itemsOrFresh else property).descend rest := by
  simp [descend, enter, child, h]

/-- Pruning keeps the items of an array only. -/
theorem prune_with_items (branch : Branch) (items : Option Branch) :
    prune { branch with items } =
      { prune branch with items := if branch.type = .array then items.map prune else none } := by
  rw [prune_eq, prune_eq branch]

/-- Pruning keeps the properties of an object only. -/
theorem prune_with_properties (branch : Branch) (properties : List (Text × Branch)) :
    prune { branch with properties } =
      { prune branch with
        properties := if branch.type = .object then
            properties.map fun property => (property.1, prune property.2)
          else [] } := by
  rw [prune_eq, prune_eq branch]

/-- The visible part of a branch that was changed, or whose items were. -/
theorem prune_changeInside {marked : Bool} {f : Branch → Branch} {g : Param → Param}
    {branch : Branch} (hself : marked = false → prune (f branch) = g (prune branch))
    (hitems : marked = true → ∀ item, branch.items = some item → prune (f item) = g (prune item)) :
    prune (branch.changeInside marked f) = (prune branch).changeInside marked g := by
  cases marked with
  | false => exact hself rfl
  | true =>
      have hmap : (branch.items.map f).map prune = (branch.items.map prune).map g := by
        cases hitem : branch.items with
        | none => rfl
        | some item => simp [hitems rfl item hitem]
      simp only [changeInside, Param.changeInside, if_true, prune_with_items, hmap]
      rw [prune_eq branch]
      by_cases htype : branch.type = .array <;> simp [htype]

/-- The visible part of a branch that was changed at one place, when the visible
part of that place is changed accordingly. -/
theorem prune_changeAt {f : Branch → Branch} {g : Param → Param} {place : FieldPath}
    {branch : Branch}
    (h : prune (f (branch.descend place)) = g (prune (branch.descend place))) :
    prune (branch.changeAt f place) = (prune branch).changeAt g place := by
  induction place generalizing branch with
  | nil => exact h
  | cons step place ih =>
      have hproperty : ∀ property, branch.properties.lookup step.name = some property →
          prune (property.changeInside step.marked (changeAt f place)) =
            (prune property).changeInside step.marked (Param.changeAt g place) := by
        intro property hlookup
        rw [descend_cons_of_lookup hlookup] at h
        refine prune_changeInside ?_ ?_
        · intro hmarked
          exact ih (by simpa [hmarked] using h)
        · intro hmarked item hitem
          exact ih (by simpa [hmarked, itemsOrFresh, hitem] using h)
      rw [changeAt, Param.changeAt, prune_with_properties, Keyed.map_change prune hproperty]
      rw [prune_eq branch]
      by_cases htype : branch.type = .object
      · simp [htype]
      · simp [htype, Keyed.change]

end Branch
end DocComment
