import DocComment.Proofs.Param.Change
import DocComment.Proofs.Param.Children

/-!
# Exchanging independent entries

Two entries are independent when their paths share a place and go on from it with
different names.  They write to different branches below the place, and at the
place and above it both do the same.  So their order can show only in the order
of the two names at the place: it shows when both names are new there, and the
two names then stay neighbours whatever entries follow.

The comparison is made on the properties of the forest.  A rearrangement of the
properties of one place is first carried up to the whole forest, then through
all further entries, and at the end to the visible trees.

Main results:

- Definition `Param.exchange`: a node with two neighbouring properties exchanged.
- Theorem `Branch.insertAt_comm_below`: two entries in either order, from what they
  do at the place where they part.
- Theorem `Branch.KeepsEmpty.insertAt_rearrangeAt`: a further entry after a
  rearrangement of one place.
- Theorem `Draft.forest_exchange_independent`: the trees of a list of entries with
  two independent neighbours exchanged.
-/

namespace DocComment

/-! ## Exchanging two neighbours -/

namespace Keyed

/-- Exchange the first two neighbours that have the given keys in this order. -/
def exchange {α : Type} (key key' : Text) : List (Text × α) → List (Text × α)
  | first :: second :: rest =>
    if first.1 = key ∧ second.1 = key' then second :: first :: rest
    else first :: exchange key key' (second :: rest)
  | things => things

/-- An exchange leaves the same lists empty. -/
theorem isEmpty_exchange {α : Type} (key key' : Text) (things : List (Text × α)) :
    (exchange key key' things).isEmpty = things.isEmpty := by
  fun_cases exchange key key' things <;> rfl

/-- Things can be exchanged before or after they are mapped. -/
theorem map_exchange {α β : Type} (key key' : Text) (φ : α → β) (things : List (Text × α)) :
    (exchange key key' things).map (fun thing => (thing.1, φ thing.2)) =
      exchange key key' (things.map fun thing => (thing.1, φ thing.2)) := by
  fun_induction exchange key key' things with
  | case1 first second rest hkeys => simp [exchange, hkeys]
  | case2 first second rest hkeys ih =>
      simp only [List.map_cons] at ih ⊢
      rw [exchange, if_neg hkeys, ih]
  | case3 things hshort =>
      match things with
      | [] => rfl
      | [_] => rfl
      | first :: second :: rest => exact absurd rfl (hshort first second rest)

/-- A thing stays first unless it has the one key and the next has the other. -/
theorem exchange_cons {α : Type} {key key' : Text} {first : Text × α} {rest : List (Text × α)}
    (h : first.1 = key → rest.head?.map Prod.fst ≠ some key') :
    exchange key key' (first :: rest) = first :: exchange key key' rest := by
  cases rest with
  | nil => rfl
  | cons second rest => rw [exchange, if_neg fun hkeys => h hkeys.1 (by simp [hkeys.2])]

/-- Two things at the end are exchanged when the first key is new. -/
theorem exchange_append_pair {α : Type} {key : Text} (key' : Text) (a b : α)
    {things : List (Text × α)} (h : key ∉ things.map Prod.fst) :
    exchange key key' (things ++ [(key, a), (key', b)]) = things ++ [(key', b), (key, a)] := by
  induction things with
  | nil => simp [exchange]
  | cons first rest ih =>
      simp only [List.map_cons, List.mem_cons, not_or] at h
      rw [List.cons_append, exchange_cons fun heq => absurd heq.symm h.1, ih h.2, List.cons_append]

end Keyed

namespace Branch

/-- A change keeps the first name. -/
theorem head?_upsert (name : Text) (change : Branch → Branch) (first : Text × Branch)
    (rest : List (Text × Branch)) :
    (upsert name change (first :: rest)).head?.map Prod.fst = some first.1 := by
  rw [upsert]
  split <;> rfl

/-- An insertion passes over other names. -/
theorem upsert_cons_of_ne {name : Text} (change : Branch → Branch) {first : Text × Branch}
    (h : first.1 ≠ name) (rest : List (Text × Branch)) :
    upsert name change (first :: rest) = first :: upsert name change rest := by
  rw [upsert, if_neg h]

/-- An insertion changes the first thing with its name. -/
theorem upsert_cons_of_eq {name : Text} (change : Branch → Branch) {first : Text × Branch}
    (h : first.1 = name) (rest : List (Text × Branch)) :
    upsert name change (first :: rest) = (first.1, change first.2) :: rest := by
  rw [upsert, if_pos h]

/-- Changing a branch does not disturb an exchange, unless the branch is the
second of the two and new. -/
theorem exchange_upsert {key key' name : Text} (hne : key ≠ key') (change : Branch → Branch)
    {branches : List (Text × Branch)} (h : name ∈ branches.map Prod.fst ∨ name ≠ key') :
    Keyed.exchange key key' (upsert name change branches) =
      upsert name change (Keyed.exchange key key' branches) := by
  fun_induction Keyed.exchange key key' branches with
  | case1 first second rest hkeys =>
      by_cases hfirst : first.1 = name
      · have hsecond : second.1 ≠ name := fun heq => hne (by rw [← hkeys.1, ← hkeys.2, hfirst, heq])
        rw [upsert_cons_of_eq change hfirst, upsert_cons_of_ne change hsecond,
          upsert_cons_of_eq change hfirst, Keyed.exchange, if_pos hkeys]
      · rw [upsert_cons_of_ne change hfirst]
        by_cases hsecond : second.1 = name
        · rw [upsert_cons_of_eq change hsecond, upsert_cons_of_eq change hsecond, Keyed.exchange,
            if_pos hkeys]
        · rw [upsert_cons_of_ne change hsecond, upsert_cons_of_ne change hsecond,
            upsert_cons_of_ne change hfirst, Keyed.exchange, if_pos hkeys]
  | case2 first second rest hkeys ih =>
      by_cases hfirst : first.1 = name
      · rw [upsert_cons_of_eq change hfirst, upsert_cons_of_eq change hfirst, Keyed.exchange,
          if_neg hkeys]
      · have htail : name ∈ (second :: rest).map Prod.fst ∨ name ≠ key' :=
          h.imp_left fun hmem => (List.mem_cons.mp hmem).resolve_left fun heq => hfirst heq.symm
        rw [upsert_cons_of_ne change hfirst, upsert_cons_of_ne change hfirst, ← ih htail]
        refine Keyed.exchange_cons fun heq hhead => hkeys ⟨heq, ?_⟩
        rw [head?_upsert] at hhead
        exact Option.some.inj hhead
  | case3 things hshort =>
      match things with
      | [] => rfl
      | [first] =>
          by_cases hfirst : first.1 = name
          · rw [upsert_cons_of_eq change hfirst]
            rfl
          · -- The new branch comes right after the only one there is.
            have hname : name ≠ key' := h.resolve_left fun hmem =>
              hfirst (List.mem_singleton.mp hmem).symm
            rw [upsert_cons_of_ne change hfirst]
            exact Keyed.exchange_cons fun _ hhead => hname (Option.some.inj hhead)
      | first :: second :: rest => exact absurd rfl (hshort first second rest)

/-- Two changes of different branches, one of which is there. -/
theorem upsert_comm_of_mem {name name' : Text} (hne : name ≠ name') (f g : Branch → Branch)
    {branches : List (Text × Branch)}
    (h : name ∈ branches.map Prod.fst ∨ name' ∈ branches.map Prod.fst) :
    upsert name f (upsert name' g branches) = upsert name' g (upsert name f branches) := by
  induction branches with
  | nil => simp at h
  | cons first rest ih =>
      rcases first with ⟨key, branch⟩
      by_cases hkey : key = name
      · simp [upsert, hkey, hne]
      · by_cases hkey' : key = name'
        · simp [upsert, hkey', Ne.symm hne]
        · simp only [List.map_cons, List.mem_cons, Ne.symm hkey, Ne.symm hkey', false_or] at h
          simp [upsert, hkey, hkey', ih h]

/-- Two changes that add different branches. -/
theorem upsert_comm_of_notMem {name name' : Text} (hne : name ≠ name') (f g : Branch → Branch)
    {branches : List (Text × Branch)} (h : name ∉ branches.map Prod.fst)
    (h' : name' ∉ branches.map Prod.fst) :
    upsert name f (upsert name' g branches) =
      Keyed.exchange name name' (upsert name' g (upsert name f branches)) := by
  have hnew : name' ∉ (branches ++ [(name, f (fresh name))]).map Prod.fst := by
    simp [h', Ne.symm hne]
  have hnew' : name ∉ (branches ++ [(name', g (fresh name'))]).map Prod.fst := by
    simp [h, hne]
  rw [upsert_of_notMem f h, upsert_of_notMem g h', upsert_of_notMem g hnew,
    upsert_of_notMem f hnew', List.append_assoc, List.append_assoc]
  exact (Keyed.exchange_append_pair name' _ _ h).symm

/-! ## Rearranging the properties of one place -/

/-- The branch with its properties rearranged. -/
def rearrange (f : List (Text × Branch) → List (Text × Branch)) (branch : Branch) : Branch :=
  { branch with properties := f branch.properties }

/-- Properties with those of one place below them rearranged. -/
def rearrangeAt (f : List (Text × Branch) → List (Text × Branch)) :
    FieldPath → List (Text × Branch) → List (Text × Branch)
  | [] => f
  | step :: rest =>
    Keyed.change step.name (changeInside step.marked (rearrange (rearrangeAt f rest)))

/-- A change at a place below a branch is one of the properties of the branch. -/
theorem changeAt_rearrange (f : List (Text × Branch) → List (Text × Branch)) (place : FieldPath) :
    changeAt (rearrange f) place = rearrange (rearrangeAt f place) := by
  induction place with
  | nil => rfl
  | cons step place ih =>
      funext branch
      rw [changeAt, ih, rearrange, rearrangeAt]

/-- Pass a branch with one step and go on among the properties that it leads to. -/
def pass (step : Step) (f : List (Text × Branch) → List (Text × Branch)) (branch : Branch) :
    Branch :=
  if step.marked then
    { branch with
      type := .array
      items := some { rearrange f branch.itemsOrFresh with type := .object } }
  else { rearrange f branch with type := .object }

section Pass

variable {step : Step} {f g : List (Text × Branch) → List (Text × Branch)}

/-- An entry that does not end at a step passes it. -/
theorem visit_eq_pass (entry : ParamEntry) (step : Step) {rest : FieldPath} (h : rest ≠ []) :
    visit entry step rest = pass step (insertAt entry rest) := by
  funext branch
  exact visit_of_ne_nil entry step h branch

/-- Two changes below one step are one change. -/
theorem pass_pass (branch : Branch) :
    pass step g (pass step f branch) = pass step (g ∘ f) branch := by
  simp only [pass]
  split <;> rfl

/-- A change below a step depends on the properties there only. -/
theorem pass_congr {name : Text} {marked : Bool} {branch : Branch}
    (h : f (branch.enter ⟨name, marked⟩).properties = g (branch.enter ⟨name, marked⟩).properties) :
    pass ⟨name, marked⟩ f (branch.child name) = pass ⟨name, marked⟩ g (branch.child name) := by
  cases marked with
  | false => simpa [pass, rearrange, enter] using h
  | true => simpa [pass, rearrange, enter] using h

/-- A rearrangement after a change below the same step is one change. -/
theorem changeInside_pass (step : Step) (branch : Branch) :
    changeInside step.marked (rearrange g) (pass step f branch) = pass step (g ∘ f) branch := by
  simp only [pass, changeInside]
  split <;> rfl

/-- Two entries in either order, from what they do at the place where they part. -/
theorem insertAt_comm_below {entry entry' : ParamEntry} {place rest rest' : FieldPath}
    (hrest : rest ≠ []) (hrest' : rest' ≠ []) (branch : Branch)
    (h : insertAt entry rest (insertAt entry' rest' (branch.descend place).properties) =
      f (insertAt entry' rest' (insertAt entry rest (branch.descend place).properties))) :
    insertAt entry (place ++ rest) (insertAt entry' (place ++ rest') branch.properties) =
      rearrangeAt f place
        (insertAt entry' (place ++ rest') (insertAt entry (place ++ rest) branch.properties)) := by
  induction place generalizing branch with
  | nil => exact h
  | cons step place ih =>
      have hne : place ++ rest ≠ [] := by simp [hrest]
      have hne' : place ++ rest' ≠ [] := by simp [hrest']
      simp only [List.cons_append, insertAt_cons, visit_eq_pass _ _ hne, visit_eq_pass _ _ hne',
        upsert_upsert, rearrangeAt, change_upsert]
      refine upsert_congr ?_
      simp only [Function.comp_apply, pass_pass, changeInside_pass]
      exact pass_congr (ih _ h)

/-! ## Further entries -/

/-- The rearrangement leaves an empty list empty, and no other. -/
def KeepsEmpty (f : List (Text × Branch) → List (Text × Branch)) : Prop :=
  ∀ branches, (f branches).isEmpty = branches.isEmpty

/-- A rearrangement at a place leaves the same lists empty. -/
theorem KeepsEmpty.rearrangeAt (h : KeepsEmpty f) (place : FieldPath) :
    KeepsEmpty (rearrangeAt f place) := by
  cases place with
  | nil => exact h
  | cons step place => exact fun branches => Keyed.isEmpty_change _ _ branches

/-- There is nothing to rearrange in a fresh branch. -/
theorem KeepsEmpty.rearrange_fresh (h : KeepsEmpty f) (title : Text) :
    rearrange f (fresh title) = fresh title := by
  have hnil : f [] = [] := List.isEmpty_iff.mp (h [])
  simp [rearrange, fresh, hnil]

/-- There is nothing to rearrange inside of a fresh branch. -/
theorem KeepsEmpty.changeInside_fresh (h : KeepsEmpty f) (marked : Bool) (title : Text) :
    changeInside marked (rearrange f) (fresh title) = fresh title := by
  cases marked with
  | false => exact h.rearrange_fresh title
  | true => rfl

/-- A rearrangement inside of the items is one of the items, also when they are made
first. -/
theorem KeepsEmpty.itemsOrFresh_changeInside (h : KeepsEmpty f) (branch : Branch) :
    (changeInside true (rearrange f) branch).itemsOrFresh = rearrange f branch.itemsOrFresh := by
  have hmap := Option.getD_map (rearrange f) (fresh []) branch.items
  rw [h.rearrange_fresh] at hmap
  exact hmap

/-- A type goes to a branch and its items, and to no properties. -/
theorem KeepsEmpty.applyType_changeInside (h : KeepsEmpty f) (marked : Bool) (type : TypeExpr)
    (branch : Branch) :
    applyType type (changeInside marked (rearrange f) branch) =
      changeInside marked (rearrange f) (applyType type branch) := by
  have hrearrange : ∀ (type : TypeExpr) (branch : Branch),
      applyType type (rearrange f branch) = rearrange f (applyType type branch) := by
    intro type branch
    cases type <;> rfl
  cases marked with
  | false => exact hrearrange type branch
  | true =>
      cases type with
      | named name => rfl
      | anyArray => rfl
      | arrayOf element =>
          rw [applyType, h.itemsOrFresh_changeInside, hrearrange]
          rfl

/-- Writing an entry and rearranging inside of the branch can be exchanged. -/
theorem KeepsEmpty.define_changeInside (h : KeepsEmpty f) (entry : ParamEntry) (leaf marked : Bool)
    (branch : Branch) :
    define entry leaf (changeInside marked (rearrange f) branch) =
      changeInside marked (rearrange f) (define entry leaf branch) := by
  have hempty : (changeInside marked (rearrange f) branch).properties.isEmpty =
      branch.properties.isEmpty := by
    cases marked with
    | false => exact h branch.properties
    | true => rfl
  have hdescribe : { changeInside marked (rearrange f) branch with
      description := entry.description } =
        changeInside marked (rearrange f) { branch with description := entry.description } := by
    cases marked <;> rfl
  rw [define_eq, define_eq, hempty, hdescribe]
  split
  · cases marked <;> rfl
  · exact h.applyType_changeInside marked _ _

/-- A change below a step after a rearrangement there is one change. -/
theorem KeepsEmpty.pass_changeInside (h : KeepsEmpty f) (step : Step) (branch : Branch) :
    pass step g (changeInside step.marked (rearrange f) branch) = pass step (g ∘ f) branch := by
  cases hmarked : step.marked with
  | false => simp [pass, changeInside, hmarked, rearrange]
  | true =>
      simp only [pass, hmarked, h.itemsOrFresh_changeInside]
      rfl

/-- One part of a branch is passed, the other rearranged. -/
theorem pass_changeInside_of_ne {marked : Bool} (h : step.marked ≠ marked) (branch : Branch) :
    pass step g (changeInside marked (rearrange f) branch) =
      changeInside marked (rearrange f) (pass step g branch) := by
  cases hmarked : step.marked with
  | false =>
      have hother : marked = true := by simpa [hmarked] using h
      simp [pass, changeInside, hmarked, hother, rearrange]
  | true =>
      have hother : marked = false := by simpa [hmarked] using h
      simp [pass, changeInside, hmarked, hother, rearrange, itemsOrFresh]

/-- An entry that visits a branch does the same whether the part that a step
leads to was rearranged before or is rearranged after. -/
theorem KeepsEmpty.visit_changeInside (h : KeepsEmpty f) (entry : ParamEntry) {name : Text}
    (mark : Bool) {marked : Bool} {rest : FieldPath} {branch : Branch}
    (hbelow : insertAt entry rest (f (branch.enter ⟨name, marked⟩).properties) =
      f (insertAt entry rest (branch.enter ⟨name, marked⟩).properties)) :
    visit entry ⟨name, mark⟩ rest (changeInside marked (rearrange f) (branch.child name)) =
      changeInside marked (rearrange f) (visit entry ⟨name, mark⟩ rest (branch.child name)) := by
  by_cases hrest : rest = []
  · subst hrest
    exact h.define_changeInside entry mark marked _
  · rw [visit_eq_pass entry _ hrest]
    by_cases hmark : mark = marked
    · subst hmark
      calc
        pass ⟨name, mark⟩ (insertAt entry rest)
            (changeInside mark (rearrange f) (branch.child name)) =
            pass ⟨name, mark⟩ (insertAt entry rest ∘ f) (branch.child name) :=
          h.pass_changeInside ⟨name, mark⟩ _
        _ = pass ⟨name, mark⟩ (f ∘ insertAt entry rest) (branch.child name) := pass_congr hbelow
        _ = _ := (changeInside_pass ⟨name, mark⟩ _).symm
    · exact pass_changeInside_of_ne hmark _

/-- A further entry after a rearrangement of one place, from what it does to the
properties of the place. -/
theorem KeepsEmpty.insertAt_rearrangeAt (h : KeepsEmpty f) (entry : ParamEntry) {place : FieldPath}
    (branch : Branch)
    (hcomm : ∀ rest, insertAt entry rest (f (branch.descend place).properties) =
      f (insertAt entry rest (branch.descend place).properties)) (path : FieldPath) :
    insertAt entry path (Branch.rearrangeAt f place branch.properties) =
      Branch.rearrangeAt f place (insertAt entry path branch.properties) := by
  induction place generalizing branch path with
  | nil => exact hcomm path
  | cons step place ih =>
      cases path with
      | nil => rfl
      | cons first rest =>
          rcases step with ⟨name, marked⟩
          rcases first with ⟨name', mark⟩
          rw [insertAt_cons, insertAt_cons, Branch.rearrangeAt]
          by_cases hname : name' = name
          · subst hname
            have hplace := h.rearrangeAt place
            rw [upsert_change _ (hplace.changeInside_fresh marked name'), change_upsert]
            exact upsert_congr (hplace.visit_changeInside entry mark (ih _ hcomm rest))
          · exact upsert_change_of_ne hname _ _ _

end Pass

/-! ## Two independent entries -/

/-- An exchange leaves the same lists of branches empty. -/
theorem keepsEmpty_exchange (key key' : Text) : KeepsEmpty (Keyed.exchange key key') :=
  Keyed.isEmpty_exchange key key'

/-- An insertion can be made before or after an exchange of two names when the second of
them is there. -/
theorem insertAt_exchange (entry : ParamEntry) {key key' : Text} (hne : key ≠ key')
    {branches : List (Text × Branch)} (h : key' ∈ branches.map Prod.fst) (rest : FieldPath) :
    insertAt entry rest (Keyed.exchange key key' branches) =
      Keyed.exchange key key' (insertAt entry rest branches) := by
  cases rest with
  | nil => rfl
  | cons step rest =>
      rw [insertAt_cons, insertAt_cons]
      refine (exchange_upsert hne _ ?_).symm
      by_cases hname : step.name = key'
      · exact .inl (hname ▸ h)
      · exact .inr hname

/-- An insertion takes no name away at any place. -/
theorem mem_names_descend_insertBelow {name : Text} {branch : Branch} {place : FieldPath}
    (h : name ∈ (branch.descend place).names) (entry : ParamEntry) (path : FieldPath) :
    name ∈ ((insertBelow entry path branch).descend place).names := by
  rw [names_descend_insertBelow]
  split
  · split
    · exact h
    · exact List.mem_append_left _ h
  · exact h

/-- An insertion leaves the name of every step at its place. -/
theorem step_mem_names_descend_insertBelow (entry : ParamEntry) (place : FieldPath) (step : Step)
    (rest : FieldPath) (branch : Branch) :
    step.name ∈ ((insertBelow entry (place ++ step :: rest) branch).descend place).names := by
  rw [names_descend_insertBelow, FieldPath.nameAfter?_eq_some_iff.mpr ⟨step, rest, rfl, rfl⟩]
  simp only
  split
  · assumption
  · simp

/-- Further entries after two neighbours at one place were exchanged. -/
theorem foldl_insert_exchange (more : List ParamEntry) {key key' : Text} (hne : key ≠ key')
    {place : FieldPath} {branches : List (Text × Branch)}
    (h : key' ∈ ((ofForest branches).descend place).names) :
    more.foldl insert (rearrangeAt (Keyed.exchange key key') place branches) =
      rearrangeAt (Keyed.exchange key key') place (more.foldl insert branches) := by
  induction more generalizing branches with
  | nil => rfl
  | cons entry more ih =>
      rw [List.foldl_cons, List.foldl_cons, insert, insert]
      have hentry :
          insertAt entry entry.path (rearrangeAt (Keyed.exchange key key') place branches) =
            rearrangeAt (Keyed.exchange key key') place (insertAt entry entry.path branches) :=
        (keepsEmpty_exchange key key').insertAt_rearrangeAt entry (ofForest branches)
          (insertAt_exchange entry hne h) entry.path
      rw [hentry]
      exact ih (mem_names_descend_insertBelow h entry entry.path)

/-- Rearranging nothing changes nothing. -/
theorem rearrangeAt_id (place : FieldPath) (branches : List (Text × Branch)) :
    rearrangeAt id place branches = branches := by
  induction place generalizing branches with
  | nil => rfl
  | cons step place ih =>
      have hsame : ∀ branch, changeInside step.marked (rearrange (rearrangeAt id place)) branch =
          branch := by
        intro branch
        have hself : ∀ branch, rearrange (rearrangeAt id place) branch = branch := by
          intro branch
          cases branch
          simp [rearrange, ih]
        cases branch
        simp [changeInside, funext hself]
      rw [rearrangeAt, funext hsame]
      exact Keyed.change_id step.name branches

section Independent

variable {entry entry' : ParamEntry} {place rest rest' : FieldPath} {step step' : Step}
  {branches : List (Text × Branch)}

/-- Two independent entries give the same branches in either order when one of
the names is already there. -/
theorem insert_comm_of_mem (hpath : entry.path = place ++ step :: rest)
    (hpath' : entry'.path = place ++ step' :: rest') (hne : step.name ≠ step'.name)
    (h : step.name ∈ ((ofForest branches).descend place).names ∨
      step'.name ∈ ((ofForest branches).descend place).names) :
    insert (insert branches entry') entry = insert (insert branches entry) entry' := by
  have hplace := upsert_comm_of_mem hne (visit entry step rest) (visit entry' step' rest') h
  simp only [← insertAt_cons] at hplace
  have hforest := insertAt_comm_below (f := id) (List.cons_ne_nil step rest)
    (List.cons_ne_nil step' rest') (ofForest branches) hplace
  rw [← hpath, ← hpath', rearrangeAt_id] at hforest
  exact hforest

/-- When both names are new they come in the other order, and stay neighbours
while further entries come. -/
theorem foldl_insert_comm_of_notMem (more : List ParamEntry)
    (hpath : entry.path = place ++ step :: rest)
    (hpath' : entry'.path = place ++ step' :: rest') (hne : step.name ≠ step'.name)
    (h : step.name ∉ ((ofForest branches).descend place).names)
    (h' : step'.name ∉ ((ofForest branches).descend place).names) :
    more.foldl insert (insert (insert branches entry') entry) =
      rearrangeAt (Keyed.exchange step.name step'.name) place
        (more.foldl insert (insert (insert branches entry) entry')) := by
  have hplace := upsert_comm_of_notMem hne (visit entry step rest) (visit entry' step' rest') h h'
  simp only [← insertAt_cons] at hplace
  have hforest := insertAt_comm_below (List.cons_ne_nil step rest) (List.cons_ne_nil step' rest')
    (ofForest branches) hplace
  have hname := step_mem_names_descend_insertBelow entry' place step' rest'
    (ofForest (insert branches entry))
  rw [← hpath, ← hpath'] at hforest
  rw [← hpath'] at hname
  rw [insert, insert]
  exact hforest ▸ foldl_insert_exchange more hne hname

end Independent

end Branch

namespace Param

/-- The node with two neighbouring properties exchanged. -/
def exchange (key key' : Text) (node : Param) : Param :=
  { node with properties := Keyed.exchange key key' node.properties }

end Param

/-- Pruning and an exchange of properties can be exchanged. -/
theorem Branch.prune_rearrange_exchange (key key' : Text) (branch : Branch) :
    prune (rearrange (Keyed.exchange key key') branch) = (prune branch).exchange key key' := by
  rw [rearrange, prune_with_properties, Keyed.map_exchange, Param.exchange, prune_eq branch]
  by_cases htype : branch.type = .object
  · simp [htype]
  · simp [htype, Keyed.exchange]

namespace Draft

/-- Two neighbouring entries whose paths part with different names can be taken
in in either order, whatever entries come before and after.  When an earlier
entry has mentioned one of the names where the paths part, the trees are the
same; otherwise they differ in the order of the two names there. -/
theorem forest_exchange_independent (entries more : List ParamEntry) (entry entry' : ParamEntry)
    (hpaths : ∀ e ∈ entries ++ entry :: entry' :: more, e.path.Readable)
    (place rest rest' : FieldPath) (step step' : Step)
    (hpath : entry.path = place ++ step :: rest) (hpath' : entry'.path = place ++ step' :: rest')
    (hne : step.name ≠ step'.name) :
    ((∃ e ∈ entries, place.nameAfter? e.path = some step.name ∨
        place.nameAfter? e.path = some step'.name) →
      (ofEntries (entries ++ entry' :: entry :: more)).forest =
        (ofEntries (entries ++ entry :: entry' :: more)).forest) ∧
    ((∀ e ∈ entries, place.nameAfter? e.path ≠ some step.name ∧
        place.nameAfter? e.path ≠ some step'.name) →
      Param.ofForest (ofEntries (entries ++ entry' :: entry :: more)).forest =
        (Param.ofForest (ofEntries (entries ++ entry :: entry' :: more)).forest).changeAt
          (Param.exchange step.name step'.name) place) := by
  have hpaths' : ∀ e ∈ entries ++ entry' :: entry :: more, e.path.Readable := by
    intro e he
    refine hpaths e ?_
    simp only [List.mem_append, List.mem_cons] at he ⊢
    tauto
  have hrun : ∀ first second, Branch.ofEntries (entries ++ first :: second :: more) =
      more.foldl Branch.insert
        (Branch.insert (Branch.insert (Branch.ofEntries entries) first) second) := by
    intro first second
    rw [Branch.ofEntries, List.foldl_append]
    rfl
  have hmem : ∀ name, name ∈ ((Branch.ofForest (Branch.ofEntries entries)).descend place).names ↔
      ∃ e ∈ entries, place.nameAfter? e.path = some name := by
    intro name
    rw [Branch.names_descend_ofEntries, List.mem_eraseDups, List.mem_filterMap]
  constructor
  · rintro ⟨e, he, hname⟩
    have hknown := hname.imp (fun hname => (hmem step.name).mpr ⟨e, he, hname⟩)
      fun hname => (hmem step'.name).mpr ⟨e, he, hname⟩
    refine Param.ofForest_inj ?_
    rw [← Branch.prune_ofForest_ofEntries hpaths, ← Branch.prune_ofForest_ofEntries hpaths', hrun,
      hrun, Branch.insert_comm_of_mem hpath hpath' hne hknown]
  · intro hnew
    have hfirst : step.name ∉
        ((Branch.ofForest (Branch.ofEntries entries)).descend place).names := by
      intro hname
      rcases (hmem step.name).mp hname with ⟨e, he, hname⟩
      exact (hnew e he).1 hname
    have hsecond : step'.name ∉
        ((Branch.ofForest (Branch.ofEntries entries)).descend place).names := by
      intro hname
      rcases (hmem step'.name).mp hname with ⟨e, he, hname⟩
      exact (hnew e he).2 hname
    rw [← Branch.prune_ofForest_ofEntries hpaths, ← Branch.prune_ofForest_ofEntries hpaths', hrun,
      hrun, Branch.foldl_insert_comm_of_notMem more hpath hpath' hne hfirst hsecond,
      ← Branch.prune_changeAt (Branch.prune_rearrange_exchange step.name step'.name _),
      Branch.changeAt_rearrange]
    rfl

/-- An entry that hides what is below it. -/
def coveringEntry : ParamEntry :=
  ⟨some (.arrayOf (.named .string)), [⟨['a'], false⟩], ['p']⟩

/-- An entry for a place two levels below the one that is hidden. -/
def innerEntry : ParamEntry :=
  ⟨some (.named .number), [⟨['a'], false⟩, ⟨['x'], true⟩, ⟨['u'], false⟩], ['q']⟩

/-- An entry for a sibling of the place above. -/
def siblingEntry : ParamEntry :=
  ⟨none, [⟨['a'], false⟩, ⟨['y'], false⟩], ['r']⟩

theorem forest_exchange_siblingEntry :
    Param.ofForest (ofEntries [coveringEntry, siblingEntry, innerEntry, siblingEntry]).forest =
        (Param.ofForest
          (ofEntries [coveringEntry, innerEntry, siblingEntry, siblingEntry]).forest).changeAt
            (Param.exchange ['x'] ['y']) [⟨['a'], false⟩] ∧
      ((Param.ofForest
        (ofEntries [coveringEntry, innerEntry, siblingEntry, siblingEntry]).forest).descend?
          [⟨['a'], false⟩]).map (fun node => node.properties.map Prod.fst) =
        some [['x'], ['y']] ∧
      (ofEntries [siblingEntry, siblingEntry, innerEntry]).forest =
        (ofEntries [siblingEntry, innerEntry, siblingEntry]).forest := by
  have hcovering : coveringEntry.path.Readable := ⟨"a".toList, by decide⟩
  have hinner : innerEntry.path.Readable := ⟨"a.x[].u".toList, by decide⟩
  have hsibling : siblingEntry.path.Readable := ⟨"a.y".toList, by decide⟩
  refine ⟨?_, by decide, ?_⟩
  · refine (forest_exchange_independent [coveringEntry] [siblingEntry] innerEntry siblingEntry
      ?_ [⟨['a'], false⟩] [⟨['u'], false⟩] [] ⟨['x'], true⟩ ⟨['y'], false⟩ rfl rfl
      (by decide)).2 (by decide)
    simp [hcovering, hinner, hsibling]
  · refine (forest_exchange_independent [siblingEntry] [] innerEntry siblingEntry
      ?_ [⟨['a'], false⟩] [⟨['u'], false⟩] [] ⟨['x'], true⟩ ⟨['y'], false⟩ rfl rfl
      (by decide)).1 (by decide)
    simp [hinner, hsibling]

end Draft
end DocComment
