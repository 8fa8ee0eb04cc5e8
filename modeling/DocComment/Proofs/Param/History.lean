import DocComment.Proofs.Comment.Layout
import DocComment.Proofs.Param.Children

/-!
# The type and the description of every place

Every entry may write to every place on its path.  This module says what is left
in the end as a formula over the whole list of entries: at each place the last
entry that writes decides, separately for the description, for the type, and for
the type of the items.  Lists of entries are read from the latest entry back.

The proof follows the writes of one entry through `Branch.visit`, adds up the
entries by induction, and carries the result over to the cells of the draft and
to the nodes of its trees.

Main results:

- Definitions `ParamEntry.finalDescription`, `ParamEntry.finalType` and
  `ParamEntry.finalItemsType`: what the entries leave at a place.
- Theorem `Branch.written_insertBelow`: the ways in which one entry can write to a
  place.
- Theorem `Branch.settled_ofEntries`: what all entries leave.
- Theorems `Draft.Represents.stored` and `Draft.Stored.exists_cell`: the cell of a
  place.
- Theorem `Draft.closed_form_ofEntries`: the formula for the cells of the draft
  and for the nodes of its trees.
-/

namespace DocComment

/-! ## What an entry writes -/

namespace TypeExpr

/-- The type of a place that the expression describes. -/
def head : TypeExpr → TypeName
  | .named name => name
  | .anyArray => .array
  | .arrayOf _ => .array

/-- The element type, when it is given. -/
def element? : TypeExpr → Option TypeExpr
  | .named _ => none
  | .anyArray => none
  | .arrayOf element => some element

end TypeExpr

/-- The places that a path passes through or ends at. -/
def FieldPath.places : FieldPath → List FieldPath
  | [] => []
  | step :: rest => [⟨step.name, false⟩] :: (places rest).map fun place => step :: place

namespace ParamEntry

/-- The entry passes through a place with the given mark. -/
def passes (entry : ParamEntry) (place : FieldPath) (marked : Bool) : Bool :=
  decide ((place, marked) ∈ entry.path.interior)

/-- The description that an entry writes to a place. -/
def descriptionAt? (entry : ParamEntry) (place : FieldPath) : Option Text :=
  if entry.key = place then some entry.description else none

/-- The type that an entry writes to a place, given whether the place has
properties already.  Passing it makes it an object or an array; describing it
gives it the effective type of the entry, except that a place with properties is
made an array or stays an object. -/
def typeAt? (entry : ParamEntry) (place : FieldPath) (hasProperties : Bool) : Option TypeName :=
  if entry.passes place false then some .object
  else if entry.passes place true then some .array
  else if entry.key = place then
    if hasProperties && !entry.effectiveType.isArray then some .object
    else some entry.effectiveType.head
  else none

/-- The type that an entry writes to the items of a place. -/
def itemsTypeAt? (entry : ParamEntry) (place : FieldPath) : Option TypeName :=
  if entry.passes place true then some .object
  else if entry.key = place then entry.effectiveType.element?.map TypeExpr.head
  else none

/-! ## What is left in the end -/

/-- The description of a place: that of the last entry that describes it. -/
def finalDescription (place : FieldPath) (latest : List ParamEntry) : Text :=
  (latest.findSome? fun entry => entry.descriptionAt? place).getD []

/-- The type of a place: that which the last entry to pass or describe it writes.
The place has properties by then when an earlier entry passes it without a
mark. -/
def finalType (place : FieldPath) : List ParamEntry → TypeName
  | [] => .object
  | entry :: earlier =>
    (entry.typeAt? place (earlier.any fun entry' => entry'.passes place false)).getD
      (finalType place earlier)

/-- The type of the items of a place: that which the last entry to pass it with a
mark, or to describe it as an array of something, writes. -/
def finalItemsType (place : FieldPath) (latest : List ParamEntry) : Option TypeName :=
  latest.findSome? fun entry => entry.itemsTypeAt? place

/-- No place on the way to a place hides it: those that are passed without a mark
are objects, those that are passed with a mark are arrays of objects. -/
def Exposed (place : FieldPath) (latest : List ParamEntry) : Prop :=
  ∀ container ∈ place.interior,
    if container.2 then
      finalType container.1 latest = .array ∧ finalItemsType container.1 latest = some .object
    else finalType container.1 latest = .object

instance (place : FieldPath) (latest : List ParamEntry) : Decidable (Exposed place latest) :=
  inferInstanceAs (Decidable (∀ container ∈ place.interior, _))

end ParamEntry

/-! ## Named places -/

namespace FieldPath

/-- The place of a name below a place. -/
def named (container : FieldPath) (name : Text) : FieldPath :=
  container ++ [⟨name, false⟩]

/-- A place is known by its container and its name. -/
theorem named_inj {container container' : FieldPath} {name name' : Text} :
    named container name = named container' name' ↔ container = container' ∧ name = name' := by
  simp [named]

/-- The places of a path are those of its steps. -/
theorem mem_places_iff {path place : FieldPath} :
    place ∈ path.places ↔
      ∃ container step rest, path = container ++ step :: rest ∧
        place = named container step.name := by
  induction path generalizing place with
  | nil => simp [places]
  | cons first path ih =>
      simp only [places, List.mem_cons, List.mem_map, ih]
      constructor
      · rintro (rfl | ⟨_, ⟨container, step, rest, rfl, rfl⟩, rfl⟩)
        · exact ⟨[], first, path, rfl, rfl⟩
        · exact ⟨first :: container, step, rest, rfl, rfl⟩
      · rintro ⟨container, step, rest, hpath, rfl⟩
        cases container with
        | nil =>
            cases hpath
            exact .inl rfl
        | cons _ container =>
            cases hpath
            exact .inr ⟨named container step.name, ⟨container, step, rest, rfl, rfl⟩, rfl⟩

/-- The places inside of a path are those of steps before the last. -/
theorem mem_interior_iff {path place : FieldPath} {marked : Bool} :
    (place, marked) ∈ path.interior ↔
      ∃ container step next rest, path = container ++ step :: next :: rest ∧
        place = named container step.name ∧ marked = step.marked := by
  fun_induction interior path generalizing place with
  | case1 => simp
  | case2 leaf => simp [List.cons_eq_append_iff]
  | case3 first second path ih =>
      simp only [List.mem_cons, Prod.mk.injEq, List.mem_map, Prod.exists]
      constructor
      · rintro (⟨rfl, rfl⟩ | ⟨_, _, hplace, rfl, rfl⟩)
        · exact ⟨[], first, second, path, rfl, rfl, rfl⟩
        · rcases ih.mp hplace with ⟨container, step, next, rest, hpath, rfl, hmarked⟩
          exact ⟨first :: container, step, next, rest, by rw [hpath]; rfl, rfl, hmarked⟩
      · rintro ⟨container, step, next, rest, hpath, rfl, rfl⟩
        cases container with
        | nil =>
            cases hpath
            exact .inl ⟨rfl, rfl⟩
        | cons _ container =>
            simp only [List.cons_append, List.cons.injEq] at hpath
            rcases hpath with ⟨rfl, hpath⟩
            exact .inr ⟨_, _, ih.mpr ⟨container, step, next, rest, hpath, rfl, rfl⟩, rfl, rfl⟩

/-- The place of a path is that of its last step. -/
theorem key_concat (container : FieldPath) (leaf : Step) :
    key (container ++ [leaf]) = named container leaf.name := by
  induction container with
  | nil => rfl
  | cons step container ih =>
      cases container with
      | nil => rfl
      | cons next container => exact congrArg (step :: ·) ih

/-- The mark of a path is that of its last step. -/
theorem leafMarked_concat (container : FieldPath) (leaf : Step) :
    leafMarked (container ++ [leaf]) = leaf.marked := by
  induction container with
  | nil => rfl
  | cons step container ih =>
      cases container with
      | nil => rfl
      | cons next container => exact ih

/-- A path ends at a place exactly when its last step has the name of the place. -/
theorem key_eq_named_iff {path container : FieldPath} {name : Text} :
    key path = named container name ↔ ∃ leaf, path = container ++ [leaf] ∧ leaf.name = name := by
  constructor
  · intro hkey
    rcases List.eq_nil_or_concat path with rfl | ⟨container', leaf, rfl⟩
    · simp [key, named] at hkey
    · rw [List.concat_eq_append] at hkey ⊢
      rw [key_concat, named_inj] at hkey
      rcases hkey with ⟨rfl, hname⟩
      exact ⟨leaf, rfl, hname⟩
  · rintro ⟨leaf, rfl, rfl⟩
    exact key_concat container leaf

end FieldPath

/-- An entry passes a place when a step with its name and mark stands before the last one.
-/
theorem ParamEntry.passes_iff {entry : ParamEntry} {container : FieldPath} {name : Text}
    {marked : Bool} :
    entry.passes (container.named name) marked = true ↔
      ∃ step next rest, entry.path = container ++ step :: next :: rest ∧
        step.name = name ∧ step.marked = marked := by
  rw [passes, decide_eq_true_iff, FieldPath.mem_interior_iff]
  constructor
  · rintro ⟨container', step, next, rest, hpath, hplace, rfl⟩
    rcases FieldPath.named_inj.mp hplace with ⟨rfl, rfl⟩
    exact ⟨step, next, rest, hpath, rfl, rfl⟩
  · rintro ⟨step, next, rest, hpath, rfl, rfl⟩
    exact ⟨container, step, next, rest, hpath, rfl, rfl⟩

namespace Branch

/-- The way to a place leads through its container. -/
theorem descend_named (branch : Branch) (container : FieldPath) (name : Text) :
    branch.descend (container.named name) = (branch.descend container).child name := by
  rw [FieldPath.named, descend_append]
  rfl

/-! ## What one entry writes -/

/-- What an entry can do at a place: pass it, describe it, or leave it alone. -/
inductive Written (entry : ParamEntry) (place : FieldPath) (old new : Branch) : Prop
  | passed (step next : Step) (rest : FieldPath)
      (hpasses : ∀ marked, entry.passes place marked = (marked == step.marked))
      (hkey : entry.key ≠ place) (hnew : new = visit entry step (next :: rest) old)
  | described (hpasses : ∀ marked, entry.passes place marked = false) (hkey : entry.key = place)
      (hnew : new = define entry entry.path.leafMarked old)
  | missed (hpasses : ∀ marked, entry.passes place marked = false) (hkey : entry.key ≠ place)
      (hnew : new = old)

/-- Inserting an entry writes at every place what the entry says about it. -/
theorem written_insertBelow (entry : ParamEntry) (branch : Branch) (container : FieldPath)
    (name : Text) :
    Written entry (container.named name) (branch.descend (container.named name))
      ((insertBelow entry entry.path branch).descend (container.named name)) := by
  have hpasses : ∀ marked, entry.passes (container.named name) marked = true ↔
      ∃ step next rest, container.below? entry.path = some (step :: next :: rest) ∧
        step.name = name ∧ step.marked = marked := by
    simp [ParamEntry.passes_iff, FieldPath.below?_eq_some_iff]
  have hkey : entry.key = container.named name ↔
      ∃ leaf, container.below? entry.path = some [leaf] ∧ leaf.name = name := by
    simp [ParamEntry.key, FieldPath.key_eq_named_iff, FieldPath.below?_eq_some_iff]
  simp only [descend_named, child_descend_insertBelow]
  -- The steps below the container decide: two or more pass the place, one describes it.
  match hbelow : container.below? entry.path with
  | none =>
      refine .missed (fun marked => ?_) ?_ rfl
      · simp [← Bool.not_eq_true, hpasses, hbelow]
      · simp [hkey, hbelow]
  | some [] =>
      refine .missed (fun marked => ?_) ?_ rfl
      · simp [← Bool.not_eq_true, hpasses, hbelow]
      · simp [hkey, hbelow]
  | some [leaf] =>
      have hnone : ∀ marked, entry.passes (container.named name) marked = false := by
        intro marked
        simp [← Bool.not_eq_true, hpasses, hbelow]
      by_cases hname : name = leaf.name
      · refine .described hnone (hkey.mpr ⟨leaf, hbelow, hname.symm⟩) ?_
        have hmarked : entry.path.leafMarked = leaf.marked := by
          rw [FieldPath.below?_eq_some_iff.mp hbelow, FieldPath.leafMarked_concat]
        rw [hmarked]
        exact if_pos hname
      · refine .missed hnone ?_ (if_neg hname)
        rw [Ne, hkey, hbelow]
        rintro ⟨_, ⟨⟩, hname'⟩
        exact hname hname'.symm
  | some (step :: next :: rest) =>
      have hne : entry.key ≠ container.named name := by
        simp [hkey, hbelow]
      by_cases hname : name = step.name
      · refine .passed step next rest (fun marked => ?_) hne (if_pos hname)
        rw [Bool.eq_iff_iff, hpasses, hbelow, beq_iff_eq]
        constructor
        · rintro ⟨_, _, _, ⟨⟩, _, hmarked⟩
          exact hmarked.symm
        · intro hmarked
          exact ⟨step, next, rest, rfl, hname.symm, hmarked.symm⟩
      · refine .missed (fun marked => ?_) hne (if_neg hname)
        rw [← Bool.not_eq_true, hpasses, hbelow]
        rintro ⟨_, _, _, ⟨⟩, hname', _⟩
        exact hname hname'.symm

/-- Describing a place by an entry gives it the effective type of the entry. -/
theorem define_leafMarked (entry : ParamEntry) (branch : Branch) :
    define entry entry.path.leafMarked branch =
      if !branch.properties.isEmpty && !entry.effectiveType.isArray then
        { branch with description := entry.description, type := .object }
      else applyType entry.effectiveType { branch with description := entry.description } :=
  define_eq entry entry.path.leafMarked branch

/-- Giving a type sets the head of the type. -/
theorem type_applyType (type : TypeExpr) (branch : Branch) :
    (applyType type branch).type = type.head := by
  cases type <;> rfl

/-- Giving a type sets the type of the items when it names their type. -/
theorem items_applyType (type : TypeExpr) (branch : Branch) :
    (applyType type branch).items.map Branch.type =
      (type.element?.map TypeExpr.head).or (branch.items.map Branch.type) := by
  cases type with
  | named name => rfl
  | anyArray => rfl
  | arrayOf element => simp [applyType, TypeExpr.element?, type_applyType]

/-- The description that an entry leaves at a place. -/
theorem Written.description_eq {entry : ParamEntry} {place : FieldPath} {old new : Branch}
    (h : Written entry place old new) :
    new.description = (entry.descriptionAt? place).getD old.description := by
  cases h with
  | passed step next rest hpasses hkey hnew =>
      rw [hnew, ParamEntry.descriptionAt?, if_neg hkey]
      simp only [visit]
      split <;> rfl
  | described hpasses hkey hnew =>
      rw [hnew, ParamEntry.descriptionAt?, if_pos hkey, description_define]
      rfl
  | missed hpasses hkey hnew =>
      rw [hnew, ParamEntry.descriptionAt?, if_neg hkey]
      rfl

/-- The type that an entry leaves at a place. -/
theorem Written.type_eq {entry : ParamEntry} {place : FieldPath} {old new : Branch}
    (h : Written entry place old new) :
    new.type = (entry.typeAt? place (!old.properties.isEmpty)).getD old.type := by
  cases h with
  | passed step next rest hpasses hkey hnew =>
      rw [hnew, ParamEntry.typeAt?, hpasses, hpasses]
      cases hmarked : step.marked <;> simp [visit, hmarked]
  | described hpasses hkey hnew =>
      rw [hnew, ParamEntry.typeAt?, hpasses, hpasses, if_pos hkey, define_leafMarked]
      simp only [Bool.false_eq_true, if_false]
      split
      · rfl
      · exact type_applyType _ _
  | missed hpasses hkey hnew =>
      rw [hnew, ParamEntry.typeAt?, hpasses, hpasses, if_neg hkey]
      rfl

/-- The type that an entry leaves at the items of a place. -/
theorem Written.items_eq {entry : ParamEntry} {place : FieldPath} {old new : Branch}
    (h : Written entry place old new) :
    new.items.map Branch.type =
      (entry.itemsTypeAt? place).or (old.items.map Branch.type) := by
  cases h with
  | passed step next rest hpasses hkey hnew =>
      rw [hnew, ParamEntry.itemsTypeAt?, hpasses, if_neg hkey]
      cases hmarked : step.marked <;> simp [visit, hmarked]
  | described hpasses hkey hnew =>
      rw [hnew, ParamEntry.itemsTypeAt?, hpasses, if_pos hkey, define_leafMarked]
      simp only [Bool.false_eq_true, if_false]
      split
      · rename_i hobject
        cases htype : entry.effectiveType <;>
          simp_all [TypeExpr.isArray, TypeExpr.element?]
      · exact items_applyType _ _
  | missed hpasses hkey hnew =>
      rw [hnew, ParamEntry.itemsTypeAt?, hpasses, if_neg hkey]
      rfl

/-! ## What all entries leave -/

/-- A place has properties when an entry passes it without a mark. -/
theorem hasProperties_descend_ofEntries (entries : List ParamEntry) (container : FieldPath)
    (name : Text) :
    (!((ofForest (ofEntries entries)).descend (container.named name)).properties.isEmpty) =
      entries.any fun entry => entry.passes (container.named name) false := by
  have hnames := names_descend_ofEntries entries (container.named name)
  rw [names] at hnames
  rw [← List.isEmpty_map (f := Prod.fst), hnames, Bool.eq_iff_iff, List.any_eq_true,
    Bool.not_eq_true', List.isEmpty_eq_false_iff_exists_mem]
  constructor
  · rintro ⟨name', hname'⟩
    rw [List.mem_eraseDups, List.mem_filterMap] at hname'
    rcases hname' with ⟨entry, hentry, hname'⟩
    rcases FieldPath.nameAfter?_eq_some_iff.mp hname' with ⟨next, rest, hpath, _⟩
    refine ⟨entry, hentry, ParamEntry.passes_iff.mpr ⟨⟨name, false⟩, next, rest, ?_, rfl, rfl⟩⟩
    rw [hpath, FieldPath.named, List.append_assoc, List.singleton_append]
  · rintro ⟨entry, hentry, hpasses⟩
    rcases ParamEntry.passes_iff.mp hpasses with ⟨⟨_, _⟩, next, rest, hpath, rfl, rfl⟩
    refine ⟨next.name, ?_⟩
    rw [List.mem_eraseDups, List.mem_filterMap]
    refine ⟨entry, hentry, FieldPath.nameAfter?_eq_some_iff.mpr ⟨next, rest, ?_, rfl⟩⟩
    rw [hpath, FieldPath.named, List.append_assoc, List.singleton_append]

/-- The branch has what the entries leave at a place. -/
structure Settled (place : FieldPath) (latest : List ParamEntry) (branch : Branch) : Prop where
  description_eq : branch.description = ParamEntry.finalDescription place latest
  type_eq : branch.type = ParamEntry.finalType place latest
  items_eq : branch.items.map Branch.type = ParamEntry.finalItemsType place latest

/-- Every named place has what the entries leave there. -/
theorem settled_ofEntries (entries : List ParamEntry) (container : FieldPath) (name : Text) :
    Settled (container.named name) entries.reverse
      ((ofForest (ofEntries entries)).descend (container.named name)) := by
  induction entries using List.reverseRecOn with
  | nil =>
      have hfresh : (ofForest (ofEntries [])).descend (container.named name) = fresh name := by
        rw [descend_named, child_of_properties_eq_nil (properties_descend_eq_nil rfl container)]
      exact hfresh ▸ ⟨rfl, rfl, rfl⟩
  | append_singleton entries entry ih =>
      have hproperties := hasProperties_descend_ofEntries entries container name
      rw [← List.any_reverse] at hproperties
      rw [List.reverse_concat, ofForest_ofEntries_concat]
      have hwritten := written_insertBelow entry (ofForest (ofEntries entries)) container name
      refine ⟨?_, ?_, ?_⟩
      · rw [hwritten.description_eq, ih.description_eq, ParamEntry.finalDescription,
          ParamEntry.finalDescription, List.findSome?_cons]
        cases entry.descriptionAt? (container.named name) <;> rfl
      · rw [hwritten.type_eq, ih.type_eq, hproperties]
        rfl
      · rw [hwritten.items_eq, ih.items_eq, ParamEntry.finalItemsType,
          ParamEntry.finalItemsType, List.findSome?_cons]
        cases entry.itemsTypeAt? (container.named name) <;> rfl

/-- The places that the entries mention are there. -/
theorem present_ofEntries {entries : List ParamEntry} {place : FieldPath}
    (h : ∃ entry ∈ entries, place ∈ entry.path.places) :
    Present (ofForest (ofEntries entries)) place := by
  induction entries using List.reverseRecOn with
  | nil => simp at h
  | append_singleton entries last ih =>
      rw [ofForest_ofEntries_concat]
      rcases h with ⟨entry, hentry, hplace⟩
      rcases List.mem_append.mp hentry with hold | hlast
      · exact (ih ⟨entry, hold, hplace⟩).insertBelow last last.path
      · rcases List.mem_singleton.mp hlast with rfl
        rcases FieldPath.mem_places_iff.mp hplace with ⟨container, step, rest, hpath, rfl⟩
        rw [hpath]
        exact present_insertBelow entry container step rest _

/-! ## Places that can be seen -/

/-- The way to a named place is open when every place on it has the type that the
next step asks for. -/
theorem open_named_iff {branch : Branch} {container : FieldPath} {name : Text}
    (h : Present branch (container.named name)) :
    Open branch (container.named name) ↔
      branch.type = .object ∧ ∀ passed ∈ (container.named name).interior,
        if passed.2 then (branch.descend passed.1).type = .array ∧
          (branch.descend passed.1).items.map Branch.type = some .object
        else (branch.descend passed.1).type = .object := by
  induction container generalizing branch with
  | nil => simp [FieldPath.named, FieldPath.interior, Open]
  | cons step container ih =>
      rcases h with ⟨_, hitems, hrest⟩
      -- The first place asks its own type, and that of what the step leads to.
      have hfirst : ((step.marked = true → (branch.child step.name).type = .array) ∧
          (branch.enter step).type = .object) ↔
          if step.marked then (branch.child step.name).type = .array ∧
            (branch.child step.name).items.map Branch.type = some .object
          else (branch.child step.name).type = .object := by
        cases hmarked : step.marked with
        | false => simp [enter, hmarked]
        | true =>
            rcases Option.isSome_iff_exists.mp (hitems hmarked) with ⟨item, hitem⟩
            simp [enter, hmarked, itemsOrFresh, hitem]
      have hinterior : (FieldPath.named (step :: container) name).interior =
          ([⟨step.name, false⟩], step.marked) ::
            (FieldPath.named container name).interior.map
              fun place => (step :: place.1, place.2) := by
        cases container <;> rfl
      have hopen : Open branch (FieldPath.named (step :: container) name) ↔
          branch.type = .object ∧ (step.marked = true → (branch.child step.name).type = .array) ∧
            Open (branch.enter step) (FieldPath.named container name) := Iff.rfl
      rw [hopen, ih hrest, hinterior, List.forall_mem_cons, List.forall_mem_map,
        ← and_assoc (a := _ → _)]
      exact and_congr Iff.rfl (and_congr hfirst Iff.rfl)

/-- After all entries the way to a place is open when they leave it exposed. -/
theorem open_ofEntries_iff {entries : List ParamEntry} {container : FieldPath} {name : Text}
    (h : Present (ofForest (ofEntries entries)) (container.named name)) :
    Open (ofForest (ofEntries entries)) (container.named name) ↔
      ParamEntry.Exposed (container.named name) entries.reverse := by
  rw [open_named_iff h]
  have hsettled : ∀ passed ∈ (container.named name).interior, Settled passed.1 entries.reverse
      ((ofForest (ofEntries entries)).descend passed.1) := by
    intro passed hpassed
    rcases FieldPath.mem_interior_iff.mp hpassed with ⟨container', step, _, _, _, hplace, _⟩
    rw [hplace]
    exact settled_ofEntries entries container' step.name
  constructor
  · rintro ⟨_, hopen⟩ passed hpassed
    rw [← (hsettled passed hpassed).type_eq, ← (hsettled passed hpassed).items_eq]
    exact hopen passed hpassed
  · intro hexposed
    refine ⟨rfl, fun passed hpassed => ?_⟩
    rw [(hsettled passed hpassed).type_eq, (hsettled passed hpassed).items_eq]
    exact hexposed passed hpassed

/-- Pruning keeps the type of the items for arrays only. -/
theorem map_type_items_prune (branch : Branch) :
    (prune branch).items.map Param.type =
      if branch.type = .array then branch.items.map Branch.type else none := by
  rw [prune_eq]
  simp only
  split
  · simp [Function.comp_def]
  · rfl

end Branch

/-! ## The cells of the draft -/

namespace Draft

/-- What a draft stores at the place that one step leads to. -/
theorem Stored.of_step {draft : Draft} {text : Text} {branch : Branch} {step : Step}
    (hname : step.name ∈ branch.names)
    (hitems : step.marked = true → (branch.child step.name).items.isSome = true)
    (h : ∀ property, (step.name, property) ∈ branch.properties →
      Stored draft (text ++ step.name) property) :
    Stored draft (text ++ step.text) (branch.enter step) := by
  have hchild := h _ (Branch.mem_properties_child hname)
  cases hmarked : step.marked with
  | false => simpa [Step.text, Branch.enter, hmarked] using hchild
  | true =>
      rcases Option.isSome_iff_exists.mp (hitems hmarked) with ⟨item, hitem⟩
      simpa [Step.text, Branch.enter, Branch.itemsOrFresh, hmarked, hitem] using
        hchild.of_items hitem

/-- What a draft stores at the places below a stored branch. -/
theorem Stored.descend {draft : Draft} {text : Text} {branch : Branch} {path : FieldPath}
    (h : Stored draft text branch) (hpresent : Branch.Present branch path) :
    Stored draft (text ++ path.flatMap fun step => '.' :: step.text) (branch.descend path) := by
  induction path generalizing text branch with
  | nil => simpa [Branch.descend] using h
  | cons step path ih =>
      rcases hpresent with ⟨hname, hitems, hrest⟩
      have hne : text ≠ [] := by
        cases h with
        | node _ _ hshows _ _ => exact hshows.key_ne_nil
      have hstep : Stored draft ((text ++ ['.']) ++ step.text) (branch.enter step) := by
        refine Stored.of_step hname hitems fun property hproperty => ?_
        simpa [extend, hne] using h.of_properties hproperty
      simpa [Branch.descend] using ih hstep hrest

/-- What a draft stores under the text of a path. -/
theorem Represents.stored {draft : Draft} {branches : List (Text × Branch)}
    (h : Represents draft branches) {path : FieldPath} (hne : path ≠ [])
    (hpresent : Branch.Present (Branch.ofForest branches) path) :
    Stored draft path.text ((Branch.ofForest branches).descend path) := by
  cases path with
  | nil => exact absurd rfl hne
  | cons step path =>
      rcases hpresent with ⟨hname, hitems, hrest⟩
      rcases h.roots with ⟨links, _, hlinks⟩
      have hstep : Stored draft ([] ++ step.text) ((Branch.ofForest branches).enter step) :=
        Stored.of_step hname hitems fun property hproperty =>
          hlinks.stored step.name property hproperty
      have hpath := hstep.descend hrest
      rw [FieldPath.text, List.map_cons, Text.intercalate_cons, List.flatMap_map]
      exact hpath

/-- The type of the items of a cell. -/
def itemsType? (draft : Draft) (cell : Cell) : Option TypeName :=
  cell.items.bind fun i => draft.cells[i]?.map Cell.type

/-- The cell that stores a branch says the same as the branch. -/
theorem Stored.exists_cell {draft : Draft} {text : Text} {branch : Branch}
    (h : Stored draft text branch) :
    ∃ i cell, draft.index.lookup text = some i ∧ draft.cells[i]? = some cell ∧
      cell.description = branch.description ∧ cell.type = branch.type ∧
      draft.itemsType? cell = branch.items.map Branch.type := by
  cases h with
  | node i cell hshows hitems _ =>
      refine ⟨i, cell, hshows.number, hshows.cell_eq, hshows.description_eq, hshows.type_eq, ?_⟩
      cases hbranch : branch.items with
      | none => simp [itemsType?, (hshows.items_none hbranch).1]
      | some item =>
          rcases hshows.items_some item hbranch with ⟨j, hcell, hnumber, _⟩
          rcases (hitems item hbranch).shows hnumber with ⟨cell', hshows'⟩
          simp [itemsType?, hcell, hshows'.cell_eq, hshows'.type_eq]

/-- Whatever the entries, the cell of every place that they mention has the
description, the type and the type of its items that the last entries to write
there give it; and the trees have a node at that place, with these values,
exactly when nothing on the way hides it. -/
theorem closed_form_ofEntries (entries : List ParamEntry)
    (hpaths : ∀ entry ∈ entries, entry.path.Readable) (place : FieldPath)
    (hplace : ∃ entry ∈ entries, place ∈ entry.path.places) :
    (∃ i cell, (ofEntries entries).index.lookup place.text = some i ∧
      (ofEntries entries).cells[i]? = some cell ∧
      cell.description = ParamEntry.finalDescription place entries.reverse ∧
      cell.type = ParamEntry.finalType place entries.reverse ∧
      (ofEntries entries).itemsType? cell = ParamEntry.finalItemsType place entries.reverse) ∧
    ((Param.ofForest (ofEntries entries).forest).descend? place).map
        (fun node => (node.description, node.type, node.items.map Param.type)) =
      if ParamEntry.Exposed place entries.reverse then
        some (ParamEntry.finalDescription place entries.reverse,
          ParamEntry.finalType place entries.reverse,
          if ParamEntry.finalType place entries.reverse = .array then
            ParamEntry.finalItemsType place entries.reverse
          else none)
      else none := by
  have hpresent := Branch.present_ofEntries hplace
  rcases hplace with ⟨entry, _, hplace⟩
  rcases FieldPath.mem_places_iff.mp hplace with ⟨container, step, _, _, rfl⟩
  have hsettled := Branch.settled_ofEntries entries container step.name
  have hopen := Branch.open_ofEntries_iff hpresent
  constructor
  · have hstored := (represents_ofEntries fun entry hentry => (hpaths entry hentry).named).stored
      (by simp [FieldPath.named]) hpresent
    rcases hstored.exists_cell with ⟨i, cell, hnumber, hcell, hdescription, htype, hitems⟩
    exact ⟨i, cell, hnumber, hcell, hdescription.trans hsettled.description_eq,
      htype.trans hsettled.type_eq, hitems.trans hsettled.items_eq⟩
  · rw [← Branch.prune_ofForest_ofEntries hpaths]
    split
    · rename_i hexposed
      rw [Branch.descend?_prune.mpr ⟨⟨hpresent, hopen.mpr hexposed⟩, rfl⟩, Option.map_some,
        Branch.description_prune, Branch.type_prune, Branch.map_type_items_prune,
        hsettled.description_eq, hsettled.type_eq, hsettled.items_eq]
    · rename_i hexposed
      rw [Option.map_eq_none_iff, Option.eq_none_iff_forall_ne_some]
      intro node hnode
      exact hexposed (hopen.mp (Branch.descend?_prune.mp hnode).1.2)

/-- Entries that write to one place in every way: they pass it, describe it and
describe the array above it. -/
def overlaidEntries : List ParamEntry :=
  [⟨some (.named .string), [⟨['a'], true⟩, ⟨['x'], false⟩], ['c']⟩,
   ⟨some (.arrayOf (.named .object)), [⟨['a'], false⟩], ['p']⟩,
   ⟨none, [⟨['a'], true⟩, ⟨['x'], false⟩, ⟨['y'], false⟩], []⟩,
   ⟨some (.named .number), [⟨['a'], true⟩, ⟨['x'], false⟩], ['d']⟩]

theorem closed_form_overlaidEntries :
    (∀ entry ∈ overlaidEntries, entry.path.Readable) ∧
      (∃ i cell, (ofEntries overlaidEntries).index.lookup "a[].x".toList = some i ∧
        (ofEntries overlaidEntries).cells[i]? = some cell ∧
        cell.description = ['d'] ∧ cell.type = .object ∧
        (ofEntries overlaidEntries).itemsType? cell = none) ∧
      ((Param.ofForest (ofEntries overlaidEntries).forest).descend?
        [⟨['a'], true⟩, ⟨['x'], false⟩]).map
          (fun node => (node.description, node.type, node.items.map Param.type)) =
        some (['d'], .object, none) := by
  have hpaths : ∀ entry ∈ overlaidEntries, entry.path.Readable := by
    intro entry hentry
    simp only [overlaidEntries, List.mem_cons, List.not_mem_nil, or_false] at hentry
    rcases hentry with rfl | rfl | rfl | rfl
    · exact ⟨"a[].x".toList, by decide⟩
    · exact ⟨"a".toList, by decide⟩
    · exact ⟨"a[].x.y".toList, by decide⟩
    · exact ⟨"a[].x".toList, by decide⟩
  have hplace : ∃ entry ∈ overlaidEntries,
      [⟨['a'], true⟩, ⟨['x'], false⟩] ∈ entry.path.places := by
    refine ⟨_, List.mem_cons_self, ?_⟩
    decide
  have hclosed := closed_form_ofEntries overlaidEntries hpaths
    [⟨['a'], true⟩, ⟨['x'], false⟩] hplace
  refine ⟨hpaths, ?_, ?_⟩
  · exact hclosed.1
  · exact hclosed.2.trans (by decide)

end Draft
end DocComment
