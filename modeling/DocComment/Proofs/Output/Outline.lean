import Mathlib.Data.List.Basic
import DocComment.Output.Markdown
import DocComment.Proofs.Record.Clean
import DocComment.Proofs.Record.Shape

/-!
# The outline in a parameter list

The markdown list of the parameters of a record has one line for every node of their
trees, and the indentation of a line tells how deep its node lies.  Indentation and
label can be read off each line, for no label, type or description that a comment
can give breaks a line or closes a label early.  From them the trees are built
again, up to types and descriptions: a node has for children the lines below it
that are indented further, up to the first that is not.

Main results:

- Definition `Param.visits`: the nodes of a tree in the order of the list.
- Theorem `Markdown.readLine?_paramLine`: the depth and the label of a line.
- Definition `Outline.ofCodes`: the trees with given depths and labels.
- Theorem `Outline.ofCodes_visits`: a tree is built again from the depths and labels of
  its nodes.
- Theorem `Markdown.forestLines_outline`: the parameter list of a record of any
  source.
-/

namespace DocComment

/-! ## Nodes in order -/

namespace Param

/-- The children of a node under their labels: its items under a pair of brackets, and
then its properties under their keys. -/
def children (param : Param) : List (Text × Param) :=
  (param.items.toList.map fun item => (brackets, item)) ++ param.properties

/-- The children of a parameter are its items, under a pair of brackets, and its
properties, under their names. -/
theorem mem_children {param child : Param} {label : Text} :
    (label, child) ∈ param.children ↔
      (label = brackets ∧ param.items = some child) ∨ (label, child) ∈ param.properties := by
  simp [children, eq_comm, and_comm]

/-- A child lies within its parent. -/
theorem within_child {param child : Param} {label : Text} (h : (label, child) ∈ param.children) :
    param.Within child := by
  rcases mem_children.mp h with ⟨_, hitem⟩ | hmem
  · exact .items .self hitem
  · exact .property .self hmem

/-- A child is smaller than its parent. -/
theorem sizeOf_children {param child : Param} {label : Text}
    (h : (label, child) ∈ param.children) : sizeOf child < sizeOf param := by
  rcases param with ⟨title, type, description, items, properties⟩
  rcases mem_children.mp h with ⟨_, hitem⟩ | hmem
  · simp only at hitem
    subst hitem
    simp
    omega
  · have hsize := List.sizeOf_lt_of_mem hmem
    simp only [mk.sizeOf_spec, Prod.mk.sizeOf_spec] at hsize ⊢
    omega

/-- What holds of a node when it holds of its children holds of every node. -/
theorem children_induction {P : Param → Prop}
    (h : ∀ param : Param, (∀ label child, (label, child) ∈ param.children → P child) → P param)
    (param : Param) : P param :=
  h param fun _ child _ => children_induction h child
termination_by sizeOf param
decreasing_by exact sizeOf_children ‹_›

end Param

/-- A node in a list of parameters: how deep it lies, and under which label. -/
structure Visit where
  depth : Nat
  label : Text
  param : Param

namespace Visit

/-- The depth and the label. -/
def code (visit : Visit) : Nat × Text :=
  (visit.depth, visit.label)

/-- The line of a node. -/
def line (visit : Visit) : Text :=
  Markdown.paramLine visit.depth visit.label visit.param.type visit.param.description

end Visit

namespace Param

mutual

/-- The nodes of a tree in order: the node itself, the nodes of its items, and the nodes
of its properties. -/
def visits (depth : Nat) (label : Text) : Param → List Visit
  | ⟨title, type, description, items, properties⟩ =>
    ⟨depth, label, ⟨title, type, description, items, properties⟩⟩ ::
      (itemsVisits (depth + 1) items ++ propertyVisits (depth + 1) properties)

/-- The nodes of the items. -/
def itemsVisits (depth : Nat) : Option Param → List Visit
  | none => []
  | some item => visits depth brackets item

/-- The nodes of the properties. -/
def propertyVisits (depth : Nat) : List (Text × Param) → List Visit
  | [] => []
  | (key, property) :: rest => visits depth key property ++ propertyVisits depth rest

end

/-- The nodes of several trees under their labels. -/
def visitsAll (depth : Nat) (nodes : List (Text × Param)) : List Visit :=
  nodes.flatMap fun node => visits depth node.1 node.2

/-- After a node come the nodes of its children. -/
theorem visits_eq (depth : Nat) (label : Text) (param : Param) :
    visits depth label param =
      ⟨depth, label, param⟩ :: visitsAll (depth + 1) param.children := by
  have hproperties : ∀ properties,
      propertyVisits (depth + 1) properties = visitsAll (depth + 1) properties := by
    intro properties
    induction properties with
    | nil => rfl
    | cons property rest ih =>
        rw [propertyVisits, ih]
        rfl
  rcases param with ⟨title, type, description, items, properties⟩
  rw [visits, hproperties]
  cases items with
  | none => rfl
  | some item => simp [itemsVisits, visitsAll, children]

/-- A visit is that of the parameter itself or one below a child. -/
theorem mem_visits {depth : Nat} {label : Text} {param : Param} {visit : Visit} :
    visit ∈ visits depth label param ↔
      visit = ⟨depth, label, param⟩ ∨
        ∃ label' child, (label', child) ∈ param.children ∧
          visit ∈ visits (depth + 1) label' child := by
  rw [visits_eq, List.mem_cons, visitsAll, List.mem_flatMap, Prod.exists]

/-- What passes from a node to its children, labels included, holds of every node that
is visited. -/
theorem visits_forall {P : Text → Param → Prop}
    (hstep : ∀ label param, P label param →
      ∀ label' child, (label', child) ∈ param.children → P label' child)
    {label : Text} {param : Param} (h : P label param) {depth : Nat} {visit : Visit}
    (hvisit : visit ∈ visits depth label param) : P visit.label visit.param := by
  induction param using children_induction generalizing label depth with
  | h param ih =>
      rcases mem_visits.mp hvisit with rfl | ⟨label', child, hmem, hbelow⟩
      · exact h
      · exact ih label' child hmem (hstep label param h label' child hmem) hbelow

/-- The children of a node are visited one level deeper. -/
theorem children_mem_visits {depth : Nat} {label : Text} {param : Param} {visit : Visit}
    (hvisit : visit ∈ visits depth label param) {label' : Text} {child : Param}
    (hmem : (label', child) ∈ visit.param.children) :
    ⟨visit.depth + 1, label', child⟩ ∈ visits depth label param := by
  induction param using children_induction generalizing label depth with
  | h param ih =>
      rcases mem_visits.mp hvisit with rfl | ⟨label'', child', hmem', hbelow⟩
      · refine mem_visits.mpr (.inr ⟨label', child, hmem, ?_⟩)
        exact mem_visits.mpr (.inl rfl)
      · exact mem_visits.mpr (.inr ⟨label'', child', hmem', ih label'' child' hmem' hbelow⟩)

/-- No node of a tree is left out. -/
theorem exists_mem_visits {root node : Param} (h : root.Within node) (depth : Nat)
    (label : Text) : ∃ visit ∈ visits depth label root, visit.param = node := by
  induction h with
  | self => exact ⟨⟨depth, label, root⟩, mem_visits.mpr (.inl rfl), rfl⟩
  | items hnode hitem ih =>
      rcases ih with ⟨visit, hvisit, rfl⟩
      exact ⟨_, children_mem_visits hvisit (mem_children.mpr (.inl ⟨rfl, hitem⟩)), rfl⟩
  | property hnode hmem ih =>
      rcases ih with ⟨visit, hvisit, rfl⟩
      exact ⟨_, children_mem_visits hvisit (mem_children.mpr (.inr hmem)), rfl⟩

/-- The nodes of the parameters of a record. -/
def forestVisits (params : List Param) : List Visit :=
  visitsAll 0 (params.map fun param => (param.title, param))

end Param

/-! ## Labels -/

/-- A text that labels a node: a pair of brackets or an identifier. -/
def IsLabel (label : Text) : Prop :=
  label = brackets ∨ Text.isIdentifier label = true

/-- The title of a node with a label.  Items have none. -/
def titleUnder (label : Text) : Text :=
  if label = brackets then [] else label

/-- No identifier is a pair of brackets. -/
theorem brackets_ne_of_isIdentifier {label : Text} (h : Text.isIdentifier label = true) :
    label ≠ brackets := by
  rintro rfl
  exact absurd h (by decide)

/-- Labels hold neither stars nor line feeds. -/
theorem IsLabel.notMem {label : Text} (h : IsLabel label) : '*' ∉ label ∧ '\n' ∉ label := by
  rcases h with rfl | hidentifier
  · decide
  · constructor
    · intro hmem
      exact absurd (Text.isIdentPart_of_mem hidentifier hmem) (by decide)
    · intro hmem
      exact absurd (Text.isIdentPart_of_mem hidentifier hmem) (by decide)

namespace Param

/-- The labels below a node that keeps the rules give the titles. -/
theorem Fits.of_mem_children {param child : Param} (h : param.Fits) {label : Text}
    (hmem : (label, child) ∈ param.children) :
    IsLabel label ∧ child.title = titleUnder label := by
  rcases mem_children.mp hmem with ⟨rfl, hitem⟩ | hproperty
  · exact ⟨.inl rfl, (h.items_bare child hitem).1⟩
  · have htitle := h.key_eq_title label child hproperty
    have hidentifier := h.identifier label child hproperty
    rw [htitle] at hidentifier
    refine ⟨.inr hidentifier, ?_⟩
    rw [htitle, titleUnder, if_neg (brackets_ne_of_isIdentifier hidentifier)]

end Param

/-! ## Lines -/

namespace Markdown

/-- After the line of a node come the lines of its children. -/
theorem paramLines_eq (depth : Nat) (label : Text) (param : Param) :
    paramLines depth label param =
      paramLine depth label param.type param.description ::
        param.children.flatMap fun child => paramLines (depth + 1) child.1 child.2 := by
  have hproperties : ∀ properties : List (Text × Param),
      propertyLines (depth + 1) properties =
        properties.flatMap fun child => paramLines (depth + 1) child.1 child.2 := by
    intro properties
    induction properties with
    | nil => rfl
    | cons property rest ih =>
        rw [propertyLines, ih]
        rfl
  rcases param with ⟨title, type, description, items, properties⟩
  rw [paramLines, hproperties]
  cases items with
  | none => rfl
  | some item => simp [itemsLines, Param.children]

/-- Each node has one line, in the order of the nodes. -/
theorem paramLines_eq_map (depth : Nat) (label : Text) (param : Param) :
    paramLines depth label param = (Param.visits depth label param).map Visit.line := by
  induction param using Param.children_induction generalizing label depth with
  | h param ih =>
      rw [paramLines_eq, Param.visits_eq, List.map_cons, Param.visitsAll, List.map_flatMap]
      congr 1
      apply List.flatMap_congr
      rintro ⟨label', child⟩ hmem
      exact ih label' child hmem (depth + 1) label'

/-- Every visited parameter gives one line. -/
theorem forestLines_eq_map (params : List Param) :
    forestLines params = (Param.forestVisits params).map Visit.line := by
  rw [forestLines, Param.forestVisits, Param.visitsAll, List.flatMap_map, List.map_flatMap]
  apply List.flatMap_congr
  intro param _
  exact paramLines_eq_map 0 param.title param

/-- The depth of a line and its label, which ends at the first star. -/
def readLine? (line : Text) : Option (Nat × Text) :=
  (Text.after? "* **".toList (line.dropWhile (· == ' '))).map fun rest =>
    ((line.takeWhile (· == ' ')).length / 2, rest.takeWhile (· != '*'))

/-- A line is made of its indentation, a star, and its label between double stars. -/
theorem exists_paramLine_eq (depth : Nat) (label : Text) (type : TypeName) (description : Text) :
    ∃ rest, paramLine depth label type description =
      List.replicate (2 * depth) ' ' ++ ("* **".toList ++ (label ++ '*' :: rest)) := by
  refine ⟨'*' :: (" (".toList ++ type.text ++ [')'] ++
    (if description.isEmpty then [] else ": ".toList ++ description)), ?_⟩
  simp [paramLine, bold]

/-- A line starts with two spaces for each level, and no more. -/
theorem indentation_paramLine (depth : Nat) (label : Text) (type : TypeName)
    (description : Text) :
    (paramLine depth label type description).takeWhile (· == ' ') =
        List.replicate (2 * depth) ' ' ∧
      ∃ rest, (paramLine depth label type description).dropWhile (· == ' ') =
        "* **".toList ++ (label ++ '*' :: rest) := by
  rcases exists_paramLine_eq depth label type description with ⟨rest, hline⟩
  have hspaces : ∀ c ∈ List.replicate (2 * depth) ' ', (c == ' ') = true := by
    intro c hc
    rw [List.eq_of_mem_replicate hc]
    rfl
  have hstar : ∀ c ∈ ("* **".toList ++ (label ++ '*' :: rest)).head?, (c == ' ') = false := by
    intro c hc
    cases hc
    rfl
  rw [hline]
  exact ⟨Text.takeWhile_append_eq hspaces hstar, rest, Text.dropWhile_append_eq hspaces hstar⟩

/-- The depth and the label of a line are read back. -/
theorem readLine?_paramLine (depth : Nat) {label : Text} (hlabel : '*' ∉ label) (type : TypeName)
    (description : Text) :
    readLine? (paramLine depth label type description) = some (depth, label) := by
  rcases indentation_paramLine depth label type description with ⟨hspaces, rest, hrest⟩
  have hstart : Text.after? "* **".toList ("* **".toList ++ (label ++ '*' :: rest)) =
      some (label ++ '*' :: rest) := Text.after?_eq_some_iff.mpr rfl
  have hend : (label ++ '*' :: rest).takeWhile (· != '*') = label := by
    refine Text.takeWhile_append_eq ?_ (by simp)
    intro c hc
    rw [bne_iff_ne]
    rintro rfl
    exact hlabel hc
  rw [readLine?, hrest, hstart, Option.map_some, hspaces, hend, List.length_replicate,
    Nat.mul_div_cancel_left depth (by decide)]

/-- The text of a type stays on one line. -/
theorem notMem_text {type : TypeName} (h : ∀ text, type = .custom text → '\n' ∉ text) :
    '\n' ∉ type.text := by
  cases type with
  | custom text => exact h text rfl
  | _ => decide

/-- A line breaks only where one of its parts does. -/
theorem notMem_paramLine (depth : Nat) {label : Text} {type : TypeName} {description : Text}
    (hlabel : '\n' ∉ label) (htype : '\n' ∉ type.text) (hdescription : '\n' ∉ description) :
    '\n' ∉ paramLine depth label type description := by
  unfold paramLine bold
  split
  · simp [hlabel, htype]
  · simp [hlabel, htype, hdescription]

end Markdown

/-! ## Trees from depths and labels -/

/-- A parameter tree without its types and descriptions. -/
structure Outline where
  title : Text
  items : Option Outline
  properties : List (Text × Outline)

mutual

/-- The outline of a tree. -/
def Param.outline : Param → Outline
  | ⟨title, _, _, items, properties⟩ =>
    ⟨title, Param.itemsOutline items, Param.propertyOutlines properties⟩

/-- The outline of the items. -/
def Param.itemsOutline : Option Param → Option Outline
  | none => none
  | some item => some (Param.outline item)

/-- The outlines of the properties. -/
def Param.propertyOutlines : List (Text × Param) → List (Text × Outline)
  | [] => []
  | (key, property) :: rest => (key, Param.outline property) :: Param.propertyOutlines rest

end

namespace Param

/-- The outline of the items is that of their parameter. -/
theorem itemsOutline_eq_map (items : Option Param) : itemsOutline items = items.map outline := by
  cases items with
  | none => rfl
  | some item => rfl

/-- The outlines of properties stand under the names of the properties. -/
theorem propertyOutlines_eq_map (properties : List (Text × Param)) :
    propertyOutlines properties = properties.map fun node => (node.1, node.2.outline) := by
  induction properties with
  | nil => rfl
  | cons property rest ih =>
      rw [propertyOutlines, ih]
      rfl

end Param

namespace Outline

/-- The node with a label and the given children. -/
def ofChildren (label : Text) (children : List (Text × Outline)) : Outline where
  title := titleUnder label
  items := children.lookup brackets
  properties := children.filter fun child => child.1 != brackets

/-- The trees whose nodes have the given depths and labels.  Below a node stands what is
deeper, up to the first node that is not. -/
def ofCodes : List (Nat × Text) → List (Text × Outline)
  | [] => []
  | (depth, label) :: rest =>
    (label, ofChildren label (ofCodes (rest.takeWhile fun code => decide (depth < code.1)))) ::
      ofCodes (rest.dropWhile fun code => decide (depth < code.1))
termination_by codes => codes.length
decreasing_by
  · exact Nat.lt_succ_of_le (List.takeWhile_prefix _).length_le
  · exact Nat.lt_succ_of_le (List.dropWhile_suffix _).length_le

/-- The children of a node that keeps the rules are told apart by their labels. -/
theorem ofChildren_children {param : Param} (h : param.Fits) {label : Text}
    (htitle : param.title = titleUnder label) :
    ofChildren label (param.children.map fun node => (node.1, node.2.outline)) =
      param.outline := by
  have hkeys : ∀ node ∈ param.properties, node.1 ≠ brackets := by
    rintro ⟨key, property⟩ hmem
    have hidentifier := h.identifier key property hmem
    rw [h.key_eq_title key property hmem] at hidentifier
    exact brackets_ne_of_isIdentifier hidentifier
  have hfilter : ((param.properties.map fun node => (node.1, node.2.outline)).filter
      fun child => child.1 != brackets) =
        param.properties.map fun node => (node.1, node.2.outline) := by
    rw [List.filter_eq_self]
    intro child hchild
    rcases List.mem_map.mp hchild with ⟨node, hnode, rfl⟩
    simpa using hkeys node hnode
  have hlookup : (param.properties.map fun node => (node.1, node.2.outline)).lookup brackets =
      none := by
    rw [List.lookup_eq_none_iff]
    intro child hchild
    rcases List.mem_map.mp hchild with ⟨node, hnode, rfl⟩
    simpa using (hkeys node hnode).symm
  rcases param with ⟨title, type, description, items, properties⟩
  rw [Param.outline, Param.itemsOutline_eq_map, Param.propertyOutlines_eq_map]
  simp only at htitle hfilter hlookup
  cases items with
  | none => simp [ofChildren, Param.children, htitle, hfilter, hlookup]
  | some item => simp [ofChildren, Param.children, htitle, hfilter]

/-- All nodes of a tree lie as deep as the tree or deeper. -/
theorem le_of_mem_visits {depth : Nat} {label : Text} {param : Param} {visit : Visit}
    (h : visit ∈ Param.visits depth label param) : depth ≤ visit.depth := by
  induction param using Param.children_induction generalizing label depth with
  | h param ih =>
      rcases Param.mem_visits.mp h with rfl | ⟨label', child, hmem, hbelow⟩
      · exact Nat.le_refl depth
      · have hdepth := ih label' child hmem hbelow
        omega

/-- The first of several trees starts at their depth. -/
theorem le_of_mem_head?_visitsAll (depth : Nat) (nodes : List (Text × Param)) :
    ∀ code ∈ ((Param.visitsAll depth nodes).map Visit.code).head?, code.1 ≤ depth := by
  intro code hcode
  cases nodes with
  | nil => cases hcode
  | cons node nodes =>
      rw [Param.visitsAll, List.flatMap_cons, Param.visits_eq] at hcode
      cases hcode
      exact Nat.le_refl depth

/-- Several trees are built again when each of them is, whatever follows it. -/
theorem ofCodes_visitsAll {depth : Nat} {nodes : List (Text × Param)}
    (h : ∀ label child, (label, child) ∈ nodes →
      ∀ more : List (Nat × Text), (∀ code ∈ more.head?, code.1 ≤ depth) →
        ofCodes ((Param.visits depth label child).map Visit.code ++ more) =
          (label, child.outline) :: ofCodes more) :
    ofCodes ((Param.visitsAll depth nodes).map Visit.code) =
      nodes.map fun node => (node.1, node.2.outline) := by
  induction nodes with
  | nil =>
      rw [Param.visitsAll, List.flatMap_nil, List.map_nil, ofCodes, List.map_nil]
  | cons node nodes ih =>
      rcases node with ⟨label, child⟩
      have hrest := ih fun label' child' hmem => h label' child' (List.mem_cons_of_mem _ hmem)
      have hfirst := h label child List.mem_cons_self _ (le_of_mem_head?_visitsAll depth nodes)
      rw [hrest, Param.visitsAll, ← List.map_append] at hfirst
      exact hfirst

/-- A tree is built again from the depths and labels of its nodes, whatever follows
it. -/
theorem ofCodes_visits {param : Param} (hfits : ∀ node, param.Within node → node.Fits)
    {label : Text} (htitle : param.title = titleUnder label) {depth : Nat}
    {more : List (Nat × Text)} (hmore : ∀ code ∈ more.head?, code.1 ≤ depth) :
    ofCodes ((Param.visits depth label param).map Visit.code ++ more) =
      (label, param.outline) :: ofCodes more := by
  induction param using Param.children_induction generalizing label depth more with
  | h param ih =>
      have hnode := hfits param .self
      -- The nodes below are the longest run of deeper ones.
      have hdeep : ∀ code ∈ (Param.visitsAll (depth + 1) param.children).map Visit.code,
          decide (depth < code.1) = true := by
        intro code hcode
        rcases List.mem_map.mp hcode with ⟨visit, hvisit, rfl⟩
        rcases List.mem_flatMap.mp hvisit with ⟨node, _, hbelow⟩
        have hdepth := le_of_mem_visits hbelow
        exact decide_eq_true hdepth
      have hstop : ∀ code ∈ more.head?, decide (depth < code.1) = false := by
        intro code hcode
        simpa using hmore code hcode
      have hchildren : ofCodes ((Param.visitsAll (depth + 1) param.children).map Visit.code) =
          param.children.map fun node => (node.1, node.2.outline) := by
        apply ofCodes_visitsAll
        intro label' child hmem more' hmore'
        apply ih label' child hmem ?_ (hnode.of_mem_children hmem).2 hmore'
        intro inner hinner
        exact hfits inner ((Param.within_child hmem).trans hinner)
      rw [Param.visits_eq, List.map_cons, List.cons_append, Visit.code, ofCodes,
        Text.takeWhile_append_eq hdeep hstop, Text.dropWhile_append_eq hdeep hstop, hchildren,
        ofChildren_children hnode htitle]

/-- The depths and labels of trees that keep the rules give their outlines. -/
theorem ofCodes_forestVisits {params : List Param}
    (hfits : ∀ root ∈ params, ∀ node, root.Within node → node.Fits)
    (htitles : ∀ root ∈ params, Text.isIdentifier root.title = true) :
    (ofCodes ((Param.forestVisits params).map Visit.code)).map Prod.snd =
      params.map Param.outline := by
  have hcodes := @ofCodes_visitsAll 0 (params.map fun param => (param.title, param)) ?_
  · rw [Param.forestVisits, hcodes, List.map_map, List.map_map]
    rfl
  · intro label child hmem more hmore
    rcases List.mem_map.mp hmem with ⟨root, hroot, heq⟩
    cases heq
    refine ofCodes_visits (hfits child hroot) ?_ hmore
    rw [titleUnder, if_neg (brackets_ne_of_isIdentifier (htitles child hroot))]

end Outline

/-! ## Parameter lists -/

namespace Record

/-- Every node of the parameters of a comment keeps the rules, its type and its
description stand on one line, and the top-level titles are identifiers. -/
structure Listable (params : List Param) : Prop where
  fits : ∀ root ∈ params, ∀ node, root.Within node → node.Fits
  titles : ∀ root ∈ params, Text.isIdentifier root.title = true
  types : ∀ root ∈ params, ∀ node, root.Within node → '\n' ∉ node.type.text
  descriptions : ∀ root ∈ params, ∀ node, root.Within node → '\n' ∉ node.description

/-- The parameters of every comment can be listed. -/
theorem listable_ofComment (raw : Text) : Listable (ofComment raw).params := by
  rcases exists_tidyList_ofComment raw with ⟨branches, htidy, hforest⟩
  have hentries : ∀ entry ∈ (Comment.Sections.ofLines (Comment.lines raw)).tags.filterMap
      Tag.entryOf?, cleanWords.Admits entry := by
    intro entry hentry
    rcases List.mem_filterMap.mp hentry with ⟨tag, hmem, htag⟩
    rcases Tag.exists_ofText?_of_entryOf? htag with ⟨text, hafter, htext⟩
    apply ParamEntry.admits_of_ofText? htext
    intro hline
    exact Comment.notMem_of_mem_tags hmem (Text.mem_of_after? hafter hline)
  have hparams := params_ofSections (Comment.Sections.ofLines (Comment.lines raw))
  have hwords : ∀ root ∈ (ofComment raw).params, ∀ node, root.Within node →
      cleanWords.name node.type ∧ cleanWords.description node.description :=
    fun root hroot node => Vocabulary.of_within_forest hentries (hparams ▸ hroot)
  constructor
  · intro root hroot node hnode
    rw [hforest] at hroot
    rcases Branch.mem_forest hroot with ⟨name, branch, hmem, rfl⟩
    exact (htidy.tidy name branch hmem).fits_of_within hnode
  · intro root hroot
    rw [hforest] at hroot
    rcases Branch.mem_forest hroot with ⟨name, branch, hmem, rfl⟩
    rw [Branch.title_prune, htidy.labels.title_eq name branch hmem]
    exact htidy.labels.identifier name branch hmem
  · intro root hroot node hnode
    apply Markdown.notMem_text
    intro text htext
    exact ((hwords root hroot node hnode).1 text htext).1.inline.one_line
  · intro root hroot node hnode
    exact (hwords root hroot node hnode).2.one_line

end Record

namespace Markdown

/-- The outlines of the parameters in a parameter list. -/
def readForest? (lines : List Text) : Option (List Outline) :=
  (lines.mapM readLine?).map fun codes => (Outline.ofCodes codes).map Prod.snd

/-- Every visited node is one of the trees, under a label. -/
theorem of_mem_forestVisits {params : List Param} (h : Record.Listable params) {visit : Visit}
    (hvisit : visit ∈ Param.forestVisits params) :
    IsLabel visit.label ∧ ∃ root ∈ params, root.Within visit.param := by
  rcases List.mem_flatMap.mp hvisit with ⟨node, hnode, hbelow⟩
  rcases List.mem_map.mp hnode with ⟨root, hroot, rfl⟩
  have hall := Param.visits_forall (P := fun label node => IsLabel label ∧ root.Within node) ?_
    ⟨.inr (h.titles root hroot), .self⟩ hbelow
  · exact ⟨hall.1, root, hroot, hall.2⟩
  · intro label param hparam label' child hmem
    have hfits := h.fits root hroot param hparam.2
    exact ⟨(hfits.of_mem_children hmem).1, hparam.2.trans (Param.within_child hmem)⟩

/-- The lines of a parameter list do not break. -/
theorem notMem_of_mem_forestLines {params : List Param} (h : Record.Listable params) {line : Text}
    (hline : line ∈ forestLines params) : '\n' ∉ line := by
  rw [forestLines_eq_map] at hline
  rcases List.mem_map.mp hline with ⟨visit, hvisit, rfl⟩
  rcases of_mem_forestVisits h hvisit with ⟨hlabel, root, hroot, hwithin⟩
  exact notMem_paramLine visit.depth hlabel.notMem.2 (h.types root hroot _ hwithin)
    (h.descriptions root hroot _ hwithin)

/-- The depth and the label of every line are read back. -/
theorem readLine?_of_mem_forestVisits {params : List Param} (h : Record.Listable params)
    {visit : Visit} (hvisit : visit ∈ Param.forestVisits params) :
    readLine? visit.line = some visit.code :=
  readLine?_paramLine visit.depth (of_mem_forestVisits h hvisit).1.notMem.1 _ _

/-- Lines that can be read one by one can be read together. -/
theorem mapM_readLine? {visits : List Visit}
    (h : ∀ visit ∈ visits, readLine? visit.line = some visit.code) :
    (visits.map Visit.line).mapM readLine? = some (visits.map Visit.code) := by
  induction visits with
  | nil => rfl
  | cons visit visits ih =>
      have hrest := ih fun other hmem => h other (List.mem_cons_of_mem visit hmem)
      simp [List.mapM_cons, h visit List.mem_cons_self, hrest]

/-- The outlines of the parameters are read back from their list. -/
theorem readForest?_forestLines {params : List Param} (h : Record.Listable params) :
    readForest? (forestLines params) = some (params.map Param.outline) := by
  have hcodes : (forestLines params).mapM readLine? =
      some ((Param.forestVisits params).map Visit.code) := by
    rw [forestLines_eq_map]
    exact mapM_readLine? fun visit => readLine?_of_mem_forestVisits h
  rw [readForest?, hcodes, Option.map_some, Outline.ofCodes_forestVisits h.fits h.titles]

/-- The parameter list of a record of any source has one line for each node of its
parameters, in their order, and none of the lines breaks.  A line is indented by two
spaces for each level, and its indentation and its label can be read back.  So the
list gives the outline of the parameters, and two records with the same list have
parameters of the same outline. -/
theorem forestLines_outline {source : Text} {record : Record}
    (hrecord : record ∈ Record.ofSource source) :
    (∀ line ∈ forestLines record.params, '\n' ∉ line) ∧
    forestLines record.params = (Param.forestVisits record.params).map Visit.line ∧
    (∀ root ∈ record.params, ∀ node, root.Within node →
      ∃ visit ∈ Param.forestVisits record.params, visit.param = node) ∧
    (∀ visit ∈ Param.forestVisits record.params,
      visit.line.takeWhile (· == ' ') = List.replicate (2 * visit.depth) ' ' ∧
      readLine? visit.line = some (visit.depth, visit.label)) ∧
    readForest? (forestLines record.params) = some (record.params.map Param.outline) ∧
    ∀ source' record', record' ∈ Record.ofSource source' →
      forestLines record'.params = forestLines record.params →
      record'.params.map Param.outline = record.params.map Param.outline := by
  have hlistable : ∀ source record, record ∈ Record.ofSource source →
      Record.Listable record.params := by
    intro source record hrecord
    rcases List.mem_map.mp hrecord with ⟨raw, _, rfl⟩
    exact Record.listable_ofComment raw
  have h := hlistable source record hrecord
  refine ⟨fun line => notMem_of_mem_forestLines h, forestLines_eq_map _, ?_, ?_,
    readForest?_forestLines h, ?_⟩
  · intro root hroot node hnode
    rcases Param.exists_mem_visits hnode 0 root.title with ⟨visit, hvisit, heq⟩
    refine ⟨visit, List.mem_flatMap.mpr ⟨(root.title, root), ?_, hvisit⟩, heq⟩
    exact List.mem_map_of_mem hroot
  · intro visit hvisit
    exact ⟨(indentation_paramLine _ _ _ _).1, readLine?_of_mem_forestVisits h hvisit⟩
  · intro source' record' hrecord' hlines
    have hread := readForest?_forestLines (hlistable source' record' hrecord')
    rw [hlines, readForest?_forestLines h] at hread
    exact (Option.some.inj hread).symm

/-- A comment that documents the rows of a table and one field of each row. -/
def fieldSource (field : String) : Text :=
  "/**\n * @param \x7bObject[]\x7d rows\n * @param ".toList ++ field.toList ++ "\n */".toList

/-- What the type and what the description of a field is cannot be told from a parameter
list, but its outline can. -/
theorem forestLines_fieldSource :
    ∃ record ∈ Record.ofSource (fieldSource "\x7bx): y\x7d rows[].id z"),
      ∃ record' ∈ Record.ofSource (fieldSource "\x7bx\x7d rows[].id y): z"),
        forestLines record.params =
            ["* **rows** (array)", "  * **[]** (object)", "    * **id** (x): y): z"].map
              String.toList ∧
          forestLines record'.params = forestLines record.params ∧
          record'.params.map Param.outline = record.params.map Param.outline := by
  have hlists : ∀ field ∈ ["\x7bx): y\x7d rows[].id z", "\x7bx\x7d rows[].id y): z"],
      (Record.ofSource (fieldSource field)).map (fun record => forestLines record.params) =
        [["* **rows** (array)", "  * **[]** (object)", "    * **id** (x): y): z"].map
          String.toList] := by
    decide +kernel
  rcases List.map_eq_singleton_iff.mp (hlists _ List.mem_cons_self) with ⟨record, heq, hlist⟩
  rcases List.map_eq_singleton_iff.mp (hlists _ (List.mem_cons_of_mem _ List.mem_cons_self)) with
    ⟨record', heq', hlist'⟩
  have hrecord : record ∈ Record.ofSource (fieldSource "\x7bx): y\x7d rows[].id z") := by
    rw [heq]
    exact List.mem_cons_self
  have hrecord' : record' ∈ Record.ofSource (fieldSource "\x7bx\x7d rows[].id y): z") := by
    rw [heq']
    exact List.mem_cons_self
  have hsame := hlist'.trans hlist.symm
  rcases forestLines_outline hrecord with ⟨_, _, _, _, _, hdetermined⟩
  exact ⟨record, hrecord, record', hrecord', hlist, hsame, hdetermined _ record' hrecord' hsame⟩

end Markdown

end DocComment
