import DocComment.Proofs.Comment.Prose
import DocComment.Proofs.Param.Writing
import DocComment.Proofs.Record.Assembly

/-!
# Records as comments

Every record that keeps a few rules can be written as a comment: its name and
description as prose, each parameter and property as an entry, and the documented
error last.  Reading the comment gives back the record.

Main results:

- Definition `Record.comment`: the comment of a record.
- Definition `Record.Expressible`: the rules that a record has to keep.
- Theorem `Record.ofComment_comment`: the comment of an expressible record is read
  as the record.
-/

namespace DocComment

/-! ## What written tag lines give -/

/-- The line of an entry gives the entry and nothing else. -/
theorem Tag.of_paramLine {entry : ParamEntry} (h : entry.Writable) :
    Tag.nameOf? entry.line = none ∧ Tag.entryOf? entry.line = some entry ∧
      Tag.throwsOf? entry.line = none := by
  simp only [Tag.nameOf?, Tag.entryOf?, Tag.throwsOf?, Tag.parse?_paramLine h, and_self]

/-- The line of a documented error gives the error and nothing else. -/
theorem Tag.of_throwsLine {throws : Throws} (h : throws.Writable) :
    Tag.nameOf? throws.line = none ∧ Tag.entryOf? throws.line = none ∧
      Tag.throwsOf? throws.line = some throws := by
  simp only [Tag.nameOf?, Tag.entryOf?, Tag.throwsOf?, Tag.parse?_throwsLine h, and_self]

/-- Things that are read back from their lines are read back from all lines. -/
theorem filterMap_map_eq {α : Type} {line : α → Text} {read : Text → Option α} {things : List α}
    (h : ∀ thing ∈ things, read (line thing) = some thing) :
    (things.map line).filterMap read = things := by
  induction things with
  | nil => rfl
  | cons thing things ih =>
      rw [List.map_cons, List.filterMap_cons_some (h thing List.mem_cons_self),
        ih fun thing' hmem => h thing' (List.mem_cons_of_mem _ hmem)]

namespace Record

/-! ## The comment of a record -/

/-- The name and the description of a record. -/
def heading (record : Record) : Comment.Heading :=
  ⟨record.name, record.description⟩

/-- The entries of all parameters. -/
def entries (record : Record) : List ParamEntry :=
  record.params.flatMap Param.entries

/-- The tag lines of a record: its entries, then its documented error. -/
def tagLines (record : Record) : List Text :=
  record.entries.map ParamEntry.line ++ record.throws.toList.map Throws.line

/-- The comment of a record. -/
def comment (record : Record) : Text :=
  Comment.enclose (record.heading.prose ++ record.tagLines)

/-- The rules for a record that is to be written. -/
structure Expressible (record : Record) : Prop where
  heading : record.heading.Writable
  titles_nodup : (record.params.map Param.title).Nodup
  titles : ∀ root ∈ record.params, Text.isIdentifier root.title = true
  params : ∀ root ∈ record.params, root.Sound
  throws : ∀ throws, record.throws = some throws → throws.Writable

variable {record : Record}

/-- Every entry of an expressible record can be written on a line. -/
theorem Expressible.writable_of_mem_entries (h : record.Expressible) {entry : ParamEntry}
    (hmem : entry ∈ record.entries) : entry.Writable := by
  rcases List.mem_flatMap.mp hmem with ⟨root, hroot, hentry⟩
  exact (h.params root hroot).writable_of_mem_entries (h.titles root hroot) hentry

/-- A tag line is that of a writable entry or of a writable error. -/
theorem Expressible.mem_tagLines (h : record.Expressible) {line : Text}
    (hmem : line ∈ record.tagLines) :
    (∃ entry : ParamEntry, entry.Writable ∧ line = entry.line) ∨
      ∃ throws : Throws, throws.Writable ∧ line = throws.line := by
  rcases List.mem_append.mp hmem with hmem | hmem
  · rcases List.mem_map.mp hmem with ⟨entry, hentry, rfl⟩
    exact .inl ⟨entry, h.writable_of_mem_entries hentry, rfl⟩
  · rcases List.mem_map.mp hmem with ⟨throws, hthrows, rfl⟩
    exact .inr ⟨throws, h.throws throws (Option.mem_toList.mp hthrows), rfl⟩

/-- The tag lines of an expressible record are clean. -/
theorem Expressible.inline_of_mem_tagLines (h : record.Expressible) {line : Text}
    (hmem : line ∈ record.tagLines) : line.Inline := by
  rcases h.mem_tagLines hmem with ⟨entry, hentry, rfl⟩ | ⟨throws, hthrows, rfl⟩
  · exact hentry.inline_line
  · exact hthrows.inline_line

/-- The tag lines of an expressible record all start a tag. -/
theorem Expressible.startsTag_of_mem_tagLines (h : record.Expressible) {line : Text}
    (hmem : line ∈ record.tagLines) : Comment.startsTag line = true := by
  rcases h.mem_tagLines hmem with ⟨entry, _, rfl⟩ | ⟨throws, _, rfl⟩
  · rfl
  · rfl

/-! ## What the tag lines give -/

/-- The tag lines of an expressible record give no name. -/
theorem Expressible.filterMap_nameOf? (h : record.Expressible) :
    record.tagLines.filterMap Tag.nameOf? = [] := by
  rw [List.filterMap_eq_nil_iff]
  intro line hmem
  rcases h.mem_tagLines hmem with ⟨entry, hentry, rfl⟩ | ⟨throws, hthrows, rfl⟩
  · exact (Tag.of_paramLine hentry).1
  · exact (Tag.of_throwsLine hthrows).1

/-- The tag lines of an expressible record give its entries. -/
theorem Expressible.filterMap_entryOf? (h : record.Expressible) :
    record.tagLines.filterMap Tag.entryOf? = record.entries := by
  have hentries : (record.entries.map ParamEntry.line).filterMap Tag.entryOf? = record.entries := by
    refine filterMap_map_eq ?_
    intro entry hentry
    exact (Tag.of_paramLine (h.writable_of_mem_entries hentry)).2.1
  have hthrows : (record.throws.toList.map Throws.line).filterMap Tag.entryOf? = [] := by
    rw [List.filterMap_eq_nil_iff]
    intro line hmem
    rcases List.mem_map.mp hmem with ⟨throws, hthrows, rfl⟩
    exact (Tag.of_throwsLine (h.throws throws (Option.mem_toList.mp hthrows))).2.1
  rw [tagLines, List.filterMap_append, hentries, hthrows, List.append_nil]

/-- The tag lines of an expressible record give its documented error. -/
theorem Expressible.filterMap_throwsOf? (h : record.Expressible) :
    record.tagLines.filterMap Tag.throwsOf? = record.throws.toList := by
  have hentries : (record.entries.map ParamEntry.line).filterMap Tag.throwsOf? = [] := by
    rw [List.filterMap_eq_nil_iff]
    intro line hmem
    rcases List.mem_map.mp hmem with ⟨entry, hentry, rfl⟩
    exact (Tag.of_paramLine (h.writable_of_mem_entries hentry)).2.2
  have hthrows : (record.throws.toList.map Throws.line).filterMap Tag.throwsOf? =
      record.throws.toList := by
    refine filterMap_map_eq ?_
    intro throws hthrows
    exact (Tag.of_throwsLine (h.throws throws (Option.mem_toList.mp hthrows))).2.2
  rw [tagLines, List.filterMap_append, hentries, hthrows, List.nil_append]

/-! ## The round trip -/

/-- The lines of the comment of a record are its prose and its tag lines. -/
theorem Expressible.lines_comment (h : record.Expressible) :
    Comment.lines record.comment = record.heading.prose ++ record.tagLines := by
  have hprose := h.heading.isProse_prose
  have htags : Comment.Edged record.tagLines := by
    refine Comment.edged_of_forall_ne_nil ?_
    intro line hmem hnil
    have hstarts := h.startsTag_of_mem_tagLines hmem
    rw [hnil] at hstarts
    contradiction
  refine Comment.lines_enclose ?_ (hprose.edged.append htags)
  intro line hmem
  rcases List.mem_append.mp hmem with hmem | hmem
  · exact hprose.inline line hmem
  · exact h.inline_of_mem_tagLines hmem

/-- The comment of an expressible record falls into its prose and its tag lines. -/
theorem Expressible.sections_comment (h : record.Expressible) :
    Comment.Sections.ofLines (Comment.lines record.comment) =
      ⟨record.heading.prose, record.tagLines⟩ := by
  rw [h.lines_comment]
  exact Comment.ofLines_append h.heading.isProse_prose.not_tag
    fun line => h.startsTag_of_mem_tagLines

/-- The comment of an expressible record is read as the record. -/
theorem ofComment_comment (h : record.Expressible) : ofComment record.comment = record := by
  have hthrows : record.throws.toList.head? = record.throws := by
    cases record.throws <;> rfl
  have hparams : Branch.forest (Branch.ofEntries record.entries) = record.params :=
    Branch.forest_ofEntries_flatMap_entries h.titles_nodup h.params
  rw [ofComment, ofLines, h.sections_comment, ofSections_eq]
  simp only [h.filterMap_nameOf?, h.filterMap_entryOf?, h.filterMap_throwsOf?, List.head?_nil,
    h.heading.ofProse_prose, hparams, hthrows]
  rfl

/-! ## A record with nested parameters -/

/-- The items of an array of objects. -/
def rowItems : Param where
  title := []
  type := .object
  description := []
  items := none
  properties :=
    [("id".toList, ⟨"id".toList, .number, "The key.".toList, none, []⟩),
     ("due".toList, ⟨"due".toList, .custom "date".toList, [], none, []⟩)]

/-- The items of an array of arrays. -/
def gridItems : Param where
  title := []
  type := .array
  description := []
  items := some ⟨[], .string, [], none, []⟩
  properties := []

/-- A record with an array of objects, an array of arrays, and an error whose
description starts with a brace. -/
def tableRecord : Record where
  name := "load-table".toList
  description := "note: Reads a table.\n\n* Rows */ may be empty.".toList
  params :=
    [⟨"rows".toList, .array, "All rows.".toList, some rowItems, []⟩,
     ⟨"grid".toList, .array, [], some gridItems, []⟩]
  throws := some ⟨none, some "\x7bcode\x7d of the failure".toList⟩

theorem spelled_date : TypeExpr.Spelled (.named (.custom "date".toList)) := by
  have hnone : TypeExpr.elementText? (Text.trim "date".toList) = none := by decide
  have htrim : Text.trim "date".toList = "date".toList := by decide
  refine ⟨by decide, by decide, by decide, ?_⟩
  refine (TypeExpr.parse_of_no_element hnone).trans ?_
  rw [htrim, TypeName.ofText, Text.lower_of_isSmall (by decide)]
  decide

theorem sound_rowItems : rowItems.Sound := by
  refine Param.Sound.object (by decide) (by decide) (by decide) ?_
  intro property hmem
  simp only [List.mem_cons, List.not_mem_nil, or_false] at hmem
  rcases hmem with rfl | rfl
  · exact .leaf (by decide) (by simp)
  · refine .leaf (by decide) ?_
    intro name hname
    cases hname
    exact spelled_date

theorem sound_gridItems : gridItems.Sound :=
  .array (by decide) ⟨rfl, rfl⟩ (by simp) (.leaf (by decide) (by simp))

/-- The record of the example is expressible. -/
theorem expressible_tableRecord : tableRecord.Expressible where
  heading := by
    refine ⟨.inr (by decide), ["note: Reads a table.".toList, "* Rows */ may be empty.".toList],
      by decide, ?_, ?_⟩
    · intro para hmem
      simp only [List.mem_cons, List.not_mem_nil, or_false] at hmem
      rcases hmem with rfl | rfl
      · exact ⟨by decide, by decide, by decide⟩
      · exact ⟨by decide, by decide, by decide⟩
    · intro hname
      contradiction
  titles_nodup := by decide
  titles := by decide
  params := by
    intro root hmem
    rcases List.mem_cons.mp hmem with rfl | hmem
    · exact .array (by decide) ⟨rfl, rfl⟩ (by simp [rowItems]) sound_rowItems
    · rcases List.mem_singleton.mp hmem with rfl
      exact .array (by decide) ⟨rfl, rfl⟩ (by simp [gridItems]) sound_gridItems
  throws := by
    intro throws hthrows
    cases hthrows
    refine ⟨.inr rfl, by simp, ?_⟩
    intro description hdescription
    cases hdescription
    exact ⟨by decide, by decide⟩

theorem ofComment_comment_tableRecord :
    tableRecord.Expressible ∧
      tableRecord.comment = ['\n'].intercalate (
        ["/**",
         " * load-table: note: Reads a table.",
         " *",
         " * * Rows */ may be empty.",
         " * @param \x7bobject[]\x7d rows All rows.",
         " * @param \x7bnumber\x7d rows[].id The key.",
         " * @param \x7bdate\x7d rows[].due",
         " * @param \x7bstring[][]\x7d grid",
         " * @throws \x7b\x7d \x7bcode\x7d of the failure",
         " */"].map String.toList) ∧
      ofComment tableRecord.comment = tableRecord :=
  ⟨expressible_tableRecord, by decide +kernel, ofComment_comment expressible_tableRecord⟩

end Record
end DocComment
