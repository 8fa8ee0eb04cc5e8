import DocComment.Proofs.Param.Refinement
import DocComment.Record

/-!
# What a record takes from its tags

The parts of a record depend on the tags of their own kind only: the name on the
first name tag, the documented error on the first throws tag, and the parameters
on all parameter entries in their order.

Main results:

- Theorem `Tag.reads_of_parse?`: how a line is read as a tag.
- Theorems `Assembly.name_run`, `Assembly.throws_run` and `Assembly.draft_run`:
  the parts of the final state in terms of the tags.
- Theorem `Record.params_ofSections`: the parameters of a comment are those of the
  branches of its entries.
- Theorem `Record.ofSections_eq`: the whole record in terms of the tags.
-/

namespace DocComment
namespace Tag

/-! ## The content of one tag -/

/-- The name that a tag line gives, if it is a name tag. -/
def nameOf? (line : Text) : Option Text :=
  match parse? line with
  | some (.name text) => some text
  | _ => none

/-- The entry that a tag line gives, if it is a parameter tag. -/
def entryOf? (line : Text) : Option ParamEntry :=
  match parse? line with
  | some (.param entry) => some entry
  | _ => none

/-- The documented error that a tag line gives, if it is a throws tag. -/
def throwsOf? (line : Text) : Option Throws :=
  match parse? line with
  | some (.throws error) => some error
  | _ => none

/-! ## Which lines are read as which tag -/

/-- How a line is read as a tag: by the grammar of its label if the label has one,
and else by the label alone. -/
inductive Reads (line : Text) : Tag → Prop
  | name {name : Text} (hlabel : label? line = some "name".toList)
      (hparse : parseName? line = some name) : Reads line (.name name)
  | param {entry : ParamEntry} (hlabel : label? line = some "param".toList)
      (hparse : ParamEntry.parse? line = some entry) : Reads line (.param entry)
  | throws {error : Throws} (hlabel : label? line = some "throws".toList)
      (hparse : Throws.parse? line = some error) : Reads line (.throws error)
  | other {label : Text} (hlabel : label? line = some label) (hname : label ≠ "name".toList)
      (hparam : label ≠ "param".toList) (hthrows : label ≠ "throws".toList) :
      Reads line (.other label)

/-- A line that is read as a tag is read by the reader of this kind of tag. -/
theorem reads_of_parse? {line : Text} {tag : Tag} (h : parse? line = some tag) :
    Reads line tag := by
  simp only [parse?, Option.bind_eq_bind, Option.bind_eq_some_iff] at h
  obtain ⟨label, hlabel, h⟩ := h
  split at h
  · rename_i hname
    obtain ⟨name, hparse, rfl⟩ := Option.map_eq_some_iff.mp h
    exact .name (hname ▸ hlabel) hparse
  · rename_i hname
    split at h
    · rename_i hparam
      obtain ⟨entry, hparse, rfl⟩ := Option.map_eq_some_iff.mp h
      exact .param (hparam ▸ hlabel) hparse
    · rename_i hparam
      split at h
      · rename_i hthrows
        obtain ⟨error, hparse, rfl⟩ := Option.map_eq_some_iff.mp h
        exact .throws (hthrows ▸ hlabel) hparse
      · rename_i hthrows
        cases h
        exact .other hlabel hname hparam hthrows

/-- A line that gives a name has the label of one and is read as one. -/
theorem of_nameOf? {line name : Text} (h : nameOf? line = some name) :
    label? line = some "name".toList ∧ parseName? line = some name := by
  unfold nameOf? at h
  split at h
  · rename_i text hparse
    cases h
    cases reads_of_parse? hparse with
    | name hlabel hname => exact ⟨hlabel, hname⟩
  · contradiction

/-- A line that gives an entry has the label of one and is read as one. -/
theorem of_entryOf? {line : Text} {entry : ParamEntry} (h : entryOf? line = some entry) :
    label? line = some "param".toList ∧ ParamEntry.parse? line = some entry := by
  unfold entryOf? at h
  split at h
  · rename_i entry hparse
    cases h
    cases reads_of_parse? hparse with
    | param hlabel hentry => exact ⟨hlabel, hentry⟩
  · contradiction

/-- A line that gives a documented error has the label of one and is read as one. -/
theorem of_throwsOf? {line : Text} {error : Throws} (h : throwsOf? line = some error) :
    label? line = some "throws".toList ∧ Throws.parse? line = some error := by
  unfold throwsOf? at h
  split at h
  · rename_i error hparse
    cases h
    cases reads_of_parse? hparse with
    | throws hlabel hthrows => exact ⟨hlabel, hthrows⟩
  · contradiction

end Tag

/-- The path of an entry that was read from a line was read from a word of it. -/
theorem ParamEntry.readable_of_ofText? {text : Text} {entry : ParamEntry}
    (h : ParamEntry.ofText? text = some entry) : entry.path.Readable := by
  simp only [ParamEntry.ofText?, Option.bind_eq_bind, Option.bind_eq_some_iff, Option.pure_def,
    Option.some.injEq] at h
  rcases h with ⟨⟨token, rest⟩, _, path, hpath, _, _, rfl⟩
  exact ⟨token, hpath⟩

/-- The entry of a tag line was read from what follows the tag. -/
theorem Tag.exists_ofText?_of_entryOf? {line : Text} {entry : ParamEntry}
    (h : Tag.entryOf? line = some entry) :
    ∃ text, Text.after? "@param".toList line = some text ∧
      ParamEntry.ofText? text = some entry :=
  Option.bind_eq_some_iff.mp (Tag.of_entryOf? h).2

/-- The entry of a tag line has a path that was read. -/
theorem Tag.readable_of_entryOf? {line : Text} {entry : ParamEntry}
    (h : Tag.entryOf? line = some entry) : entry.path.Readable := by
  rcases Tag.exists_ofText?_of_entryOf? h with ⟨text, _, htext⟩
  exact ParamEntry.readable_of_ofText? htext

namespace Assembly

/-! ## One tag -/

/-- The first name is kept. -/
theorem name_step (state : Assembly) (line : Text) :
    (state.step line).name = state.name.or (Tag.nameOf? line) := by
  unfold step Tag.nameOf?
  cases Tag.parse? line with
  | none => simp [notify]
  | some tag =>
      cases tag with
      | name name => rfl
      | param entry => simp
      | throws throws => cases hthrows : state.throws <;> simp [notify]
      | other label => simp [notify]

/-- The first documented error is kept. -/
theorem throws_step (state : Assembly) (line : Text) :
    (state.step line).throws = state.throws.or (Tag.throwsOf? line) := by
  unfold step Tag.throwsOf?
  cases Tag.parse? line with
  | none => simp [notify]
  | some tag =>
      cases tag with
      | name name => simp
      | param entry => simp
      | throws throws => cases hthrows : state.throws <;> simp [notify, hthrows]
      | other label => simp [notify]

/-- A line adds its entry to the draft, if it gives one. -/
theorem draft_step (state : Assembly) (line : Text) :
    (state.step line).draft = (Tag.entryOf? line).toList.foldl Draft.add state.draft := by
  unfold step Tag.entryOf?
  cases Tag.parse? line with
  | none => rfl
  | some tag =>
      cases tag with
      | name name => rfl
      | param entry => rfl
      | throws throws => cases hthrows : state.throws <;> rfl
      | other label => rfl

/-! ## All tags -/

/-- The name after some lines is the first that they give. -/
theorem name_foldl_step (tags : List Text) (state : Assembly) :
    (tags.foldl step state).name = state.name.or (tags.filterMap Tag.nameOf?).head? := by
  induction tags generalizing state with
  | nil => simp
  | cons line tags ih =>
      rw [List.foldl_cons, ih, name_step, List.filterMap_cons]
      cases Tag.nameOf? line <;> simp

/-- The documented error after some lines is the first that they give. -/
theorem throws_foldl_step (tags : List Text) (state : Assembly) :
    (tags.foldl step state).throws = state.throws.or (tags.filterMap Tag.throwsOf?).head? := by
  induction tags generalizing state with
  | nil => simp
  | cons line tags ih =>
      rw [List.foldl_cons, ih, throws_step, List.filterMap_cons]
      cases Tag.throwsOf? line <;> simp

/-- The draft after some lines has the entries that they give, in order. -/
theorem draft_foldl_step (tags : List Text) (state : Assembly) :
    (tags.foldl step state).draft = (tags.filterMap Tag.entryOf?).foldl Draft.add state.draft := by
  induction tags generalizing state with
  | nil => rfl
  | cons line tags ih =>
      rw [List.foldl_cons, ih, draft_step, List.filterMap_cons]
      cases Tag.entryOf? line <;> rfl

/-- The name is that of the first name tag. -/
theorem name_run (tags : List Text) : (run tags).name = (tags.filterMap Tag.nameOf?).head? := by
  simp [run, name_foldl_step, start]

/-- The documented error is that of the first throws tag. -/
theorem throws_run (tags : List Text) :
    (run tags).throws = (tags.filterMap Tag.throwsOf?).head? := by
  simp [run, throws_foldl_step, start]

/-- The draft takes in all parameter entries in their order. -/
theorem draft_run (tags : List Text) :
    (run tags).draft = Draft.ofEntries (tags.filterMap Tag.entryOf?) :=
  draft_foldl_step tags start

end Assembly

/-! ## The parameters of a record -/

namespace Record

/-- The parameters of the sections of a comment are those of the branches of its
entries. -/
theorem params_ofSections (sections : Comment.Sections) :
    (ofSections sections).params =
      Branch.forest (Branch.ofEntries (sections.tags.filterMap Tag.entryOf?)) := by
  have hpaths : ∀ entry ∈ sections.tags.filterMap Tag.entryOf?, entry.path.Named := by
    intro entry hentry
    rcases List.mem_filterMap.mp hentry with ⟨line, _, hline⟩
    exact (Tag.readable_of_entryOf? hline).named
  have hdraft : (ofSections sections).params = (Assembly.run sections.tags).draft.forest := rfl
  rw [hdraft, Assembly.draft_run]
  exact (Draft.represents_ofEntries hpaths).forest_eq

/-- The record of the sections of a comment, part by part. -/
theorem ofSections_eq (sections : Comment.Sections) :
    ofSections sections =
      { name := (Comment.Heading.ofProse sections.prose
          (sections.tags.filterMap Tag.nameOf?).head?).name
        description := (Comment.Heading.ofProse sections.prose
          (sections.tags.filterMap Tag.nameOf?).head?).description
        params := Branch.forest (Branch.ofEntries (sections.tags.filterMap Tag.entryOf?))
        throws := (sections.tags.filterMap Tag.throwsOf?).head? } := by
  rw [← params_ofSections, ← Assembly.name_run, ← Assembly.throws_run]
  rfl

end Record
end DocComment
