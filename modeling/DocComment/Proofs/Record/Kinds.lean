import DocComment.Proofs.Comment.Folding
import DocComment.Proofs.Record.Assembly
import DocComment.Proofs.Tag.Line

/-!
# Records and the kinds of tags

Three labels give a tag a kind: name, parameter and throws tags.  A record is
made of its prose and of the tags of each kind, and of nothing else: how the kinds
are mixed, what tags of other labels say, and what comes after the first name and
the first documented error is all the same to it.

Main results:

- Theorem `Tag.parse?_append_of_other`: a continuation does not turn a tag of an
  unknown label into another tag.
- Theorem `Tag.ReadsLabel.filterMap_labelled`: what is read from the tags of one label.
- Theorem `Record.ofLines_insert`: lines can be taken out of a comment when nothing is
  taken from the tag that they make.
- Theorem `Record.determined_by_kinds`: the record in terms of the kinds, for
  every order of the tags, and with and without redundant ones.
-/

namespace DocComment
namespace Tag

/-! ## Labels -/

/-- The label of a tag stays when no letter follows the line. -/
theorem label?_append_of_startsTag {line more : Text} (hline : Comment.startsTag line = true)
    (hmore : ∀ c ∈ more.head?, Text.isLetter c = false) : label? (line ++ more) = label? line := by
  obtain ⟨rest, rfl⟩ := List.head?_eq_some_iff.mp (beq_iff_eq.mp hline)
  have hstop : more.takeWhile Text.isLetter = [] := by
    cases more with
    | nil => rfl
    | cons c more => simp [hmore c rfl]
  have hletters : (rest ++ more).takeWhile Text.isLetter = rest.takeWhile Text.isLetter := by
    rw [List.takeWhile_append, hstop, List.append_nil]
    split
    · rename_i hall
      exact ((List.takeWhile_prefix _).eq_of_length hall).symm
    · rfl
  rw [List.cons_append, label?, hletters, label?]

/-- A line with a label starts a tag. -/
theorem startsTag_of_label? {line label : Text} (h : label? line = some label) :
    Comment.startsTag line = true := by
  unfold label? at h
  split at h
  · rfl
  · cases h

/-- A label stays the same when something else than a letter is appended to the line. -/
theorem label?_append_of_some {line more label : Text} (h : label? line = some label)
    (hmore : ∀ c ∈ more.head?, Text.isLetter c = false) : label? (line ++ more) = some label := by
  rw [label?_append_of_startsTag (startsTag_of_label? h) hmore, h]

/-- A line with a label that has no grammar of its own is read as this label. -/
theorem parse?_of_label? {line label : Text} (h : label? line = some label)
    (hname : label ≠ "name".toList) (hparam : label ≠ "param".toList)
    (hthrows : label ≠ "throws".toList) : parse? line = some (.other label) := by
  rw [parse?, h, Option.bind_eq_bind, Option.bind_some, if_neg hname, if_neg hparam,
    if_neg hthrows]

/-- A continuation does not turn a tag of an unknown label into another tag. -/
theorem parse?_append_of_other {line more label : Text} (h : parse? line = some (.other label))
    (hmore : ∀ c ∈ more.head?, Text.isLetter c = false) :
    parse? (line ++ more) = some (.other label) := by
  cases reads_of_parse? h with
  | other hlabel hname hparam hthrows =>
      exact parse?_of_label? (label?_append_of_some hlabel hmore) hname hparam hthrows

/-! ## The tags of one label -/

/-- The tags with a label, in their order. -/
def labelled (label : Text) (tags : List Text) : List Text :=
  tags.filter fun tag => label? tag == some label

/-- The reader takes tags of one label only. -/
def ReadsLabel {α : Type} (read : Text → Option α) (label : Text) : Prop :=
  ∀ line value, read line = some value → label? line = some label

theorem readsLabel_nameOf? : ReadsLabel nameOf? "name".toList :=
  fun _ _ h => (of_nameOf? h).1

theorem readsLabel_entryOf? : ReadsLabel entryOf? "param".toList :=
  fun _ _ h => (of_entryOf? h).1

theorem readsLabel_throwsOf? : ReadsLabel throwsOf? "throws".toList :=
  fun _ _ h => (of_throwsOf? h).1

section Readers

variable {α : Type} {read : Text → Option α} {label : Text}

/-- Nothing is read from a tag of another label. -/
theorem ReadsLabel.eq_none (h : ReadsLabel read label) {line : Text}
    (hlabel : label? line ≠ some label) : read line = none := by
  rw [Option.eq_none_iff_forall_ne_some]
  intro value hvalue
  exact hlabel (h line value hvalue)

/-- All that is read from the tags is read from those of the label. -/
theorem ReadsLabel.filterMap_labelled (h : ReadsLabel read label) (tags : List Text) :
    (labelled label tags).filterMap read = tags.filterMap read := by
  have hread : (fun tag => if label? tag == some label then read tag else none) = read := by
    funext tag
    by_cases htag : label? tag = some label
    · simp [htag]
    · simp [htag, h.eq_none htag]
  rw [labelled, List.filterMap_filter, hread]

/-- What is read from lines depends on those with the label only. -/
theorem ReadsLabel.filterMap_congr (h : ReadsLabel read label) {tags tags' : List Text}
    (htags : labelled label tags = labelled label tags') :
    tags.filterMap read = tags'.filterMap read := by
  rw [← h.filterMap_labelled tags, htags, h.filterMap_labelled]

/-- What is read first from lines depends on those with the label only. -/
theorem ReadsLabel.findSome?_congr (h : ReadsLabel read label) {tags tags' : List Text}
    (htags : labelled label tags = labelled label tags') :
    tags.findSome? read = tags'.findSome? read := by
  rw [← List.head?_filterMap, h.filterMap_congr htags, List.head?_filterMap]

/-- A tag behind the first one that is read does not matter, nor does one from
which nothing is read. -/
theorem findSome?_insert {earlier : List Text} {tag : Text}
    (h : read tag = none ∨ ∃ first ∈ earlier, (read first).isSome = true) (later : List Text) :
    (earlier ++ tag :: later).findSome? read = (earlier ++ later).findSome? read := by
  rw [List.findSome?_append, List.findSome?_append]
  rcases h with htag | ⟨first, hfirst, hread⟩
  · rw [List.findSome?_cons, htag]
  · have hfound : (earlier.findSome? read).isSome = true :=
      List.findSome?_isSome_iff.mpr ⟨first, hfirst, hread⟩
    obtain ⟨value, hvalue⟩ := Option.isSome_iff_exists.mp hfound
    rw [hvalue, Option.some_or, Option.some_or]

end Readers

/-! ## Redundant tags -/

/-- Nothing is taken from the tag: no entry, and no name or documented error that is
the first after the tags before it. -/
structure Idle (earlier : List Text) (tag : Text) : Prop where
  name : nameOf? tag = none ∨ ∃ first ∈ earlier, (nameOf? first).isSome = true
  throws : throwsOf? tag = none ∨ ∃ first ∈ earlier, (throwsOf? first).isSome = true
  entry : entryOf? tag = none

/-- The line adds nothing to the tags before it: its label is unknown, or it is
another name tag after one that gave a name, or another throws tag after one that
gave an error.  It may well be malformed. -/
inductive Redundant (earlier : List Text) (line : Text) : Prop
  | other {label : Text} (h : parse? line = some (.other label)) : Redundant earlier line
  | name (hlabel : label? line = some "name".toList)
      (hearlier : ∃ tag ∈ earlier, (nameOf? tag).isSome = true) : Redundant earlier line
  | throws (hlabel : label? line = some "throws".toList)
      (hearlier : ∃ tag ∈ earlier, (throwsOf? tag).isSome = true) : Redundant earlier line

section Redundant

variable {earlier : List Text} {line : Text}

/-- A redundant line starts a tag. -/
theorem Redundant.startsTag (h : Redundant earlier line) : Comment.startsTag line = true := by
  cases h with
  | other hparse =>
      cases reads_of_parse? hparse with
      | other hlabel => exact startsTag_of_label? hlabel
  | name hlabel => exact startsTag_of_label? hlabel
  | throws hlabel => exact startsTag_of_label? hlabel

/-- A redundant line stays redundant with its continuation. -/
theorem Redundant.append (h : Redundant earlier line) {more : Text}
    (hmore : ∀ c ∈ more.head?, Text.isLetter c = false) : Redundant earlier (line ++ more) := by
  cases h with
  | other hparse => exact .other (parse?_append_of_other hparse hmore)
  | name hlabel hearlier => exact .name (label?_append_of_some hlabel hmore) hearlier
  | throws hlabel hearlier => exact .throws (label?_append_of_some hlabel hmore) hearlier

/-- A redundant line can be left out. -/
theorem Redundant.idle (h : Redundant earlier line) : Idle earlier line := by
  cases h with
  | other hparse =>
      exact ⟨.inl (by rw [nameOf?, hparse]), .inl (by rw [throwsOf?, hparse]),
        by rw [entryOf?, hparse]⟩
  | name hlabel hearlier =>
      exact ⟨.inr hearlier, .inl (readsLabel_throwsOf?.eq_none (by rw [hlabel]; decide)),
        readsLabel_entryOf?.eq_none (by rw [hlabel]; decide)⟩
  | throws hlabel hearlier =>
      exact ⟨.inl (readsLabel_nameOf?.eq_none (by rw [hlabel]; decide)), .inr hearlier,
        readsLabel_entryOf?.eq_none (by rw [hlabel]; decide)⟩

end Redundant
end Tag

/-! ## The record in terms of the kinds -/

namespace Record

/-- The record of the sections of a comment: the prose with the first name, the
tree of all entries, and the first documented error. -/
theorem ofSections_eq_kinds (sections : Comment.Sections) :
    ofSections sections =
      { name := (Comment.Heading.ofProse sections.prose
          (sections.tags.findSome? Tag.nameOf?)).name
        description := (Comment.Heading.ofProse sections.prose
          (sections.tags.findSome? Tag.nameOf?)).description
        params := (Draft.ofEntries (sections.tags.filterMap Tag.entryOf?)).forest
        throws := sections.tags.findSome? Tag.throwsOf? } := by
  rw [← Assembly.draft_run, ← List.head?_filterMap, ← List.head?_filterMap, ← Assembly.name_run,
    ← Assembly.throws_run]
  rfl

/-- Sections with the same prose and the same tags of each kind have the same
record. -/
theorem ofSections_congr {sections sections' : Comment.Sections}
    (hprose : sections.prose = sections'.prose)
    (hkinds : ∀ label ∈ ["name".toList, "param".toList, "throws".toList],
      Tag.labelled label sections.tags = Tag.labelled label sections'.tags) :
    ofSections sections = ofSections sections' := by
  have hname := Tag.readsLabel_nameOf?.findSome?_congr (hkinds "name".toList (by simp))
  have hparam := Tag.readsLabel_entryOf?.filterMap_congr (hkinds "param".toList (by simp))
  have hthrows := Tag.readsLabel_throwsOf?.findSome?_congr (hkinds "throws".toList (by simp))
  rw [ofSections_eq_kinds, ofSections_eq_kinds, hprose, hname, hparam, hthrows]

/-- A tag from which nothing is taken leaves the record as it is. -/
theorem ofSections_insert (prose : List Text) {earlier : List Text} {tag : Text}
    (h : Tag.Idle earlier tag) (later : List Text) :
    ofSections ⟨prose, earlier ++ tag :: later⟩ = ofSections ⟨prose, earlier ++ later⟩ := by
  have hentries : (earlier ++ tag :: later).filterMap Tag.entryOf? =
      (earlier ++ later).filterMap Tag.entryOf? := by
    rw [List.filterMap_append, List.filterMap_cons_none h.entry, List.filterMap_append]
  rw [ofSections_eq_kinds, ofSections_eq_kinds]
  simp only [Tag.findSome?_insert h.name, Tag.findSome?_insert h.throws, hentries]

/-- A line can be taken out of a comment together with the lines that continue it when
nothing is taken from the tag that they make. -/
theorem ofLines_insert {before continuation after : List Text} {line : Text}
    (hline : Comment.startsTag line = true)
    (hcontinuation : ∀ more ∈ continuation, Comment.startsTag more = false)
    (hafter : Comment.OpensTag after)
    (hidle : Tag.Idle (Comment.Sections.ofLines before).tags
      (line ++ (Comment.foldLines continuation).1)) :
    ofLines (before ++ line :: (continuation ++ after)) = ofLines (before ++ after) := by
  rw [ofLines, ofLines, Comment.ofLines_append_tag before hline hcontinuation hafter,
    Comment.ofLines_append_of_opensTag before hafter]
  exact ofSections_insert _ hidle _

/-- A redundant line can be taken out of a comment together with the lines that
continue it. -/
theorem ofLines_insert_of_redundant {before continuation after : List Text} {line : Text}
    (h : Tag.Redundant (Comment.Sections.ofLines before).tags line)
    (hcontinuation : ∀ more ∈ continuation, Comment.startsTag more = false)
    (hafter : Comment.OpensTag after) :
    ofLines (before ++ line :: (continuation ++ after)) = ofLines (before ++ after) := by
  have hspace : ∀ c ∈ (Comment.foldLines continuation).1.head?, Text.isLetter c = false := by
    intro c hc
    rw [Comment.eq_space_of_mem_head?_foldLines hc]
    exact Tag.isLetter_space
  exact ofLines_insert h.startsTag hcontinuation hafter (h.append hspace).idle

/-- A record is determined by its prose and the tags of each kind.  The name and
the description come from the prose and the first name that a tag gives, the
documented error is the first that a tag gives, and the parameters are those of
all entries in their order.  So comments with the same prose and the same tags of
each kind have the same record, however the kinds are mixed; and a line that is
redundant can be taken out together with the lines that continue it. -/
theorem determined_by_kinds :
    (∀ raw : Text,
      let sections := Comment.Sections.ofLines (Comment.lines raw)
      let heading := Comment.Heading.ofProse sections.prose (sections.tags.findSome? Tag.nameOf?)
      ofComment raw =
        { name := heading.name
          description := heading.description
          params := (Draft.ofEntries (sections.tags.filterMap Tag.entryOf?)).forest
          throws := sections.tags.findSome? Tag.throwsOf? }) ∧
    (∀ lines lines' : List Text,
      (Comment.Sections.ofLines lines).prose = (Comment.Sections.ofLines lines').prose →
      (∀ label ∈ ["name".toList, "param".toList, "throws".toList],
        Tag.labelled label (Comment.Sections.ofLines lines).tags =
          Tag.labelled label (Comment.Sections.ofLines lines').tags) →
      ofLines lines = ofLines lines') ∧
    (∀ (before continuation after : List Text) (line : Text),
      Tag.Redundant (Comment.Sections.ofLines before).tags line →
      (∀ more ∈ continuation, Comment.startsTag more = false) →
      Comment.OpensTag after →
      ofLines (before ++ line :: (continuation ++ after)) = ofLines (before ++ after)) := by
  refine ⟨?_, ?_, ?_⟩
  · intro raw
    exact ofSections_eq_kinds _
  · intro lines lines' hprose hkinds
    exact ofSections_congr hprose hkinds
  · intro before continuation after line hline hcontinuation hafter
    exact ofLines_insert_of_redundant hline hcontinuation hafter

/-- The start of a comment, with a malformed tag. -/
def loadLines : List Text :=
  ["load: Reads a table.", "@throws", "@param \x7bobject\x7d row"].map String.toList

/-- More tags, one of them on two lines. -/
def rowLines : List Text :=
  ["@throws \x7bEmpty\x7d no rows", "@param \x7bnumber\x7d row.id The", "key."].map String.toList

/-- The same tags in another order. -/
def sortedLines : List Text :=
  ["load: Reads a table.",
   "@param \x7bobject\x7d row",
   "@param \x7bnumber\x7d row.id",
   "The key.",
   "@throws",
   "",
   "@throws \x7bEmpty\x7d no rows"].map String.toList

theorem ofLines_loadLines_rowLines :
    ofLines (loadLines ++ rowLines) = ofLines sortedLines ∧
      ofLines (loadLines ++ "@returns the rows,".toList ::
        ([[], "if there are any".toList] ++ rowLines)) = ofLines (loadLines ++ rowLines) ∧
      ofLines (loadLines ++ rowLines ++ "@throws later".toList :: ([] ++ [])) =
        ofLines (loadLines ++ rowLines ++ []) := by
  obtain ⟨_, hmixed, hredundant⟩ := determined_by_kinds
  refine ⟨hmixed _ _ (by decide) (by decide), ?_, ?_⟩
  · have hreturns : Tag.parse? "@returns the rows,".toList =
        some (.other "returns".toList) := by decide
    exact hredundant _ _ _ _ (.other hreturns) (by decide) (by unfold Comment.OpensTag; decide)
  · have hearlier : ∃ tag ∈ (Comment.Sections.ofLines (loadLines ++ rowLines)).tags,
        (Tag.throwsOf? tag).isSome = true := by decide
    exact hredundant _ _ _ _ (.throws (by decide) hearlier) (by simp) (by simp [Comment.OpensTag])

end Record
end DocComment
