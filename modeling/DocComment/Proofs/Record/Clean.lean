import DocComment.Proofs.Comment.Clean
import DocComment.Proofs.Param.Vocabulary
import DocComment.Proofs.Record.Assembly
import DocComment.Proofs.Text.Lower

/-!
# Clean records

The record of a comment has clean fields, whatever the comment: names, types and
descriptions are trimmed texts on one line, a description consists of paragraphs
that each say something, and what is there at all is not empty.

Main results:

- Theorems `Tag.inline_of_parseName?`, `Throws.clean_of_parse?` and
  `ParamEntry.admits_of_ofText?`: the fields that the readers of tags give.
- Definition `Record.Clean`: the rules for all fields of a record.
- Theorem `Record.clean_ofComment`: the record of every comment keeps them.
-/

namespace DocComment

/-! ## Texts that readers cut out -/

/-- What comes after a fixed text is made of characters of the text. -/
theorem Text.mem_of_after? {lead text rest : Text} (h : after? lead text = some rest) {c : Char}
    (hc : c ∈ rest) : c ∈ text := by
  rw [after?_eq_some_iff.mp h]
  exact List.mem_append_right lead hc

/-- What comes before a fixed text is made of characters of the text. -/
theorem Text.mem_of_before? {tail text rest : Text} (h : before? tail text = some rest) {c : Char}
    (hc : c ∈ rest) : c ∈ text := by
  rw [before?_eq_some_iff.mp h]
  exact List.mem_append_left tail hc

/-- The text between braces stands in the text that was read. -/
theorem Tag.mem_of_braces? {text type rest : Text} (h : braces? text = some (type, rest))
    {c : Char} (hc : c ∈ type) : c ∈ text := by
  unfold braces? at h
  split at h
  · rename_i inner hinner
    split at h
    · contradiction
    · cases h
      have hmem : c ∈ Text.trimStart text := by
        rw [hinner]
        exact List.mem_cons_of_mem _ ((List.takeWhile_prefix _).subset hc)
      exact (List.dropWhile_suffix Text.isBlank).subset hmem
  · contradiction

/-! ## Names -/

/-- The name in a name tag is trimmed and stands on one line. -/
theorem Tag.inline_of_parseName? {line name : Text} (h : parseName? line = some name) :
    name.Inline := by
  simp only [parseName?, Option.bind_eq_bind, Option.bind_eq_some_iff] at h
  obtain ⟨text, _, rest, hrest, h⟩ := h
  obtain ⟨_, hline, hstart⟩ := Text.remainder?_eq_some hrest
  split at h
  · contradiction
  · cases h
    refine ⟨Text.trimmed_trimEnd hstart, ?_⟩
    intro hmem
    exact hline (Text.mem_of_mem_trimEnd hmem)

/-! ## Documented errors -/

namespace Throws

/-- A documented error says something, and so does each part that is given. -/
structure Clean (error : Throws) : Prop where
  given : error.type.isSome = true ∨ error.description.isSome = true
  filled : ∀ text, error.type = some text ∨ error.description = some text → text.Filled

/-- What a throws tag on one line gives is clean. -/
theorem clean_of_parse? {line : Text} {error : Throws} (h : parse? line = some error)
    (hline : '\n' ∉ line) : error.Clean := by
  simp only [parse?, Option.bind_eq_bind, Option.bind_eq_some_iff] at h
  obtain ⟨text, hafter, read, hread, h⟩ := h
  have htext : '\n' ∉ text := fun hmem => hline (Text.mem_of_after? hafter hmem)
  have hfilled : ∀ part, read.type = some part ∨ read.description = some part →
      part.Filled := by
    intro part hpart
    rcases Option.or_eq_some_iff.mp hread with htyped | ⟨_, huntyped⟩
    · simp only [typed?, Option.bind_eq_bind, Option.bind_eq_some_iff, Option.pure_def,
        Option.some.injEq] at htyped
      obtain ⟨⟨type, rest⟩, hbraces, description, hrest, rfl⟩ := htyped
      cases hpart with
      | inl htype =>
          apply Text.filled_of_field? htype
          intro hmem
          exact htext (Tag.mem_of_braces? hbraces hmem)
      | inr hdescription =>
          exact Text.filled_of_field? hdescription (Text.remainder?_eq_some hrest).2.1
    · obtain ⟨description, hrest, rfl⟩ := Option.map_eq_some_iff.mp huntyped
      cases hpart with
      | inl htype => cases htype
      | inr hdescription =>
          exact Text.filled_of_field? hdescription (Text.remainder?_eq_some hrest).2.1
  split at h
  · contradiction
  · rename_i hgiven
    cases h
    refine ⟨?_, hfilled⟩
    cases htype : error.type with
    | some type => exact .inl rfl
    | none =>
        right
        rw [Option.isSome_iff_ne_none]
        simpa [isEmpty, htype] using hgiven

end Throws

/-! ## Types -/

namespace TypeName

/-- The texts of the names with a meaning of their own. -/
def knownTexts : List Text :=
  [string.text, number.text, boolean.text, array.text, object.text]

/-- A name of its own has the text that was read, which is none of the known
ones. -/
theorem ofLower_eq_custom {text name : Text} (h : ofLower text = .custom name) :
    name = text ∧ name ∉ knownTexts := by
  unfold ofLower at h
  split at h
  · cases h
  rename_i hstring
  split at h
  · cases h
  rename_i hnumber
  split at h
  · cases h
  rename_i hboolean
  split at h
  · cases h
  rename_i harray
  split at h
  · cases h
  rename_i hobject
  cases h
  refine ⟨rfl, ?_⟩
  rw [knownTexts, List.mem_cons, List.mem_cons, List.mem_cons, List.mem_cons, List.mem_singleton,
    not_or, not_or, not_or, not_or]
  exact ⟨hstring, hnumber, hboolean, harray, hobject⟩

end TypeName

namespace TypeExpr

/-- The element text of an array spelling stands in the spelling. -/
theorem mem_of_elementText? {text element : Text} (h : elementText? text = some element) {c : Char}
    (hc : c ∈ element) : c ∈ text := by
  unfold elementText? at h
  split at h
  · rename_i inner hinner
    cases h
    exact Text.mem_of_before? hinner hc
  · unfold genericElement? at h
    split at h
    · contradiction
    · rename_i rest hrest
      split at h
      · contradiction
      · rename_i inner hinner
        split at h
        · contradiction
        · cases h
          have hmem : c ∈ rest := Text.mem_of_before? hinner (Text.mem_of_mem_trim hc)
          rcases Option.or_eq_some_iff.mp hrest with hplain | ⟨_, hdot⟩
          · exact Text.mem_of_after? hplain hmem
          · exact Text.mem_of_after? hdot hmem

end TypeExpr

/-! ## Parameter entries -/

/-- Names of their own say something and are not among the known ones, and
descriptions are trimmed texts on one line. -/
def cleanWords : Vocabulary where
  name := fun name => ∀ text, name = .custom text → text.Filled ∧ text ∉ TypeName.knownTexts
  description := Text.Inline
  name_string := nofun
  name_array := nofun
  name_object := nofun
  description_nil := ⟨Text.trimmed_nil, by simp⟩

/-- The names in a type on one line are clean. -/
theorem TypeExpr.over_cleanWords {raw : Text} (hline : '\n' ∉ raw)
    (hblank : Text.allBlank raw = false) : (TypeExpr.parse raw).Over cleanWords.name := by
  apply TypeExpr.over_parse fun raw => '\n' ∉ raw ∧ Text.allBlank raw = false
  · exact ⟨hline, hblank⟩
  · intro raw element hraw helement hblank
    refine ⟨?_, hblank⟩
    intro hmem
    exact hraw.1 (Text.mem_of_mem_trim (TypeExpr.mem_of_elementText? helement hmem))
  · intro raw hraw text hcustom
    obtain ⟨heq, hknown⟩ := TypeName.ofLower_eq_custom hcustom
    have htrim := Text.filled_trim hraw.1 hraw.2
    refine ⟨?_, hknown⟩
    rw [heq]
    exact ⟨Text.lower_ne_nil htrim.ne_nil, htrim.inline.lower⟩

/-- The words of an entry that was read from one line are clean. -/
theorem ParamEntry.admits_of_ofText? {text : Text} {entry : ParamEntry}
    (h : ParamEntry.ofText? text = some entry) (hline : '\n' ∉ text) : cleanWords.Admits entry := by
  simp only [ParamEntry.ofText?, Option.bind_eq_bind, Option.bind_eq_some_iff, Option.pure_def,
    Option.some.injEq] at h
  obtain ⟨⟨token, rest⟩, _, path, _, description, hrest, rfl⟩ := h
  constructor
  · intro type htype
    obtain ⟨raw, hraw, rfl⟩ := Option.map_eq_some_iff.mp htype
    obtain ⟨written, hwritten, hfield⟩ := Option.bind_eq_some_iff.mp hraw
    have hmem : '\n' ∉ written := by
      unfold typePart at hwritten
      split at hwritten
      · rename_i hbraces
        split at hwritten
        · cases hwritten
          intro hmem
          exact hline (Tag.mem_of_braces? hbraces hmem)
        · contradiction
      · contradiction
    have hfilled := Text.filled_of_field? hfield hmem
    apply TypeExpr.over_cleanWords hfilled.inline.one_line
    exact hfilled.inline.trimmed.allBlank_eq_false hfilled.ne_nil
  · obtain ⟨_, hdescription, hstart⟩ := Text.remainder?_eq_some hrest
    refine ⟨Text.trimmed_trimEnd hstart, ?_⟩
    intro hmem
    exact hdescription (Text.mem_of_mem_trimEnd hmem)

/-! ## Records -/

namespace Record

/-- The fields of a record are clean.  Every text is trimmed and stands on one
line, but the description, which is a list of paragraphs; and what may be left
out is not empty when it is there. -/
structure Clean (record : Record) : Prop where
  name : record.name.Inline
  description : ∃ paras : List Text, record.description = ['\n', '\n'].intercalate paras ∧
    ∀ para ∈ paras, para.Filled
  descriptions : ∀ root ∈ record.params, ∀ node, root.Within node → node.description.Inline
  types : ∀ root ∈ record.params, ∀ node, root.Within node →
    ∀ text, node.type = .custom text → text.Filled ∧ text ∉ TypeName.knownTexts
  throws : ∀ error, record.throws = some error → error.Clean

/-- The record of every comment has clean fields. -/
theorem clean_ofComment (raw : Text) : (ofComment raw).Clean := by
  have hrecord : ofComment raw = ofSections (Comment.Sections.ofLines (Comment.lines raw)) := rfl
  have htags : ∀ tag ∈ (Comment.Sections.ofLines (Comment.lines raw)).tags, '\n' ∉ tag :=
    fun tag => Comment.notMem_of_mem_tags
  have hprose : ∀ line ∈ (Comment.Sections.ofLines (Comment.lines raw)).prose, '\n' ∉ line :=
    fun line hline => (Comment.inline_of_mem_prose hline).one_line
  generalize Comment.Sections.ofLines (Comment.lines raw) = sections at hrecord htags hprose
  rw [ofSections_eq] at hrecord
  have hname : ∀ name, (sections.tags.filterMap Tag.nameOf?).head? = some name → name.Inline := by
    intro name hname
    obtain ⟨tag, _, htag⟩ := List.mem_filterMap.mp (List.mem_of_mem_head? hname)
    exact Tag.inline_of_parseName? (Tag.of_nameOf? htag).2
  have hheading := Comment.Heading.clean_ofProse hprose hname
  have hentries : ∀ entry ∈ sections.tags.filterMap Tag.entryOf?, cleanWords.Admits entry := by
    intro entry hentry
    obtain ⟨tag, hmem, htag⟩ := List.mem_filterMap.mp hentry
    obtain ⟨text, hafter, htext⟩ := Tag.exists_ofText?_of_entryOf? htag
    apply ParamEntry.admits_of_ofText? htext
    intro hline
    exact htags tag hmem (Text.mem_of_after? hafter hline)
  rw [hrecord]
  constructor
  · exact hheading.name
  · exact hheading.description
  · intro root hroot node hnode
    exact (Vocabulary.of_within_forest hentries hroot hnode).2
  · intro root hroot node hnode
    exact (Vocabulary.of_within_forest hentries hroot hnode).1
  · intro error herror
    obtain ⟨tag, hmem, htag⟩ := List.mem_filterMap.mp (List.mem_of_mem_head? herror)
    exact Throws.clean_of_parse? (Tag.of_throwsOf? htag).2 (htags tag hmem)

end Record
end DocComment
