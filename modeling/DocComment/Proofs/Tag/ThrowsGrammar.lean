import DocComment.Proofs.Param.LineGrammar

/-!
# The grammar of throws lines

A throws line gives a type in braces, a description, or both.  The reading with a
type goes first.  It is given up when the closing brace is followed by something
else than the end of the line or a blank, and when the description runs over the end
of the line; then the braces are part of the description.  So a line is read in one
way at most, and what is read holds all of its text.

Main results:

- Definition `Throws.ReadsAs`: how a line falls into its parts.
- Theorem `Throws.parse?_eq_ofParts?`: the parts of a line give the documented error.
- Theorem `Throws.parse?_eq_groups`: so do the groups of the pattern.
- Theorem `Throws.parse?_grammar`: both ways to read a line, and the tags that are
  documented errors.
-/

namespace DocComment
namespace Throws

/-! ## The parts of a line -/

/-- A run of blanks, at least one and as long as it goes, and a description on one
line. -/
def Spaced (text description : Text) : Prop :=
  ∃ gap, text = gap ++ description ∧ gap ≠ [] ∧ Text.allBlank gap = true ∧
    (∀ c ∈ description.head?, Text.isBlank c = false) ∧ '\n' ∉ description

/-- A type in braces up to the first closing brace, and after it the end of the line
or a description behind blanks. -/
def Typed (text type description : Text) : Prop :=
  ∃ blanks rest, text = blanks ++ '\x7b' :: (type ++ '\x7d' :: rest) ∧
    Text.allBlank blanks = true ∧ '\x7d' ∉ type ∧
    (rest = [] ∧ description = [] ∨ Spaced rest description)

/-- The text after the tag falls into a type in braces, which may be left out, and a
description.  Braces belong to the description only if they are no type. -/
inductive Parts (text : Text) : Option Text → Text → Prop
  | typed {type description : Text} (htyped : Typed text type description) :
      Parts text (some type) description
  | untyped {description : Text} (hnone : ∀ type description, ¬ Typed text type description)
      (hspaced : Spaced text description) : Parts text none description

/-- A line falls into the tag and its parts. -/
def ReadsAs (line : Text) (type : Option Text) (description : Text) : Prop :=
  ∃ text, line = "@throws".toList ++ text ∧ Parts text type description

/-- What the parts of a line say.  Parts that are both empty say nothing. -/
def ofParts? (type : Option Text) (description : Text) : Option Throws :=
  if (⟨type.bind Text.field?, Text.field? description⟩ : Throws).isEmpty then none
  else some ⟨type.bind Text.field?, Text.field? description⟩

/-! ## Reading by parts -/

/-- The remainder of a line is empty or a description behind blanks. -/
theorem remainder?_eq_some_iff_spaced {text description : Text} :
    Text.remainder? text = some description ↔
      text = [] ∧ description = [] ∨ Spaced text description := by
  rw [Text.remainder?_eq_some_iff]
  constructor
  · rintro ⟨gap, htext, hgap, hempty, hstart, hline⟩
    by_cases hnil : gap = []
    · left
      rw [htext, hnil, hempty hnil]
      exact ⟨rfl, rfl⟩
    · right
      exact ⟨gap, htext, hnil, hgap, hstart, hline⟩
  · rintro (⟨rfl, rfl⟩ | ⟨gap, htext, hne, hgap, hstart, hline⟩)
    · exact ⟨[], rfl, rfl, fun _ => rfl, by simp, by simp⟩
    · exact ⟨gap, htext, hgap, fun hnil => absurd hnil hne, hstart, hline⟩

/-- A text is typed when the readers of braces and remainders take it. -/
theorem typed_iff {text type description : Text} :
    Typed text type description ↔
      ∃ rest, Tag.braces? text = some (type, rest) ∧ Text.remainder? rest = some description := by
  constructor
  · rintro ⟨blanks, rest, htext, hblanks, hclose, hrest⟩
    exact ⟨rest, Tag.braces?_eq_some_iff.mpr ⟨blanks, htext, hblanks, hclose⟩,
      remainder?_eq_some_iff_spaced.mpr hrest⟩
  · rintro ⟨rest, hbraces, hrest⟩
    obtain ⟨blanks, htext, hblanks, hclose⟩ := Tag.braces?_eq_some_iff.mp hbraces
    exact ⟨blanks, rest, htext, hblanks, hclose, remainder?_eq_some_iff_spaced.mp hrest⟩

/-- A typed text is read as its type and its description. -/
theorem Typed.typed?_eq {text type description : Text} (h : Typed text type description) :
    typed? text = some ⟨Text.field? type, Text.field? description⟩ := by
  obtain ⟨rest, hbraces, hrest⟩ := typed_iff.mp h
  simp only [typed?, hbraces, hrest, Option.bind_eq_bind, Option.bind_some, Option.pure_def]

/-- A text that is not typed is not read so. -/
theorem typed?_eq_none {text : Text} (h : ∀ type description, ¬ Typed text type description) :
    typed? text = none := by
  rw [Option.eq_none_iff_forall_ne_some]
  intro throws hthrows
  simp only [typed?, Option.bind_eq_bind, Option.bind_eq_some_iff] at hthrows
  obtain ⟨⟨type, rest⟩, hbraces, description, hrest, _⟩ := hthrows
  exact h type description (typed_iff.mpr ⟨rest, hbraces, hrest⟩)

/-- A text is typed in one way at most. -/
theorem Typed.unique {text type type' description description' : Text}
    (h : Typed text type description) (h' : Typed text type' description') :
    type = type' ∧ description = description' := by
  obtain ⟨rest, hbraces, hrest⟩ := typed_iff.mp h
  obtain ⟨rest', hbraces', hrest'⟩ := typed_iff.mp h'
  rw [hbraces] at hbraces'
  cases hbraces'
  rw [hrest] at hrest'
  cases hrest'
  exact ⟨rfl, rfl⟩

/-- A text has one description at most. -/
theorem Spaced.unique {text description description' : Text} (h : Spaced text description)
    (h' : Spaced text description') : description = description' := by
  have hrest := remainder?_eq_some_iff_spaced.mpr (.inr h)
  rw [remainder?_eq_some_iff_spaced.mpr (.inr h')] at hrest
  cases hrest
  rfl

/-- The parts of a line give the documented error. -/
theorem parse?_eq_ofParts? {line description : Text} {type : Option Text}
    (h : ReadsAs line type description) : parse? line = ofParts? type description := by
  obtain ⟨text, hline, hparts⟩ := h
  cases hparts with
  | typed htyped =>
      simp only [parse?, Text.after?_eq_some_iff.mpr hline, htyped.typed?_eq, Option.some_or,
        Option.bind_eq_bind, Option.bind_some, ofParts?]
  | untyped hnone hspaced =>
      have hrest := remainder?_eq_some_iff_spaced.mpr (.inr hspaced)
      simp only [parse?, Text.after?_eq_some_iff.mpr hline, typed?_eq_none hnone, Option.none_or,
        untyped?, hrest, Option.map_some, Option.bind_eq_bind, Option.bind_some, Option.bind_none,
        ofParts?]

/-- A line that says something falls into parts. -/
theorem exists_readsAs {line : Text} {throws : Throws} (h : parse? line = some throws) :
    ∃ type description, ReadsAs line type description := by
  simp only [parse?, Option.bind_eq_bind, Option.bind_eq_some_iff] at h
  obtain ⟨text, htext, read, hread, hthrows⟩ := h
  have hline := Text.after?_eq_some_iff.mp htext
  by_cases htyped : ∃ type description, Typed text type description
  · obtain ⟨type, description, htyped⟩ := htyped
    exact ⟨some type, description, text, hline, .typed htyped⟩
  · have hnone : ∀ type description, ¬ Typed text type description :=
      fun type description h => htyped ⟨type, description, h⟩
    rw [typed?_eq_none hnone, Option.none_or, untyped?, Option.map_eq_some_iff] at hread
    obtain ⟨description, hrest, rfl⟩ := hread
    rcases remainder?_eq_some_iff_spaced.mp hrest with ⟨_, rfl⟩ | hspaced
    · contradiction
    · exact ⟨none, description, text, hline, .untyped hnone hspaced⟩

/-- A text falls into its parts in one way at most. -/
theorem Parts.unique {text description description' : Text} {type type' : Option Text}
    (h : Parts text type description) (h' : Parts text type' description') :
    type = type' ∧ description = description' := by
  cases h with
  | typed htyped =>
      cases h' with
      | typed htyped' =>
          obtain ⟨rfl, rfl⟩ := htyped.unique htyped'
          exact ⟨rfl, rfl⟩
      | untyped hnone' _ => exact absurd htyped (hnone' _ _)
  | untyped hnone hspaced =>
      cases h' with
      | typed htyped' => exact absurd htyped' (hnone _ _)
      | untyped _ hspaced' => exact ⟨rfl, hspaced.unique hspaced'⟩

/-- A line falls into its parts in one way at most. -/
theorem ReadsAs.unique {line description description' : Text} {type type' : Option Text}
    (h : ReadsAs line type description) (h' : ReadsAs line type' description') :
    type = type' ∧ description = description' := by
  obtain ⟨text, rfl, hparts⟩ := h
  obtain ⟨text', hline, hparts'⟩ := h'
  cases List.append_cancel_left hline
  exact hparts.unique hparts'

/-! ## Reading by the pattern -/

/-- The pattern of a throws line.  The type is group 1 and the description group 2. -/
def linePattern : Pattern :=
  .sequence [.literal "@throws".toList, .maybe Tag.bracesPattern, Tag.remainderPattern 2]

/-- The documented error that the groups of a line give. -/
def ofGroups? (groups : Pattern.Groups) : Option Throws :=
  if (⟨(groups.lookup 1).bind Text.field?, (groups.lookup 2).bind Text.field?⟩ : Throws).isEmpty
  then none
  else some ⟨(groups.lookup 1).bind Text.field?, (groups.lookup 2).bind Text.field?⟩

section Matching

open Pattern

/-- The groups of a line say what its parts say. -/
theorem ofGroups?_of_lookup {groups : Groups} {type : Option Text} {description : Text}
    (htype : groups.lookup 1 = type)
    (hdescription : (groups.lookup 2).bind Text.field? = Text.field? description) :
    ofGroups? groups = ofParts? type description := by
  rw [ofGroups?, htype, hdescription, ofParts?]

/-- After the type part, the groups give what the remainder of the line gives. -/
theorem bind_ofGroups? (type : Option Text) (text : Text) :
    ((Tag.remainderPattern 2).matchThen (ParamEntry.typeGroups type) text atEnd).bind ofGroups? =
      (Text.remainder? text).bind (ofParts? type) := by
  have htype : (ParamEntry.typeGroups type).lookup 1 = type ∧
      (ParamEntry.typeGroups type).lookup 2 = none := by
    cases type with
    | none => exact ⟨rfl, rfl⟩
    | some type => exact ⟨rfl, rfl⟩
  rw [Tag.matchThen_remainderPattern, Option.bind_map]
  cases hremainder : Text.remainder? text with
  | none => rfl
  | some description =>
      simp only [Option.bind_some, Function.comp_apply]
      split
      · rename_i hnil
        rw [hnil] at hremainder
        cases hremainder
        refine ofGroups?_of_lookup htype.1 ?_
        rw [htype.2]
        rfl
      · exact ofGroups?_of_lookup htype.1 rfl

/-- A documented error is what the groups of the pattern give. -/
theorem parse?_eq_groups (line : Text) :
    parse? line = (linePattern.groups? line).bind ofGroups? := by
  have hgroups : linePattern.groups? line =
      (Text.after? "@throws".toList line).bind fun text =>
        ((Tag.braces? text).bind fun parts =>
          (Tag.remainderPattern 2).matchThen (ParamEntry.typeGroups (some parts.1)) parts.2
            atEnd).or
        ((Tag.remainderPattern 2).matchThen (ParamEntry.typeGroups none) text atEnd) := by
    rw [groups?, linePattern, matchThen_sequence_cons, matchThen_literal]
    congr 1
    funext text
    rw [matchThen_sequence_cons, matchThen, Tag.matchThen_bracesPattern]
    rfl
  rw [hgroups, parse?, Option.bind_assoc]
  congr 1
  funext text
  have huntyped : ((untyped? text).bind fun throws =>
        if throws.isEmpty then none else some throws) =
      ((Tag.remainderPattern 2).matchThen (ParamEntry.typeGroups none) text atEnd).bind
        ofGroups? := by
    rw [bind_ofGroups?, untyped?, Option.bind_map]
    rfl
  cases hbraces : Tag.braces? text with
  | none => simpa [typed?, hbraces] using huntyped
  | some parts =>
      have htyped := bind_ofGroups? (some parts.1) parts.2
      simp only [Option.bind_some]
      cases hrest : Text.remainder? parts.2 with
      | none =>
          have hmatch : (Tag.remainderPattern 2).matchThen (ParamEntry.typeGroups (some parts.1))
              parts.2 atEnd = none := by
            rw [Tag.matchThen_remainderPattern, hrest, Option.map_none]
          rw [hmatch, Option.none_or]
          simpa [typed?, hbraces, hrest] using huntyped
      | some description =>
          -- The typed reading matches, and no other one is tried.
          rw [hrest, Tag.matchThen_remainderPattern, hrest, Option.map_some] at htyped
          rw [Tag.matchThen_remainderPattern, hrest, Option.map_some, Option.some_or, htyped]
          simp [typed?, hbraces, hrest, ofParts?]

end Matching

/-! ## Throws lines among the tags -/

theorem Parts.isLetter_head? {text description : Text} {type : Option Text}
    (h : Parts text type description) : ∀ c ∈ text.head?, Text.isLetter c = false := by
  cases h with
  | typed htyped =>
      obtain ⟨blanks, rest, rfl, hblanks, _⟩ := htyped
      refine Text.isLetter_of_mem_head?_append hblanks ?_
      intro _ c hc
      cases hc
      decide
  | untyped _ hspaced =>
      obtain ⟨gap, rfl, hne, hgap, _⟩ := hspaced
      exact Text.isLetter_of_mem_head?_append hgap fun hnil => absurd hnil hne

/-- A line that falls into the parts of a documented error has its label. -/
theorem ReadsAs.label?_eq {line description : Text} {type : Option Text}
    (h : ReadsAs line type description) : Tag.label? line = some "throws".toList := by
  obtain ⟨text, rfl, hparts⟩ := h
  exact Tag.label?_append (by decide) (by decide) hparts.isLetter_head?

end Throws

/-- The throws tags are the lines that are read as documented errors. -/
theorem Tag.parse?_eq_throws_iff {line : Text} {throws : Throws} :
    Tag.parse? line = some (.throws throws) ↔ Throws.parse? line = some throws := by
  constructor
  · intro h
    cases Tag.reads_of_parse? h with
    | throws _ hparse => exact hparse
  · intro h
    obtain ⟨type, description, hreads⟩ := Throws.exists_readsAs h
    rw [Tag.parse?_of_throws hreads.label?_eq, h]
    rfl

/-- The grammar of throws lines.  The parts of a line give the documented error, a
line without parts gives none, and no line falls into parts in two ways.  The first
match of the pattern gives the same.  The throws tags are the lines with this
grammar. -/
theorem Throws.parse?_grammar :
    (∀ (line description : Text) (type : Option Text), ReadsAs line type description →
      parse? line = ofParts? type description) ∧
    (∀ line : Text, (∀ type description, ¬ ReadsAs line type description) →
      parse? line = none) ∧
    (∀ (line description description' : Text) (type type' : Option Text),
      ReadsAs line type description → ReadsAs line type' description' →
        type = type' ∧ description = description') ∧
    (∀ line : Text, parse? line = (linePattern.groups? line).bind ofGroups?) ∧
    ∀ (line : Text) (throws : Throws),
      Tag.parse? line = some (.throws throws) ↔ parse? line = some throws := by
  refine ⟨?_, ?_, ?_, parse?_eq_groups, fun line throws => Tag.parse?_eq_throws_iff⟩
  · intro line description type h
    exact parse?_eq_ofParts? h
  · intro line hnone
    rw [Option.eq_none_iff_forall_ne_some]
    intro throws hthrows
    obtain ⟨type, description, hreads⟩ := exists_readsAs hthrows
    exact hnone type description hreads
  · intro line description description' type type' h h'
    exact h.unique h'

/-- The text after the tag of a line whose braces go on as a word. -/
def Throws.gluedText : Text :=
  " \x7bEmpty\x7ds or \x7b".toList

theorem Throws.not_typed_gluedText (type description : Text) :
    ¬ Typed gluedText type description := by
  rw [typed_iff]
  rintro ⟨rest, hbraces, hrest⟩
  have hglued : Tag.braces? gluedText = some ("Empty".toList, "s or \x7b".toList) := by decide
  rw [hglued] at hbraces
  cases hbraces
  cases hrest

theorem Throws.parse?_grammar_gluedText :
    Tag.parse? ("@throws".toList ++ "\x7b E\n\x7d\u00a0 no \x7d row ".toList) =
      some (.throws ⟨some "E".toList, some "no \x7d row".toList⟩) ∧
    Tag.parse? ("@throws".toList ++ gluedText) =
      some (.throws ⟨none, some "\x7bEmpty\x7ds or \x7b".toList⟩) ∧
    parse? ("@throws".toList ++ "\x7bEmpty".toList) = none := by
  obtain ⟨hparts, hnone, _, _, htag⟩ := parse?_grammar
  refine ⟨?_, ?_, ?_⟩
  · have htyped : Typed "\x7b E\n\x7d\u00a0 no \x7d row ".toList " E\n".toList
        "no \x7d row ".toList :=
      typed_iff.mpr ⟨"\u00a0 no \x7d row ".toList, by decide, by decide⟩
    rw [htag, hparts _ _ _ ⟨_, rfl, .typed htyped⟩]
    decide
  · have hspaced : Spaced gluedText "\x7bEmpty\x7ds or \x7b".toList := by
      refine ⟨[' '], by decide, by decide, by decide, ?_, by decide⟩
      intro c hc
      cases hc
      decide
    rw [htag, hparts _ _ _ ⟨_, rfl, .untyped not_typed_gluedText hspaced⟩]
    decide
  · apply hnone
    rintro type description ⟨text, hline, hread⟩
    cases List.append_cancel_left hline
    cases hread with
    | typed htyped =>
        obtain ⟨rest, hbraces, _⟩ := typed_iff.mp htyped
        cases hbraces
    | untyped _ hspaced =>
        cases remainder?_eq_some_iff_spaced.mpr (.inr hspaced)

end DocComment
