import DocComment.Proofs.Param.Key
import DocComment.Proofs.Tag.Layout
import DocComment.Proofs.Types.Spelling
import DocComment.Tag.Basic

/-!
# Tag lines

The line that a parameter entry or a documented error is written on, and the
proof that reading the line gives back what was written.

Main results:

- Theorem `FieldPath.parse?_text`: the text of a path is read as the path.
- Theorem `Tag.parse?_paramLine`: the line of an entry is read as the entry.
- Theorem `Tag.parse?_throwsLine`: the line of a documented error is read as the
  error.
-/

namespace DocComment

/-! ## Paths -/

/-- The characters of a step are those of its name, and brackets. -/
theorem Step.mem_text {step : Step} {c : Char} (h : c ∈ step.text) :
    c ∈ step.name ∨ c ∈ brackets := by
  unfold Step.text at h
  split at h
  · exact List.mem_append.mp h
  · exact .inl h

/-- The text of a step holds neither a blank nor a point. -/
theorem Step.plain_of_mem_text {step : Step} (hname : Text.isIdentifier step.name = true)
    {c : Char} (hc : c ∈ step.text) : Text.isBlank c = false ∧ c ≠ '.' := by
  rcases Step.mem_text hc with hmem | hmem
  · have hpart := Text.isIdentPart_of_mem hname hmem
    refine ⟨Text.isBlank_of_isIdentPart hpart, ?_⟩
    rintro rfl
    exact absurd hpart (by decide)
  · simp only [brackets, List.mem_cons, List.not_mem_nil, or_false] at hmem
    rcases hmem with rfl | rfl <;> decide

/-- The text of a step is read as the step. -/
theorem Step.parse?_text {step : Step} (hname : Text.isIdentifier step.name = true) :
    Step.parse? step.text = some step := by
  rcases step with ⟨name, marked⟩
  cases marked with
  | true =>
      have hbefore : Text.before? brackets (name ++ brackets) = some name :=
        Text.before?_eq_some_iff.mpr rfl
      simp only [Step.text, if_true, Step.parse?, hbefore]
      rw [if_pos hname]
  | false =>
      -- No identifier ends in brackets.
      have hbefore : Text.before? brackets name = none := by
        cases hrest : Text.before? brackets name with
        | none => rfl
        | some rest =>
            have hmem : ']' ∈ name := by
              rw [Text.before?_eq_some_iff.mp hrest]
              simp [brackets]
            exact absurd (Text.isIdentPart_of_mem hname hmem) (by decide)
      simp only [Step.text, Bool.false_eq_true, if_false, Step.parse?, hbefore]
      rw [if_pos hname]

namespace FieldPath

/-- The texts of steps are read as the steps. -/
theorem mapM_parse?_text {path : FieldPath} (hpath : path.Named) :
    (path.map Step.text).mapM Step.parse? = some path := by
  induction path with
  | nil => rfl
  | cons step rest ih =>
      have hrest : FieldPath.Named rest := fun step' hmem =>
        hpath step' (List.mem_cons_of_mem _ hmem)
      rw [List.map_cons, List.mapM_cons, Step.parse?_text (hpath step List.mem_cons_self),
        ih hrest]
      rfl

/-- The text of a path is read as the path. -/
theorem parse?_text {path : FieldPath} (hne : path ≠ []) (hpath : path.Named) :
    parse? (text path) = some path := by
  have hpoint : ∀ word ∈ path.map Step.text, '.' ∉ word := by
    intro word hword hmem
    rcases List.mem_map.mp hword with ⟨step, hstep, rfl⟩
    exact (Step.plain_of_mem_text (hpath step hstep) hmem).2 rfl
  rw [parse?, text, List.splitOn_intercalate '.' hpoint (by simpa using hne)]
  exact mapM_parse?_text hpath

/-- The text of a path starts with the name of its first step. -/
theorem exists_text_cons (step : Step) (rest : FieldPath) :
    ∃ more, text (step :: rest) = step.name ++ more := by
  have hstep : ∃ more, step.text = step.name ++ more := by
    unfold Step.text
    split
    · exact ⟨brackets, rfl⟩
    · exact ⟨[], by simp⟩
  rcases hstep with ⟨more, hmore⟩
  cases rest with
  | nil => exact ⟨more, by simp [text, hmore]⟩
  | cons next rest =>
      exact ⟨more ++ '.' :: text (next :: rest), by simp [text, hmore, List.intercalate_cons_cons]⟩

/-- The text of a path holds no blank. -/
theorem isBlank_of_mem_text {path : FieldPath} (hpath : path.Named) {c : Char}
    (hc : c ∈ text path) : Text.isBlank c = false := by
  induction path with
  | nil => simp [text] at hc
  | cons step rest ih =>
      have hrest : FieldPath.Named rest := fun step' hmem =>
        hpath step' (List.mem_cons_of_mem _ hmem)
      have hstep := hpath step List.mem_cons_self
      cases rest with
      | nil =>
          have hmem : c ∈ step.text := by simpa [text] using hc
          exact (Step.plain_of_mem_text hstep hmem).1
      | cons next rest =>
          have hmem : c ∈ step.text ∨ c = '.' ∨ c ∈ text (next :: rest) := by
            simpa [text, List.intercalate_cons_cons] using hc
          rcases hmem with hmem | rfl | hmem
          · exact (Step.plain_of_mem_text hstep hmem).1
          · decide
          · exact ih hrest hmem

/-- The text of a path with a step starts with the first character of an
identifier. -/
theorem exists_text_eq_cons {path : FieldPath} (hne : path ≠ []) (hpath : path.Named) :
    ∃ c more, text path = c :: more ∧ Text.isIdentPart c = true := by
  rcases List.exists_cons_of_ne_nil hne with ⟨step, rest, rfl⟩
  have hname := hpath step List.mem_cons_self
  rcases List.exists_cons_of_ne_nil (Text.ne_nil_of_isIdentifier hname) with ⟨c, name, hcons⟩
  rcases exists_text_cons step rest with ⟨more, hmore⟩
  refine ⟨c, name ++ more, by rw [hmore, hcons]; rfl, ?_⟩
  exact Text.isIdentPart_of_mem hname (by rw [hcons]; exact List.mem_cons_self)

end FieldPath

/-! ## Parts of a tag -/

namespace Tag

/-- A type in braces with a space before them. -/
def braced (type : Text) : Text :=
  ' ' :: '\x7b' :: (type ++ ['\x7d'])

/-- Braces are read back together with what follows them. -/
theorem braces?_braced {type : Text} (h : '\x7d' ∉ type) (rest : Text) :
    braces? (braced type ++ rest) = some (type, rest) :=
  braces?_eq_some_iff.mpr ⟨[' '], by simp [braced], by decide, h⟩

/-- A type in braces may end a clean line. -/
theorem inline_append_braced {first type : Text} (h : first.Inline) (hne : first ≠ [])
    (hline : '\n' ∉ type) : (first ++ braced type).Inline := by
  refine ⟨?_, by simp [braced, h.one_line, hline]⟩
  have hclose : Text.Trimmed ['\x7d'] := by decide
  simpa [braced] using h.trimmed.append_append hne hclose (by simp) (' ' :: '\x7b' :: type)

/-- The letters after the at sign are the label when no letter follows them. -/
theorem label?_append {letters rest : Text} (hne : letters ≠ [])
    (hletters : letters.all Text.isLetter = true)
    (hrest : ∀ c ∈ rest.head?, Text.isLetter c = false) :
    label? ('@' :: (letters ++ rest)) = some letters := by
  rw [label?, Text.takeWhile_append_eq (List.all_eq_true.mp hletters) hrest, if_neg hne]

theorem isLetter_space : Text.isLetter ' ' = false := by
  decide

/-! ## Labels with a grammar -/

section Labels

variable {line : Text}

/-- A line with the label of a name is read as one. -/
theorem parse?_of_name (h : label? line = some "name".toList) :
    parse? line = (parseName? line).map .name := by
  rw [parse?, h, Option.bind_eq_bind, Option.bind_some, if_pos rfl]

/-- A line with the label of an entry is read as one. -/
theorem parse?_of_param (h : label? line = some "param".toList) :
    parse? line = (ParamEntry.parse? line).map .param := by
  rw [parse?, h, Option.bind_eq_bind, Option.bind_some, if_neg (by decide), if_pos rfl]

/-- A line with the label of a documented error is read as one. -/
theorem parse?_of_throws (h : label? line = some "throws".toList) :
    parse? line = (Throws.parse? line).map .throws := by
  rw [parse?, h, Option.bind_eq_bind, Option.bind_some, if_neg (by decide), if_neg (by decide),
    if_pos rfl]

end Labels
end Tag

/-! ## Parameter entries -/

namespace ParamEntry

/-- The entry can be written on a line. -/
structure Writable (entry : ParamEntry) : Prop where
  path_ne_nil : entry.path ≠ []
  named : entry.path.Named
  spelled : ∀ type, entry.type = some type → type.Spelled
  inline : entry.description.Inline

/-- The part of the line before the path. -/
def typeText (entry : ParamEntry) : Text :=
  match entry.type with
  | some type => Tag.braced type.text
  | none => []

/-- The path and the description, each after a space. -/
def fieldText (entry : ParamEntry) : Text :=
  Text.spaced entry.path.text ++ Text.spaced entry.description

/-- The line of an entry. -/
def line (entry : ParamEntry) : Text :=
  "@param".toList ++ (entry.typeText ++ entry.fieldText)

variable {entry : ParamEntry}

/-- The text after the type of an entry is a space, the path and the description. -/
theorem Writable.fieldText_eq (h : entry.Writable) :
    entry.fieldText = ' ' :: (entry.path.text ++ Text.spaced entry.description) := by
  rcases FieldPath.exists_text_eq_cons h.path_ne_nil h.named with ⟨c, more, hcons, _⟩
  simp [fieldText, Text.spaced, hcons]

theorem Writable.trimStart_fieldText (h : entry.Writable) :
    Text.trimStart entry.fieldText = entry.path.text ++ Text.spaced entry.description := by
  rcases FieldPath.exists_text_eq_cons h.path_ne_nil h.named with ⟨c, more, hcons, hpart⟩
  rw [h.fieldText_eq, Text.trimStart_space, hcons]
  simp [Text.trimStart, Text.isBlank_of_isIdentPart hpart]

/-- Only a type in braces is taken for the type part. -/
theorem Writable.typePart_eq (h : entry.Writable) :
    typePart (entry.typeText ++ entry.fieldText) =
      (entry.type.map TypeExpr.text, entry.fieldText) := by
  unfold typeText typePart
  cases htype : entry.type with
  | some type =>
      have hbraces := Tag.braces?_braced (h.spelled type htype).no_brace entry.fieldText
      have hblank : Tag.startsBlank entry.fieldText = true := by
        rw [h.fieldText_eq]
        exact Text.isBlank_space
      simp only [hbraces, hblank, if_true, Option.map_some]
  | none =>
      have hbraces : Tag.braces? entry.fieldText = none := by
        rcases FieldPath.exists_text_eq_cons h.path_ne_nil h.named with ⟨c, more, hcons, hpart⟩
        have hbrace : c ≠ '\x7b' := by
          rintro rfl
          exact absurd hpart (by decide)
        rw [Tag.braces?, h.trimStart_fieldText, hcons]
        simp [hbrace]
      simp only [List.nil_append, hbraces, Option.map_none]

/-- The word after the type part is the text of the path. -/
theorem Writable.word?_eq (h : entry.Writable) :
    Tag.word? entry.fieldText = some (entry.path.text, Text.spaced entry.description) := by
  have hne : entry.path.text ≠ [] := by
    rcases FieldPath.exists_text_eq_cons h.path_ne_nil h.named with ⟨c, more, hcons, _⟩
    simp [hcons]
  have hstop : ∀ c ∈ (Text.spaced entry.description).head?, Text.isBlank c = true := by
    intro c hc
    unfold Text.spaced at hc
    split at hc
    · simp at hc
    · cases hc
      decide
  exact (Tag.word?_eq_some_iff hne).mpr ⟨[' '], h.fieldText_eq, by simp, by decide,
    fun c hc => FieldPath.isBlank_of_mem_text h.named hc, hstop⟩

/-- The line of an entry is read as the entry. -/
theorem Writable.parse?_line (h : entry.Writable) : parse? entry.line = some entry := by
  have htype : ((entry.type.map TypeExpr.text).bind Text.field?).map TypeExpr.parse =
      entry.type := by
    cases htype : entry.type with
    | none => rfl
    | some type =>
        have hspelled := h.spelled type htype
        simp [hspelled.inline.trimmed.field?_eq hspelled.ne_nil, hspelled.parse_text]
  have hafter : Text.after? "@param".toList entry.line =
      some (entry.typeText ++ entry.fieldText) :=
    Text.after?_eq_some_iff.mpr rfl
  rw [parse?, hafter, Option.bind_some, ofText?, h.typePart_eq]
  simp only [h.word?_eq, FieldPath.parse?_text h.path_ne_nil h.named,
    h.inline.remainder?_spaced, htype, h.inline.trimmed.trimEnd_eq, Option.bind_eq_bind,
    Option.bind_some, Option.pure_def]

theorem Writable.head?_rest (h : entry.Writable) :
    (entry.typeText ++ entry.fieldText).head? = some ' ' := by
  unfold typeText
  cases entry.type with
  | some type => rfl
  | none =>
      rw [List.nil_append, h.fieldText_eq]
      rfl

theorem Writable.inline_line (h : entry.Writable) : entry.line.Inline := by
  have hlabel : Text.Inline "@param".toList := by decide
  have hpath : entry.path.text.Inline :=
    Text.inline_of_forall_not_blank fun c hc => FieldPath.isBlank_of_mem_text h.named hc
  have htyped : Text.Inline ("@param".toList ++ entry.typeText) := by
    unfold typeText
    cases htype : entry.type with
    | some type =>
        exact Tag.inline_append_braced hlabel (by decide) (h.spelled type htype).inline.one_line
    | none => simpa using hlabel
  have hline : entry.line = "@param".toList ++ entry.typeText ++ Text.spaced entry.path.text ++
      Text.spaced entry.description := by
    unfold line fieldText
    rw [List.append_assoc, List.append_assoc]
  rw [hline]
  exact (htyped.append_spaced (by simp) hpath).append_spaced (by simp) h.inline

end ParamEntry

/-- The line of an entry is read as the entry. -/
theorem Tag.parse?_paramLine {entry : ParamEntry} (h : entry.Writable) :
    Tag.parse? entry.line = some (.param entry) := by
  have hlabel : Tag.label? entry.line = some "param".toList := by
    refine Tag.label?_append (by decide) (by decide) ?_
    intro c hc
    rw [h.head?_rest] at hc
    cases hc
    exact Tag.isLetter_space
  rw [Tag.parse?_of_param hlabel, h.parse?_line]
  rfl

/-! ## Documented errors -/

namespace Throws

/-- The documented error can be written on a line: it says something, and each
part that is given is a text on one line. -/
structure Writable (throws : Throws) : Prop where
  some_part : throws.type.isSome = true ∨ throws.description.isSome = true
  type : ∀ type, throws.type = some type → type ≠ [] ∧ type.Inline ∧ '\x7d' ∉ type
  description : ∀ description, throws.description = some description →
    description ≠ [] ∧ description.Inline

/-- The text of the description. -/
def descriptionText (throws : Throws) : Text :=
  throws.description.getD []

/-- The part of the line before the description.  Empty braces keep a description
that starts with a brace from being read as a type. -/
def typeText (throws : Throws) : Text :=
  match throws.type with
  | some type => Tag.braced type
  | none => if throws.descriptionText.head? = some '\x7b' then Tag.braced [] else []

/-- The line of a documented error. -/
def line (throws : Throws) : Text :=
  "@throws".toList ++ (throws.typeText ++ Text.spaced throws.descriptionText)

variable {throws : Throws}

theorem Writable.inline_descriptionText (h : throws.Writable) : throws.descriptionText.Inline := by
  unfold descriptionText
  cases hdescription : throws.description with
  | none => exact Text.inline_nil
  | some description => exact (h.description description hdescription).2

/-- The text of a description is read back. -/
theorem Writable.field?_descriptionText (h : throws.Writable) :
    Text.field? throws.descriptionText = throws.description := by
  unfold descriptionText
  cases hdescription : throws.description with
  | none => rfl
  | some description =>
      rcases h.description description hdescription with ⟨hne, hinline⟩
      exact hinline.trimmed.field?_eq hne

/-- Braces before a description are read as the type. -/
theorem Writable.typed?_braced (h : throws.Writable) {type : Text} (hbrace : '\x7d' ∉ type) :
    typed? (Tag.braced type ++ Text.spaced throws.descriptionText) =
      some ⟨Text.field? type, throws.description⟩ := by
  simp [typed?, Tag.braces?_braced hbrace, h.inline_descriptionText.remainder?_spaced,
    h.field?_descriptionText]

/-- A description that does not start with a brace is read without a type. -/
theorem Writable.typed?_spaced (h : throws.Writable)
    (hhead : throws.descriptionText.head? ≠ some '\x7b') :
    typed? (Text.spaced throws.descriptionText) = none := by
  have hbraces : Tag.braces? (Text.spaced throws.descriptionText) = none := by
    rw [Tag.braces?, h.inline_descriptionText.trimmed.trimStart_spaced]
    cases hcons : throws.descriptionText with
    | nil => rfl
    | cons c rest =>
        have hbrace : c ≠ '\x7b' := by
          rintro rfl
          exact hhead (by rw [hcons]; rfl)
        simp [hbrace]
  rw [typed?, hbraces]
  rfl

/-- The text after the tag is read as the documented error. -/
theorem Writable.typed?_or_untyped?_eq (h : throws.Writable) :
    (typed? (throws.typeText ++ Text.spaced throws.descriptionText)).or
        (untyped? (throws.typeText ++ Text.spaced throws.descriptionText)) = some throws := by
  rcases throws with ⟨type, description⟩
  cases type with
  | some type =>
      rcases h.type type rfl with ⟨hne, hinline, hbrace⟩
      have htyped := h.typed?_braced hbrace
      rw [hinline.trimmed.field?_eq hne] at htyped
      simp only [typeText, htyped, Option.some_or]
  | none =>
      simp only [typeText]
      split
      · simp only [h.typed?_braced List.not_mem_nil, Option.some_or]
        rfl
      · rename_i hhead
        simp only [List.nil_append, h.typed?_spaced hhead, Option.none_or, untyped?,
          h.inline_descriptionText.remainder?_spaced, Option.map_some, h.field?_descriptionText]

/-- The line of a documented error is read as the error. -/
theorem Writable.parse?_line (h : throws.Writable) : parse? throws.line = some throws := by
  have hafter : Text.after? "@throws".toList throws.line =
      some (throws.typeText ++ Text.spaced throws.descriptionText) :=
    Text.after?_eq_some_iff.mpr rfl
  have hsays : throws.isEmpty = false := by
    rw [isEmpty, Bool.and_eq_false_iff, Option.isNone_eq_false_iff, Option.isNone_eq_false_iff]
    exact h.some_part
  simp only [parse?, hafter, h.typed?_or_untyped?_eq, hsays, Option.bind_eq_bind, Option.bind_some,
    Bool.false_eq_true, if_false]

theorem head?_rest {c : Char}
    (hc : c ∈ (throws.typeText ++ Text.spaced throws.descriptionText).head?) : c = ' ' := by
  have hspaced : ∀ d ∈ (Text.spaced throws.descriptionText).head?, d = ' ' := by
    intro d hd
    unfold Text.spaced at hd
    split at hd
    · simp at hd
    · simpa using hd.symm
  unfold typeText at hc
  split at hc
  · simpa [Tag.braced] using hc.symm
  · split at hc
    · simpa [Tag.braced] using hc.symm
    · exact hspaced c (by simpa using hc)

theorem Writable.inline_line (h : throws.Writable) : throws.line.Inline := by
  have hlabel : Text.Inline "@throws".toList := by decide
  have htyped : Text.Inline ("@throws".toList ++ throws.typeText) := by
    unfold typeText
    cases htype : throws.type with
    | some type =>
        exact Tag.inline_append_braced hlabel (by decide) (h.type type htype).2.1.one_line
    | none =>
        simp only
        split
        · exact Tag.inline_append_braced hlabel (by decide) (by simp)
        · simpa using hlabel
  have hline : throws.line =
      "@throws".toList ++ throws.typeText ++ Text.spaced throws.descriptionText := by
    unfold line
    rw [List.append_assoc]
  rw [hline]
  exact htyped.append_spaced (by simp) h.inline_descriptionText

end Throws

/-- The line of a documented error is read as the error. -/
theorem Tag.parse?_throwsLine {throws : Throws} (h : throws.Writable) :
    Tag.parse? throws.line = some (.throws throws) := by
  have hlabel : Tag.label? throws.line = some "throws".toList := by
    refine Tag.label?_append (by decide) (by decide) ?_
    intro c hc
    rw [Throws.head?_rest hc]
    exact Tag.isLetter_space
  rw [Tag.parse?_of_throws hlabel, h.parse?_line]
  rfl

end DocComment
