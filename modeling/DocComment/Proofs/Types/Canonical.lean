import DocComment.Proofs.Text.Field
import DocComment.Proofs.Types.Spelling

/-!
# Types in their canonical form

However a type is written, what is read from it is in one form: its names are in
lower case and known by their meaning, the bare name of arrays is an array, and no
array has an element without a name.  The plain spelling of a type that was read is
read as the same type, so reading settles the spelling once and for all.

Main results:

- Definition `TypeExpr.ReadFrom`: how a type was read from a text.
- Theorem `TypeExpr.elementText?_lower`: a name in lower case is no array spelling
  unless it was one before.
- Theorem `TypeExpr.parse_text_of_parse`: the plain spelling of a type that was read
  is read back.
- Theorem `TypeExpr.parse_canonical`: the form of every type that is read.
-/

namespace DocComment

/-- The text of a type name is the lower case of what it was read from. -/
theorem TypeName.text_ofText (text : Text) : (ofText text).text = Text.lower text :=
  text_ofLower _

/-- A name is read from its text again. -/
theorem TypeName.ofText_text_ofText (text : Text) : ofText (ofText text).text = ofText text := by
  rw [text_ofText, ofText, Text.lower_lower, ofText]

/-- A name that is read from its text has the text of no known name, unless it is
known. -/
theorem TypeName.text_ne_of_isKnown {name known : TypeName} (h : ofText name.text = name)
    (hknown : known.isKnown = true) (hname : name.isKnown = false) : name.text ≠ known.text := by
  intro htext
  rw [htext, ofText_text hknown] at h
  rw [← h, hknown] at hname
  contradiction

namespace TypeExpr

/-! ## How a type was read -/

/-- How a type was read from a text: as a name, as an array of unspecified elements,
or as an array with an element text that is not blank. -/
inductive ReadFrom (raw : Text) : TypeExpr → Prop
  | named (hplain : elementText? (Text.trim raw) = none)
      (hname : TypeName.ofText (Text.trim raw) ≠ .array) :
      ReadFrom raw (.named (TypeName.ofText (Text.trim raw)))
  | anyArray : ReadFrom raw .anyArray
  | arrayOf {element : Text} (hfilled : Text.allBlank element = false) :
      ReadFrom raw (.arrayOf (parse element))

/-- Every name but that of arrays stands for itself. -/
theorem ofName_eq_named {name : TypeName} (h : name ≠ .array) : ofName name = .named name := by
  cases name with
  | array => contradiction
  | _ => rfl

/-- A type that was read is read from its text. -/
theorem readFrom_of_parse {raw : Text} {type : TypeExpr} (h : parse raw = type) :
    ReadFrom raw type := by
  rw [← h]
  cases helement : elementText? (Text.trim raw) with
  | some element =>
      rw [parse_of_element helement]
      split
      · exact .anyArray
      · rename_i hfilled
        exact .arrayOf (by simpa using hfilled)
  | none =>
      rw [parse_of_no_element helement]
      by_cases hname : TypeName.ofText (Text.trim raw) = .array
      · rw [hname]
        exact .anyArray
      · rw [ofName_eq_named hname]
        exact .named helement hname

/-! ## Names in lower case -/

/-- A name in lower case does not end with brackets unless it did before. -/
theorem before?_brackets_lower {text : Text} (h : Text.before? ['[', ']'] text = none) :
    Text.before? ['[', ']'] (Text.lower text) = none := by
  rw [Option.eq_none_iff_forall_ne_some]
  intro rest hrest
  have hsuffix : ['[', ']'] <:+ Text.lower text := ⟨rest, (Text.before?_eq_some_iff.mp hrest).symm⟩
  have hbrackets : ∀ d ∈ ['[', ']'], d.toNat ∈ Text.unreachedCodes := by
    intro d hd
    simp only [List.mem_cons, List.not_mem_nil, or_false] at hd
    rcases hd with rfl | rfl <;> decide
  obtain ⟨front, hfront⟩ := Text.suffix_of_suffix_lower hbrackets hsuffix
  rw [Text.before?_eq_some_iff.mpr hfront.symm] at h
  cases h

/-- The generic spellings start with a capital letter, so no name in lower case is
one. -/
theorem genericElement?_lower (text : Text) : genericElement? (Text.lower text) = none := by
  have hcapital : 'A' ∉ Text.lower text := by
    intro hmem
    exact absurd (Text.settled_of_mem_lower hmem [] []) (by decide +kernel)
  have hopening : ∀ opening : Text, Text.after? ('A' :: opening) (Text.lower text) = none := by
    intro opening
    rw [Option.eq_none_iff_forall_ne_some]
    intro rest hrest
    rw [Text.after?_eq_some_iff] at hrest
    exact hcapital (by rw [hrest]; exact List.mem_cons_self)
  have hnone : (Text.after? "Array<".toList (Text.lower text)).or
      (Text.after? "Array.<".toList (Text.lower text)) = none :=
    Option.or_eq_none_iff.mpr ⟨hopening "rray<".toList, hopening "rray.<".toList⟩
  simp only [genericElement?, hnone]

/-- A name in lower case is no array spelling unless it was one before. -/
theorem elementText?_lower {text : Text} (h : elementText? text = none) :
    elementText? (Text.lower text) = none := by
  unfold elementText? at h
  split at h
  · contradiction
  · rename_i hbrackets
    rw [elementText?, before?_brackets_lower hbrackets]
    exact genericElement?_lower text

/-! ## Reading back -/

/-- The text of a name that was read is read back. -/
theorem parse_text_named {raw : Text} (hplain : elementText? (Text.trim raw) = none)
    (hname : TypeName.ofText (Text.trim raw) ≠ .array) :
    Text.Trimmed (TypeName.ofText (Text.trim raw)).text ∧
      parse (TypeName.ofText (Text.trim raw)).text = .named (TypeName.ofText (Text.trim raw)) := by
  have htrimmed : Text.Trimmed (TypeName.ofText (Text.trim raw)).text := by
    rw [TypeName.text_ofText]
    exact (Text.trimmed_trim raw).lower
  have hnone : elementText? (Text.trim (TypeName.ofText (Text.trim raw)).text) = none := by
    rw [htrimmed.trim_eq, TypeName.text_ofText]
    exact elementText?_lower hplain
  refine ⟨htrimmed, ?_⟩
  rw [parse_of_no_element hnone, htrimmed.trim_eq, TypeName.ofText_text_ofText,
    ofName_eq_named hname]

/-- What is read from a text that is not blank has a spelling. -/
theorem text_parse_ne_nil {raw : Text} (h : Text.allBlank raw = false) : (parse raw).text ≠ [] := by
  generalize htype : parse raw = type
  cases readFrom_of_parse htype with
  | named hplain hname =>
      rw [text, TypeName.text_ofText]
      exact Text.lower_ne_nil (Text.trim_ne_nil h)
  | anyArray => decide
  | arrayOf hfilled => simp [text]

/-- The plain spelling of a type that was read is read back.  The induction is on the
type: the elements of an array that was read were read as well. -/
theorem parse_text_of_parse {type : TypeExpr} (h : ∃ raw, parse raw = type) :
    Text.Trimmed type.text ∧ parse type.text = type := by
  induction type with
  | named name =>
      obtain ⟨raw, hraw⟩ := h
      cases readFrom_of_parse hraw with
      | named hplain hname => exact parse_text_named hplain hname
  | anyArray => exact ⟨by decide, parse_text_of_isKnown rfl⟩
  | arrayOf element ih =>
      obtain ⟨raw, hraw⟩ := h
      cases readFrom_of_parse hraw with
      | @arrayOf elementText hfilled =>
          obtain ⟨htrimmed, hparse⟩ := ih ⟨elementText, rfl⟩
          exact parse_text_arrayOf htrimmed (text_parse_ne_nil hfilled) hparse

/-! ## The parts of a type -/

/-- The type expressions that a type is made of, from the outside to the inside. -/
def parts : TypeExpr → List TypeExpr
  | .named name => [.named name]
  | .anyArray => [.anyArray]
  | .arrayOf element => .arrayOf element :: element.parts

/-- Each part of a type that was read was read from a text of its own. -/
theorem exists_parse_eq_of_mem_parts {type part : TypeExpr} (h : ∃ raw, parse raw = type)
    (hpart : part ∈ type.parts) : ∃ raw, parse raw = part := by
  induction type with
  | named name =>
      rw [parts, List.mem_singleton] at hpart
      rw [hpart]
      exact h
  | anyArray =>
      rw [parts, List.mem_singleton] at hpart
      rw [hpart]
      exact h
  | arrayOf element ih =>
      rw [parts, List.mem_cons] at hpart
      rcases hpart with rfl | hpart
      · exact h
      · obtain ⟨raw, hraw⟩ := h
        cases readFrom_of_parse hraw with
        | @arrayOf elementText hfilled => exact ih ⟨elementText, rfl⟩ hpart

/-- The form of every type that is read.  Its plain spelling is read as the same type.
Whatever part of it is a name is not that of arrays, is read from its own text again,
and has none of the known texts unless it is known; and no array has an element
without a name. -/
theorem parse_canonical (raw : Text) :
    parse (parse raw).text = parse raw ∧
      .named .array ∉ (parse raw).parts ∧
      .arrayOf (.named (.custom [])) ∉ (parse raw).parts ∧
      (∀ name, .named name ∈ (parse raw).parts → TypeName.ofText name.text = name) ∧
      ∀ text, .named (.custom text) ∈ (parse raw).parts →
        ∀ known : TypeName, known.isKnown = true → text ≠ known.text := by
  have hname : ∀ name, .named name ∈ (parse raw).parts →
      name ≠ .array ∧ TypeName.ofText name.text = name := by
    intro name hmem
    obtain ⟨text, htext⟩ := exists_parse_eq_of_mem_parts ⟨raw, rfl⟩ hmem
    cases readFrom_of_parse htext with
    | named hplain hne => exact ⟨hne, TypeName.ofText_text_ofText _⟩
  refine ⟨(parse_text_of_parse ⟨raw, rfl⟩).2, ?_, ?_, fun name hmem => (hname name hmem).2, ?_⟩
  · intro hmem
    exact (hname .array hmem).1 rfl
  · intro hmem
    obtain ⟨text, htext⟩ := exists_parse_eq_of_mem_parts ⟨raw, rfl⟩ hmem
    generalize helement : named (.custom []) = element at htext
    cases readFrom_of_parse htext with
    | arrayOf hfilled =>
        apply text_parse_ne_nil hfilled
        rw [← helement]
        rfl
  · intro text hmem known hknown
    exact TypeName.text_ne_of_isKnown (hname _ hmem).2 hknown rfl

/-- An array of arrays whose element name ends with a capital sigma. -/
def sigmaType : Text :=
  "Array.<\nΣΟΦΌΣ[] >".toList

theorem parse_canonical_sigmaType :
    parse sigmaType = .arrayOf (.arrayOf (.named (.custom "σοφός".toList))) ∧
      parse "σοφός[][]".toList = parse sigmaType ∧
      TypeName.ofText "σοφός".toList = .custom "σοφός".toList ∧
      "σοφός".toList ≠ TypeName.array.text := by
  have hname : parse "ΣΟΦΌΣ".toList = .named (.custom "σοφός".toList) :=
    (parse_of_no_element (by decide)).trans (by decide +kernel)
  have hinner : elementText? (Text.trim "ΣΟΦΌΣ[]".toList) = some "ΣΟΦΌΣ".toList := by decide
  have houter : elementText? (Text.trim sigmaType) = some "ΣΟΦΌΣ[]".toList := by decide
  have hparse : parse sigmaType = .arrayOf (.arrayOf (.named (.custom "σοφός".toList))) := by
    rw [parse_of_element houter, parse_of_element hinner, hname]
    rfl
  obtain ⟨hback, _, _, hnames, hknown⟩ := parse_canonical sigmaType
  rw [hparse] at hback hnames hknown ⊢
  exact ⟨rfl, hback, hnames (.custom "σοφός".toList) (by decide),
    hknown "σοφός".toList (by decide) .array rfl⟩

end TypeExpr
end DocComment
