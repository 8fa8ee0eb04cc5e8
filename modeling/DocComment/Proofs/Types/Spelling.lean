import DocComment.Proofs.Text.Lowered
import DocComment.Types.Expr

/-!
# Spelling types

A type expression is written as a name with a pair of brackets for each array
level.  The written form of every expression over known names is read back as
the expression; a name of its own has to be one that is read as itself.

Main results:

- Theorem `TypeName.ofText_text`: the known names are read back.
- Definition `TypeExpr.Spelled`: the plain spelling of an expression can stand
  between braces and is read back.
- Theorems `TypeExpr.spelled_ofName` and `TypeExpr.Spelled.arrayOf`: names and
  arrays of spelled expressions are spelled.
-/

namespace DocComment

/-! ## Texts in lower case -/

namespace Text

/-- A small letter of the ASCII alphabet. -/
def isSmall (c : Char) : Bool :=
  decide ('a' ≤ c) && decide (c ≤ 'z')

/-- No run of capital letters reaches into the small letters. -/
theorem lowerRuns_apart : ∀ run ∈ lowerRuns, run.last < 0x61 ∨ 0x7A < run.first := by
  decide +kernel

theorem toNat_of_isSmall {c : Char} (h : isSmall c = true) : 0x61 ≤ c.toNat ∧ c.toNat ≤ 0x7A := by
  simpa [isSmall, Char.le_def, UInt32.le_iff_toNat_le] using h

theorem settled_of_isSmall {c : Char} (h : isSmall c = true) : Settled c := by
  have hcode := toNat_of_isSmall h
  refine settled_of_lowerChar (lowerChar_eq_self ?_) ?_
  · intro run hrun hcovers
    have hapart := lowerRuns_apart run hrun
    have hinside := CaseRun.le_of_covers hcovers
    omega
  · rintro rfl
    exact absurd h (by decide)

/-- A text of small letters is in lower case. -/
theorem lower_of_isSmall {text : Text} (h : text.all isSmall = true) : lower text = text :=
  lower_of_settled fun c hc => settled_of_isSmall (List.all_eq_true.mp h c hc)

end Text

/-! ## Names -/

namespace TypeName

/-- A name with a meaning of its own. -/
def isKnown : TypeName → Bool
  | .custom _ => false
  | _ => true

/-- The known types are spelled in small letters. -/
theorem all_isSmall_text {name : TypeName} (h : name.isKnown = true) :
    name.text.all Text.isSmall = true := by
  cases name with
  | custom name => contradiction
  | _ => decide

/-- The known names are read back. -/
theorem ofText_text {name : TypeName} (h : name.isKnown = true) : ofText name.text = name := by
  rw [ofText, Text.lower_of_isSmall (all_isSmall_text h)]
  cases name with
  | custom name => contradiction
  | _ => decide

end TypeName

/-! ## Expressions -/

namespace TypeExpr

/-- A text with an element is read as an array. -/
theorem parse_of_element {raw element : Text} (h : elementText? (Text.trim raw) = some element) :
    parse raw = if Text.allBlank element then .anyArray else .arrayOf (parse element) := by
  rw [parse]
  split
  · rename_i element' helement'
    rw [h] at helement'
    cases helement'
    rfl
  · rename_i hnone
    rw [h] at hnone
    contradiction

/-- A text without an element is read as a name. -/
theorem parse_of_no_element {raw : Text} (h : elementText? (Text.trim raw) = none) :
    parse raw = ofName (TypeName.ofText (Text.trim raw)) := by
  rw [parse]
  split
  · rename_i element helement
    rw [h] at helement
    contradiction
  · rfl

/-- The plain spelling of the expression can stand between braces on one line,
and it is read back. -/
structure Spelled (type : TypeExpr) : Prop where
  ne_nil : type.text ≠ []
  inline : type.text.Inline
  no_brace : '\x7d' ∉ type.text
  parse_text : parse type.text = type

/-- A known type is read back from its text. -/
theorem parse_text_of_isKnown {name : TypeName} (h : name.isKnown = true) :
    parse name.text = ofName name := by
  have hplain : Text.trim name.text = name.text ∧ elementText? name.text = none := by
    cases name with
    | custom name => contradiction
    | _ => decide
  have hnone : elementText? (Text.trim name.text) = none := by
    rw [hplain.1]
    exact hplain.2
  rw [parse_of_no_element hnone, hplain.1, TypeName.ofText_text h]

/-- The expression of a known name is spelled, and so is that of every other
name which is. -/
theorem spelled_ofName {name : TypeName}
    (h : ∀ text, name = .custom text → Spelled (.named (.custom text))) :
    Spelled (ofName name) := by
  cases name with
  | custom text => exact h text rfl
  | string => exact ⟨by decide, by decide, by decide, parse_text_of_isKnown rfl⟩
  | number => exact ⟨by decide, by decide, by decide, parse_text_of_isKnown rfl⟩
  | boolean => exact ⟨by decide, by decide, by decide, parse_text_of_isKnown rfl⟩
  | array => exact ⟨by decide, by decide, by decide, parse_text_of_isKnown rfl⟩
  | object => exact ⟨by decide, by decide, by decide, parse_text_of_isKnown rfl⟩

/-- The spelling of an array is read back when that of its elements is. -/
theorem parse_text_arrayOf {element : TypeExpr} (htrimmed : Text.Trimmed element.text)
    (hne : element.text ≠ []) (hparse : parse element.text = element) :
    Text.Trimmed (arrayOf element).text ∧ parse (arrayOf element).text = .arrayOf element := by
  have hbrackets : Text.Trimmed ['[', ']'] := by decide
  have htrim : Text.Trimmed (element.text ++ ['[', ']']) := by
    simpa using htrimmed.append_append hne hbrackets (by simp) []
  have helement : elementText? (Text.trim (element.text ++ ['[', ']'])) = some element.text := by
    rw [htrim.trim_eq, elementText?, Text.before?_eq_some_iff.mpr rfl]
  refine ⟨htrim, ?_⟩
  rw [text, parse_of_element helement, htrimmed.allBlank_eq_false hne, hparse]
  rfl

/-- An array of spelled elements is spelled. -/
theorem Spelled.arrayOf {element : TypeExpr} (h : element.Spelled) :
    Spelled (.arrayOf element) := by
  obtain ⟨htrimmed, hparse⟩ := parse_text_arrayOf h.inline.trimmed h.ne_nil h.parse_text
  exact ⟨by simp [text], ⟨htrimmed, by simp [text, h.inline.one_line]⟩, by simp [text, h.no_brace],
    hparse⟩

end TypeExpr
end DocComment
