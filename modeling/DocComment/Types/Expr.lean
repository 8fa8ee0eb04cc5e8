import DocComment.Text.Affix
import DocComment.Types.Name

/-!
# Type expressions

The type in the braces of a tag: a name, an array of unspecified
elements, or an array of a given element type.  An array is spelled with a
trailing pair of brackets or as a generic `Array`.
-/

namespace DocComment

/-- A type expression. -/
inductive TypeExpr where
  | named (name : TypeName)
  /-- An array whose elements are not described. -/
  | anyArray
  | arrayOf (element : TypeExpr)
deriving Repr, DecidableEq, Inhabited

namespace TypeExpr

/-! ## Spellings of arrays -/

/-- The element text of a generic spelling, `Array<X>` or `Array.<X>`: the text
between the angle brackets, trimmed, if it lies on one line. -/
def genericElement? (text : Text) : Option Text :=
  match (Text.after? "Array<".toList text).or (Text.after? "Array.<".toList text) with
  | none => none
  | some rest =>
    match Text.before? ['>'] rest with
    | none => none
    | some inner => if '\n' ∈ Text.trim inner then none else some (Text.trim inner)

/-- The element text of an array spelling.  Trailing brackets come before a
generic spelling. -/
def elementText? (text : Text) : Option Text :=
  match Text.before? ['[', ']'] text with
  | some element => some element
  | none => genericElement? text

/-- The element of a generic spelling is shorter than the spelling. -/
theorem length_genericElement?_lt {text element : Text} (h : genericElement? text = some element) :
    element.length < text.length := by
  unfold genericElement? at h
  split at h
  · contradiction
  · rename_i rest hrest
    have hlength : rest.length < text.length := by
      rcases Option.or_eq_some_iff.1 hrest with hplain | ⟨_, hdot⟩
      · rw [Text.after?_eq_some_iff.1 hplain]; simp; omega
      · rw [Text.after?_eq_some_iff.1 hdot]; simp; omega
    split at h
    · contradiction
    · rename_i inner hinner
      have hrest := Text.before?_eq_some_iff.1 hinner
      split at h
      · contradiction
      · have htrim := Text.length_trim_le inner
        simp only [Option.some.injEq] at h
        subst h
        subst hrest
        simp only [List.length_append, List.length_cons, List.length_nil] at hlength
        omega

/-- The element text of an array spelling is shorter than the spelling. -/
theorem length_elementText?_lt {text element : Text} (h : elementText? text = some element) :
    element.length < text.length := by
  unfold elementText? at h
  split at h
  · rename_i inner hinner
    simp only [Option.some.injEq] at h
    subst h
    rw [Text.before?_eq_some_iff.1 hinner]
    simp
  · exact length_genericElement?_lt h

/-! ## Reading and writing -/

/-- The type expression of a name.  The bare name of arrays leaves the elements
open. -/
def ofName : TypeName → TypeExpr
  | .array => .anyArray
  | name => .named name

/-- The type expression that a text spells.  An array spelling without an
element text leaves the elements open. -/
def parse (raw : Text) : TypeExpr :=
  match h : elementText? (Text.trim raw) with
  | some element =>
    have := Nat.lt_of_lt_of_le (length_elementText?_lt h) (Text.length_trim_le raw)
    if Text.allBlank element then .anyArray else .arrayOf (parse element)
  | none => ofName (TypeName.ofText (Text.trim raw))
termination_by raw.length

/-- The plain spelling of a type expression: a name and a pair of brackets for
each array level. -/
def text : TypeExpr → Text
  | .named name => name.text
  | .anyArray => TypeName.array.text
  | .arrayOf element => element.text ++ ['[', ']']

/-- A type expression for an array. -/
def isArray : TypeExpr → Bool
  | .named _ => false
  | .anyArray => true
  | .arrayOf _ => true

end TypeExpr
end DocComment
