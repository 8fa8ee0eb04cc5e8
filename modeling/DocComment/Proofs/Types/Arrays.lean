import Mathlib.Logic.Function.Iterate
import DocComment.Proofs.Text.Field
import DocComment.Proofs.Text.Pattern
import DocComment.Proofs.Types.Spelling

/-!
# The spellings of arrays

An array type is spelled with brackets after the element type, or as a generic
type in one of two forms.  All three are read alike, with the same element, however
the element is spelled.

Main results:

- Theorem `TypeExpr.parse_congr`: blanks around a type do not matter.
- Theorem `TypeExpr.genericElement?_eq_groups`: the element of a generic spelling is
  what the pattern of generic spellings keeps.
- Theorem `TypeExpr.parse_array_spellings`: the three spellings give the same type.
-/

namespace DocComment

namespace TypeExpr

/-! ## Reading -/

/-- Blanks around a type do not matter. -/
theorem parse_congr {raw raw' : Text} (h : Text.trim raw = Text.trim raw') :
    parse raw = parse raw' := by
  cases helement : elementText? (Text.trim raw) with
  | some element =>
      have helement' := helement
      rw [h] at helement'
      rw [parse_of_element helement, parse_of_element helement']
  | none =>
      have hnone := helement
      rw [h] at hnone
      rw [parse_of_no_element helement, parse_of_no_element hnone, h]

theorem parse_trim (raw : Text) : parse (Text.trim raw) = parse raw :=
  parse_congr (Text.trimmed_trim raw)

/-- The type of an array whose element is spelled by a text. -/
def ofElement (element : Text) : TypeExpr :=
  if Text.allBlank element then .anyArray else .arrayOf (parse element)

/-! ## The pattern of generic spellings -/

section Generic

open Pattern

/-- The pattern of a generic spelling.  The element is group 1, taken as short as
possible before the blanks at the end. -/
def genericPattern : Pattern :=
  .sequence [.literal "Array".toList, .maybe (.one (· == '.')), .one (· == '<'),
    .many Text.isBlank, .group 1 (.few (· != '\n')), .many Text.isBlank, .one (· == '>')]

/-- The end of a generic spelling: blanks and the closing bracket. -/
def endsGeneric (groups : Groups) (text : Text) : Option Groups :=
  (sequence [many Text.isBlank, one (· == '>')]).matchThen groups text atEnd

/-- A generic spelling ends where blanks and the closing bracket are left. -/
theorem endsGeneric_eq (groups : Groups) (text : Text) :
    endsGeneric groups text = if Text.trimStart text = ['>'] then some groups else none := by
  have hmany : endsGeneric groups text =
      (one (· == '>')).matchThen groups (Text.trimStart text) atEnd := by
    rw [endsGeneric, matchThen_sequence_cons, matchThen_many_of_stop]
    · rfl
    · intro groups c rest hc
      have hne : c ≠ '>' := by
        rintro rfl
        exact absurd hc (by decide)
      simp [matchThen, hne]
  rw [hmany]
  cases Text.trimStart text with
  | nil => rfl
  | cons c rest =>
      by_cases hc : c = '>'
      · simp [matchThen, atEnd, hc]
      · simp [matchThen, hc]

/-- A generic spelling ends here exactly when blanks and the bracket are left. -/
theorem endsGeneric_eq_some {groups : Groups} {blanks : Text} (h : Text.allBlank blanks = true) :
    endsGeneric groups (blanks ++ ['>']) = some groups := by
  rw [endsGeneric_eq, Text.trimStart_append_of_allBlank h, if_pos (by decide)]

/-- Before the end of a generic spelling stand blanks only. -/
theorem exists_of_endsGeneric_ne_none {groups : Groups} {text : Text}
    (h : endsGeneric groups text ≠ none) :
    ∃ blanks, text = blanks ++ ['>'] ∧ Text.allBlank blanks = true := by
  rw [endsGeneric_eq] at h
  split at h
  · rename_i htrim
    refine ⟨text.takeWhile Text.isBlank, ?_, List.all_takeWhile⟩
    rw [← htrim, Text.trimStart, List.takeWhile_append_dropWhile]
  · contradiction

/-- What the pattern keeps of the text after the opening bracket: what stands before
the closing bracket, without the blanks at its end. -/
theorem matchThen_group_few (groups : Groups) (text : Text) :
    (group 1 (few (· != '\n'))).matchThen groups text endsGeneric =
      (Text.before? ['>'] text).bind fun inner =>
        if '\n' ∈ Text.trimEnd inner then none
        else some ((1, Text.trimEnd inner) :: groups) := by
  rw [matchThen, matchThen]
  cases hclose : Text.before? ['>'] text with
  | none =>
      rw [Option.bind_none, fewThen_eq_none_iff]
      intro word rest htext _
      by_contra hends
      rcases exists_of_endsGeneric_ne_none hends with ⟨blanks, rfl, _⟩
      rw [← List.append_assoc, ← Text.before?_eq_some_iff, hclose] at htext
      contradiction
  | some inner =>
      have htext := Text.before?_eq_some_iff.mp hclose
      rw [Option.bind_some]
      split
      · rename_i hfeed
        rw [fewThen_eq_none_iff]
        intro word rest hsplit hword
        by_contra hends
        rcases exists_of_endsGeneric_ne_none hends with ⟨blanks, rfl, hblanks⟩
        -- The line feed would have to belong to the element.
        rw [htext, ← List.append_assoc, List.append_left_inj] at hsplit
        rw [hsplit, Text.trimEnd_append_of_allBlank word hblanks] at hfeed
        simpa using hword '\n' (Text.mem_of_mem_trimEnd hfeed)
      · rename_i hfeed
        rcases Text.exists_eq_trimEnd_append inner with ⟨blanks, hinner, hblanks⟩
        have hsplit : text = Text.trimEnd inner ++ (blanks ++ ['>']) := by
          rw [← List.append_assoc, ← hinner, htext]
        rw [hsplit]
        refine fewThen_of_first ?_ ?_ ?_
        · intro c hc
          rw [bne_iff_ne]
          rintro rfl
          exact hfeed hc
        · rw [take_length_sub]
          exact endsGeneric_eq_some hblanks
        · intro front back hback hne
          by_contra hends
          rcases exists_of_endsGeneric_ne_none hends with ⟨blanks', hrest, hblanks'⟩
          -- The element ends with a character that is not blank.
          rw [← List.append_assoc, List.append_left_inj] at hrest
          have hlast := Text.trimEnd_eq_self_iff.mp (Text.trimEnd_trimEnd inner)
          rw [hback, List.getLast?_append, List.getLast?_eq_some_getLast hne, Option.some_or]
            at hlast
          have hblank : Text.isBlank (back.getLast hne) = true := by
            refine List.all_eq_true.mp hblanks' _ ?_
            rw [← hrest]
            exact List.mem_append_left _ (List.getLast_mem hne)
          rw [hlast _ rfl] at hblank
          contradiction

/-- The text between the brackets of a generic spelling, when they close and the
element lies on one line. -/
def bracketed? (rest : Text) : Option Text :=
  (Text.before? ['>'] rest).bind fun inner =>
    if '\n' ∈ Text.trim inner then none else some (Text.trim inner)

/-- The closing bracket is taken off before or after the blanks at the start. -/
theorem before?_trimStart (rest : Text) :
    Text.before? ['>'] (Text.trimStart rest) = (Text.before? ['>'] rest).map Text.trimStart := by
  cases hclose : Text.before? ['>'] rest with
  | some inner =>
      rw [Text.before?_eq_some_iff.mp hclose, Text.trimStart_append_cons (by decide),
        Option.map_some, Text.before?_eq_some_iff]
  | none =>
      rw [Option.map_none, Option.eq_none_iff_forall_ne_some]
      intro inner hinner
      have hrest : rest = rest.takeWhile Text.isBlank ++ inner ++ ['>'] := by
        rw [List.append_assoc, ← Text.before?_eq_some_iff.mp hinner, Text.trimStart,
          List.takeWhile_append_dropWhile]
      rw [Text.before?_eq_some_iff.mpr hrest] at hclose
      contradiction

/-- The blanks before the element are taken as far as they go.  With fewer blanks
taken, the element would only grow. -/
theorem matchThen_element (groups : Groups) (rest : Text) :
    (many Text.isBlank).matchThen groups rest (fun groups rest =>
        (group 1 (few (· != '\n'))).matchThen groups rest endsGeneric) =
      (bracketed? rest).map fun element => (1, element) :: groups := by
  simp only [matchThen_group_few]
  rw [matchThen, manyThen_of_longest]
  · have hclose := before?_trimStart rest
    rw [Text.trimStart] at hclose
    rw [hclose, bracketed?]
    cases Text.before? ['>'] rest with
    | none => rfl
    | some inner =>
        rw [Option.map_some, Option.bind_some, Option.bind_some, Text.trim, apply_ite (Option.map _)]
        rfl
  · intro hnone front hfront
    cases hclose : Text.before? ['>'] (front ++ rest.dropWhile Text.isBlank) with
    | none => rfl
    | some inner =>
        have htext := Text.before?_eq_some_iff.mp hclose
        rcases List.eq_nil_or_concat (rest.dropWhile Text.isBlank) with hnil | ⟨body, c, hbody⟩
        · -- The closing bracket is no blank.
          rw [hnil, List.append_nil] at htext
          exact absurd (hfront '>' (by simp [htext])) (by decide)
        · rw [List.concat_eq_append] at hbody
          rw [hbody, ← List.append_assoc] at htext
          rcases List.append_inj' htext rfl with ⟨hinner, hc⟩
          rw [hbody, hc, Text.before?_eq_some_iff.mpr rfl, Option.bind_some] at hnone
          have hfeed : '\n' ∈ Text.trimEnd body := by simpa using hnone
          rw [Option.bind_some, ← hinner, Text.trimEnd_append (List.ne_nil_of_mem hfeed),
            if_pos (List.mem_append_right front hfeed)]

/-- The element of a generic spelling stands behind one of two openings. -/
theorem genericElement?_eq (text : Text) :
    genericElement? text =
      (Text.after? "Array".toList text).bind fun rest =>
        ((Text.after? ['<'] rest).or (Text.after? ['.', '<'] rest)).bind bracketed? := by
  have hplain : Text.after? "Array<".toList text =
      (Text.after? "Array".toList text).bind (Text.after? ['<']) :=
    Text.after?_append "Array".toList ['<'] text
  have hdotted : Text.after? "Array.<".toList text =
      (Text.after? "Array".toList text).bind (Text.after? ['.', '<']) :=
    Text.after?_append "Array".toList ['.', '<'] text
  have hbracketed : genericElement? text =
      ((Text.after? "Array<".toList text).or (Text.after? "Array.<".toList text)).bind
        bracketed? := by
    rw [genericElement?]
    cases (Text.after? "Array<".toList text).or (Text.after? "Array.<".toList text) with
    | none => rfl
    | some rest =>
        rw [Option.bind_some, bracketed?]
        cases hclose : Text.before? ['>'] rest with
        | none => simp only [hclose, Option.bind_none]
        | some inner => simp only [hclose, Option.bind_some]
  rw [hbracketed, hplain, hdotted]
  cases Text.after? "Array".toList text with
  | none => rfl
  | some rest => rfl

/-- The element of a generic spelling is what the pattern of generic spellings
keeps. -/
theorem genericElement?_eq_groups (text : Text) :
    genericElement? text = (genericPattern.groups? text).bind (List.lookup 1) := by
  -- Only one of the two forms can match: a point is no opening bracket.
  have hopen : ∀ rest : Text,
      (maybe (one (· == '.'))).matchThen [] rest (fun groups rest =>
          (one (· == '<')).matchThen groups rest fun groups rest =>
            (many Text.isBlank).matchThen groups rest fun groups rest =>
              (group 1 (few (· != '\n'))).matchThen groups rest endsGeneric) =
        ((Text.after? ['<'] rest).or (Text.after? ['.', '<'] rest)).bind fun rest =>
          (bracketed? rest).map fun element => [(1, element)] := by
    intro rest
    simp only [matchThen_element]
    cases rest with
    | nil => rfl
    | cons c rest =>
        by_cases hbracket : c = '<'
        · simp [matchThen, Text.after?, hbracket]
        · by_cases hpoint : c = '.'
          · cases rest with
            | nil => simp [matchThen, Text.after?, hpoint]
            | cons d rest =>
                by_cases hd : d = '<'
                · simp [matchThen, Text.after?, hpoint, hd]
                · simp [matchThen, Text.after?, hpoint, hd, Ne.symm hd]
          · simp [matchThen, Text.after?, hbracket, hpoint, Ne.symm hbracket, Ne.symm hpoint]
  have hmatch : genericPattern.groups? text =
      (Text.after? "Array".toList text).bind fun rest =>
        ((Text.after? ['<'] rest).or (Text.after? ['.', '<'] rest)).bind fun rest =>
          (bracketed? rest).map fun element => [(1, element)] := by
    rw [groups?, genericPattern, matchThen_sequence_cons, matchThen_literal]
    congr 1
    funext rest
    exact hopen rest
  rw [genericElement?_eq, hmatch, Option.bind_assoc]
  congr 1
  funext rest
  rw [Option.bind_assoc]
  congr 1
  funext rest
  cases bracketed? rest with
  | none => rfl
  | some element => rfl

end Generic

/-! ## The forms of an array -/

/-- The forms in which an array is spelled. -/
inductive ArrayForm where
  | brackets
  | generic
  /-- The generic form with a point before the angle bracket. -/
  | dotted
deriving Repr, DecidableEq

/-- What stands before the element. -/
def ArrayForm.opening : ArrayForm → Text
  | .brackets => []
  | .generic => "Array<".toList
  | .dotted => "Array.<".toList

/-- What stands after the element. -/
def ArrayForm.closing : ArrayForm → Text
  | .brackets => ['[', ']']
  | .generic => ['>']
  | .dotted => ['>']

/-- The spelling of an array around that of its element. -/
def ArrayForm.wrap (form : ArrayForm) (element : Text) : Text :=
  form.opening ++ element ++ form.closing

/-- The element of a generic spelling on one line is found, without its blanks. -/
theorem elementText?_of_closed {opening element : Text}
    (hopen : opening = "Array<".toList ∨ opening = "Array.<".toList) (h : '\n' ∉ element) :
    elementText? (Text.trim (opening ++ element ++ ['>'])) = some (Text.trim element) := by
  have htrim : Text.trim (opening ++ element ++ ['>']) = opening ++ element ++ ['>'] := by
    rcases hopen with rfl | rfl
    · exact Text.Trimmed.append_append (by decide) (by decide) (by decide) (by decide) element
    · exact Text.Trimmed.append_append (by decide) (by decide) (by decide) (by decide) element
  have hbrackets : Text.before? ['[', ']'] (opening ++ element ++ ['>']) = none := by
    simp [Text.before?, Text.after?]
  have hrest : (Text.after? "Array<".toList (opening ++ element ++ ['>'])).or
      (Text.after? "Array.<".toList (opening ++ element ++ ['>'])) = some (element ++ ['>']) := by
    rcases hopen with rfl | rfl
    · rfl
    · rfl
  have hline : '\n' ∉ Text.trim element := fun hmem => h (Text.mem_of_mem_trim hmem)
  simp only [htrim, elementText?, hbrackets, genericElement?, hrest,
    Text.before?_eq_some_iff.mpr rfl, if_neg hline]

/-- Every form hands on the element, up to the blanks around it. -/
theorem exists_elementText?_wrap (form : ArrayForm) {element : Text} (h : '\n' ∉ element) :
    ∃ inner, elementText? (Text.trim (form.wrap element)) = some inner ∧
      Text.trim inner = Text.trim element := by
  cases form with
  | brackets =>
      have htrim : Text.trim (element ++ ['[', ']']) = Text.trimStart element ++ ['[', ']'] := by
        have hlast := Text.trim_append_cons (c := ']') (by decide) (element ++ ['['])
        rwa [Text.trimStart_append_cons (by decide), List.append_assoc, List.append_assoc]
          at hlast
      refine ⟨Text.trimStart element, ?_, by rw [Text.trim, Text.trimStart_trimStart, Text.trim]⟩
      have hwrap : ArrayForm.brackets.wrap element = element ++ ['[', ']'] := rfl
      rw [hwrap, htrim, elementText?, Text.before?_eq_some_iff.mpr rfl]
  | generic =>
      exact ⟨Text.trim element, elementText?_of_closed (.inl rfl) h, Text.trimmed_trim element⟩
  | dotted =>
      exact ⟨Text.trim element, elementText?_of_closed (.inr rfl) h, Text.trimmed_trim element⟩

/-- Blanks around an element do not matter. -/
theorem ofElement_congr {element element' : Text} (h : Text.trim element = Text.trim element') :
    ofElement element = ofElement element' := by
  rw [ofElement, ofElement, ← Text.allBlank_trim element, h, Text.allBlank_trim, parse_congr h]

/-- An array is read alike in all forms. -/
theorem parse_wrap (form : ArrayForm) {element : Text} (h : '\n' ∉ element) :
    parse (form.wrap element) = ofElement element := by
  rcases exists_elementText?_wrap form h with ⟨inner, hinner, htrim⟩
  rw [parse_of_element hinner]
  exact ofElement_congr htrim

/-- The spelling of an array is not blank. -/
theorem allBlank_wrap (form : ArrayForm) (element : Text) :
    Text.allBlank (form.wrap element) = false := by
  have hclosing : form.closing.all Text.isBlank = false := by
    cases form with
    | brackets => decide
    | generic => decide
    | dotted => decide
  rw [Text.allBlank, ArrayForm.wrap, List.all_append, hclosing, Bool.and_false]

/-- The spelling of an array stays on the line of its element. -/
theorem newline_notMem_wrap (form : ArrayForm) {element : Text} (h : '\n' ∉ element) :
    '\n' ∉ form.wrap element := by
  have hends : '\n' ∉ form.opening ∧ '\n' ∉ form.closing := by
    cases form with
    | brackets => decide
    | generic => decide
    | dotted => decide
  simp [ArrayForm.wrap, h, hends]

/-- An array of arrays stands on one line and is not blank. -/
theorem foldr_wrap_spec (outer : List ArrayForm) (form : ArrayForm) {element : Text}
    (h : '\n' ∉ element) :
    '\n' ∉ outer.foldr ArrayForm.wrap (form.wrap element) ∧
      Text.allBlank (outer.foldr ArrayForm.wrap (form.wrap element)) = false := by
  induction outer with
  | nil => exact ⟨newline_notMem_wrap form h, allBlank_wrap form element⟩
  | cons first outer ih => exact ⟨newline_notMem_wrap first ih.1, allBlank_wrap first _⟩

/-- Arrays of arrays are read alike in any mixture of forms. -/
theorem parse_foldr_wrap (outer : List ArrayForm) (form : ArrayForm) {element : Text}
    (h : '\n' ∉ element) :
    parse (outer.foldr ArrayForm.wrap (form.wrap element)) =
      arrayOf^[outer.length] (ofElement element) := by
  induction outer with
  | nil => exact parse_wrap form h
  | cons first outer ih =>
      rcases foldr_wrap_spec outer form h with ⟨hline, hblank⟩
      rw [List.foldr_cons, parse_wrap first hline, ofElement, hblank, ih, List.length_cons,
        Function.iterate_succ_apply']
      rfl

/-- The three forms of an array give the same type around every element on one
line, and so do arrays of arrays in any mixture of forms.  Reading an array goes on
with a text that is shorter, so it comes to an end; where the generic form is
matched by its pattern, the text that goes on is the group of the element. -/
theorem parse_array_spellings :
    (∀ element : Text, '\n' ∉ element →
      parse ("Array<".toList ++ element ++ ">".toList) = ofElement element ∧
      parse ("Array.<".toList ++ element ++ ">".toList) = ofElement element ∧
      parse (element ++ "[]".toList) = ofElement element ∧
      ∀ (outer : List ArrayForm) (form : ArrayForm),
        parse (outer.foldr ArrayForm.wrap (form.wrap element)) =
          arrayOf^[outer.length] (ofElement element)) ∧
    (∀ raw element : Text, elementText? (Text.trim raw) = some element →
      element.length < raw.length ∧ parse raw = ofElement element) ∧
    (∀ raw : Text, elementText? (Text.trim raw) = none →
      parse raw = ofName (TypeName.ofText (Text.trim raw))) ∧
    ∀ text : Text, genericElement? text = (genericPattern.groups? text).bind (List.lookup 1) := by
  refine ⟨?_, ?_, fun raw h => parse_of_no_element h, genericElement?_eq_groups⟩
  · intro element h
    exact ⟨parse_wrap .generic h, parse_wrap .dotted h, parse_wrap .brackets h,
      fun outer form => parse_foldr_wrap outer form h⟩
  · intro raw element h
    exact ⟨Nat.lt_of_lt_of_le (length_elementText?_lt h) (Text.length_trim_le raw),
      parse_of_element h⟩

theorem parse_array_spellings_nested :
    '\n' ∉ " Array<a[] > ".toList ∧
      parse ("Array.<".toList ++ " Array<a[] > ".toList ++ ">".toList) =
        .arrayOf (.arrayOf (.arrayOf (.named (.custom ['a'])))) := by
  have hline : '\n' ∉ " Array<a[] > ".toList := by decide
  have hname : parse ['a'] = .named (.custom ['a']) :=
    (parse_array_spellings.2.2.1 ['a'] (by decide)).trans (by decide +kernel)
  have hbrackets : parse ['a', '[', ']'] = .arrayOf (parse ['a']) :=
    (parse_array_spellings.2.1 ['a', '[', ']'] ['a'] (by decide)).2
  have hgeneric : parse " Array<a[] > ".toList = .arrayOf (parse ['a', '[', ']']) :=
    (parse_array_spellings.2.1 " Array<a[] > ".toList ['a', '[', ']'] (by decide)).2
  have hdotted : parse ("Array.<".toList ++ " Array<a[] > ".toList ++ ">".toList) =
      .arrayOf (parse " Array<a[] > ".toList) :=
    (parse_array_spellings.1 " Array<a[] > ".toList hline).2.1
  exact ⟨hline, by rw [hdotted, hgeneric, hbrackets, hname]⟩

end TypeExpr
end DocComment
