import DocComment.Proofs.Tag.Layout
import DocComment.Tag.Basic

/-!
# The patterns of labels and names

Every tag is first read by the pattern of its label, which is matched at the start of
the line.  A tag that gives a name is then read by a pattern of its own.

Main results:

- Theorem `Tag.label?_eq_start`: the label of a tag is what the pattern of labels keeps
  at the start of the line.
- Theorem `Tag.parseName?_eq_groups`: the name in a tag is what the pattern of the tag
  keeps, trimmed at its end.
-/

namespace DocComment
namespace Tag

open Pattern

/-- The pattern of a label, for the start of a line.  The label is group 1. -/
def labelPattern : Pattern :=
  .sequence [.literal ['@'], .group 1 (.plus Text.isLetter)]

/-- Letters are kept up to the first other character. -/
theorem matchThen_group_letters (text : Text) :
    (group 1 (plus Text.isLetter)).matchThen [] text (fun groups rest => some (groups, rest)) =
      if text.takeWhile Text.isLetter = [] then none
      else some ([(1, text.takeWhile Text.isLetter)], text.dropWhile Text.isLetter) := by
  cases text with
  | nil => rfl
  | cons c text =>
      by_cases hc : Text.isLetter c = true
      · have htake := take_takeWhile Text.isLetter (c :: text)
        rw [List.takeWhile_cons_of_pos hc, List.dropWhile_cons_of_pos hc] at htake
        rw [matchThen, plus, matchThen, matchThen, if_pos hc, matchThen,
          manyThen_of_ne_none (by simp), htake, List.takeWhile_cons_of_pos hc,
          List.dropWhile_cons_of_pos hc, if_neg (List.cons_ne_nil c _)]
      · rw [matchThen, plus, matchThen, matchThen, if_neg hc, List.takeWhile_cons_of_neg hc,
          if_pos rfl]

/-- The label of a tag is what its pattern keeps at the start of the line. -/
theorem label?_eq_start (line : Text) :
    label? line = (labelPattern.start? line).bind fun found => found.1.lookup 1 := by
  rw [start?, labelPattern, matchThen_sequence_cons, matchThen_literal]
  simp only [matchThen_sequence_cons, matchThen_sequence_nil, matchThen_group_letters]
  cases line with
  | nil => rfl
  | cons c rest =>
      by_cases hc : c = '@'
      · subst hc
        rw [label?, Text.after?, if_pos rfl, Text.after?, Option.bind_some]
        split <;> rfl
      · have hne : '@' ≠ c := fun h => hc h.symm
        simp [label?, Text.after?, hne, hc]

/-- The pattern of a tag that gives a name.  The name is group 1: it starts with a
character that is not blank, and goes on to the end of the line. -/
def namePattern : Pattern :=
  .sequence [.literal "@name".toList, .plus Text.isBlank,
    .group 1 (.seq (.one fun c => !Text.isBlank c) (.many (· != '\n')))]

/-- A name is kept when no line feed follows its first character. -/
theorem matchThen_group_name (groups : Groups) (c : Char) (rest : Text) :
    (group 1 (seq (one fun c => !Text.isBlank c) (many (· != '\n')))).matchThen groups (c :: rest)
        atEnd =
      if Text.isBlank c = true ∨ '\n' ∈ rest then none
      else some ((1, c :: rest) :: groups) := by
  rw [matchThen_group_word_of_stop fun groups c rest _ => atEnd_cons groups c rest]
  by_cases hc : Text.isBlank c = true
  · simp [hc]
  · by_cases hfeed : '\n' ∈ rest
    · simp [hc, hfeed, atEnd]
    · simp [hc, hfeed, atEnd, Text.takeWhile_bne_of_notMem]

/-- The name in a tag is what the pattern keeps, trimmed at its end. -/
theorem parseName?_eq_groups (line : Text) :
    parseName? line =
      ((namePattern.groups? line).bind (List.lookup 1)).map Text.trimEnd := by
  have hblank : ∀ (groups : Groups) c rest, Text.isBlank c = true →
      (group 1 (seq (one fun c => !Text.isBlank c) (many (· != '\n')))).matchThen groups
        (c :: rest) atEnd = none := by
    intro groups c rest hc
    rw [matchThen_group_name, if_pos (.inl hc)]
  rw [parseName?, groups?, namePattern, matchThen_sequence_cons, matchThen_literal]
  cases Text.after? "@name".toList line with
  | none => rfl
  | some text =>
      simp only [matchThen_sequence_cons, matchThen_sequence_nil, Option.bind_some,
        Option.bind_eq_bind]
      rw [matchThen_plus_of_stop hblank]
      cases text with
      | nil => rfl
      | cons c text =>
          by_cases hc : Text.isBlank c = true
          · rw [Text.remainder?, if_pos hc, List.takeWhile_cons_of_pos hc,
              List.dropWhile_cons_of_pos hc, if_neg (List.cons_ne_nil c _), ← Text.trimStart]
            cases htrim : Text.trimStart text with
            | nil => rfl
            | cons d rest =>
                have hd := Text.isBlank_of_trimStart_eq_cons htrim
                have hne : '\n' ≠ d := by
                  rintro rfl
                  exact absurd hd (by decide)
                rw [matchThen_group_name]
                by_cases hfeed : '\n' ∈ rest <;> simp [hd, hne, hfeed]
          · rw [Text.remainder?, if_neg hc, List.takeWhile_cons_of_neg hc, if_pos rfl]
            rfl

end Tag
end DocComment
