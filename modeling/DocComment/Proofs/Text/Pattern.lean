import Mathlib.Data.List.TakeWhile
import DocComment.Text.Affix

/-!
# Patterns

The layout of a line can be given by a pattern: characters of a class, runs of
them, parts that may be left out or repeated, and groups that keep what they match.
A pattern often matches a text in more than one way.  Matching tries the ways in a
fixed order: a run is taken as long as possible, or as short as possible where the
pattern says so, and a part is taken before it is left out.  Whenever what comes
later does not match, matching goes back and tries the next way.  The first way
that reaches the end of the text counts.

Some patterns are not meant for a whole text.  A pattern for the start of a text
leaves what comes after the first way to match it there.  A pattern for the end is
looked for from left to right: it matches from the leftmost place from which it
reaches the end.

Most runs leave no choice, because what follows them cannot start with a character
of the run.  The lemmas of this module say so once for each kind of run; the
patterns of the single tags are read with them.

Main results:

- Definition `Pattern.groups?`: what the groups of a pattern keep when it matches a
  whole text.
- Definitions `Pattern.start?` and `Pattern.beforeEnd?`: the match of a pattern at
  the start and the leftmost one up to the end.
- Theorem `Pattern.manyThen_of_stop`: a run is maximal when what follows cannot
  start inside of it.
- Theorem `Pattern.manyThen_of_longest`: a run is maximal when no shorter run
  matches where the longest does not.
- Theorem `Pattern.fewThen_of_first`: a short run ends at the first place where what
  follows matches.
-/

namespace DocComment

/-- A pattern for the layout of a text. -/
inductive Pattern where
  /-- The empty text. -/
  | nothing
  /-- One character of a class. -/
  | one (allowed : Char → Bool)
  /-- A run of characters of a class, as long as possible. -/
  | many (allowed : Char → Bool)
  /-- A run of characters of a class, as short as possible. -/
  | few (allowed : Char → Bool)
  /-- One pattern after another. -/
  | seq (first second : Pattern)
  /-- A part that may be left out and is taken if possible. -/
  | maybe (inner : Pattern)
  /-- A part that is repeated as often as possible. -/
  | loop (inner : Pattern)
  /-- A part whose text is kept under a number. -/
  | group (number : Nat) (inner : Pattern)

namespace Pattern

/-- The texts that groups have kept, the latest first. -/
abbrev Groups := List (Nat × Text)

section Matching

variable {α : Type}

/-- Match a run and go on after it, from the longest run down to the empty one. -/
def manyThen (allowed : Char → Bool) (next : Text → Option α) : Text → Option α
  | [] => next []
  | c :: rest =>
    if allowed c then (manyThen allowed next rest).or (next (c :: rest)) else next (c :: rest)

/-- Match a run and go on after it, from the empty run up to the longest one. -/
def fewThen (allowed : Char → Bool) (next : Text → Option α) : Text → Option α
  | [] => next []
  | c :: rest =>
    (next (c :: rest)).or (if allowed c then fewThen allowed next rest else none)

/-- Match rounds of a loop, as many as possible, and go on after them.  A round that
takes nothing from the text does not count, so the length of the text bounds the
number of rounds. -/
def loopThen (round : Groups → Text → (Groups → Text → Option α) → Option α)
    (next : Groups → Text → Option α) : Nat → Groups → Text → Option α
  | 0, groups, text => next groups text
  | rounds + 1, groups, text =>
    (round groups text fun groups rest =>
      if rest.length < text.length then loopThen round next rounds groups rest else none).or
        (next groups text)

/-- Match a pattern at the start of a text and go on with the groups and the text
that are left.  The first way in which everything matches counts. -/
def matchThen : Pattern → Groups → Text → (Groups → Text → Option α) → Option α
  | nothing, groups, text, next => next groups text
  | one _, _, [], _ => none
  | one allowed, groups, c :: rest, next => if allowed c then next groups rest else none
  | many allowed, groups, text, next => manyThen allowed (next groups) text
  | few allowed, groups, text, next => fewThen allowed (next groups) text
  | seq first second, groups, text, next =>
    first.matchThen groups text fun groups rest => second.matchThen groups rest next
  | maybe inner, groups, text, next => (inner.matchThen groups text next).or (next groups text)
  | loop inner, groups, text, next =>
    loopThen (fun groups text next => inner.matchThen groups text next) next text.length groups
      text
  | group number inner, groups, text, next =>
    inner.matchThen groups text fun groups rest =>
      next ((number, text.take (text.length - rest.length)) :: groups) rest

end Matching

/-- The end of a text. -/
def atEnd (groups : Groups) (text : Text) : Option Groups :=
  if text = [] then some groups else none

/-- What the groups of a pattern keep when it matches a whole text. -/
def groups? (pattern : Pattern) (text : Text) : Option Groups :=
  pattern.matchThen [] text atEnd

/-- What the groups of a pattern keep when it matches at the start of a text, and what
comes after the match. -/
def start? (pattern : Pattern) (text : Text) : Option (Groups × Text) :=
  pattern.matchThen [] text fun groups rest => some (groups, rest)

/-- A run of at least one character of a class. -/
def plus (allowed : Char → Bool) : Pattern :=
  seq (one allowed) (many allowed)

/-- A fixed text. -/
def literal (text : Text) : Pattern :=
  text.foldr (fun c rest => seq (one (· == c)) rest) nothing

/-- Patterns one after another. -/
def sequence (parts : List Pattern) : Pattern :=
  parts.foldr seq nothing

/-- A text and a pattern after it.  The text is kept as group 0 and is as short as
possible, so the pattern matches from the leftmost place. -/
def found (pattern : Pattern) : Pattern :=
  sequence [group 0 (few fun _ => true), pattern]

/-- What stands before the leftmost place from which a pattern matches up to the end of
a text. -/
def beforeEnd? (pattern : Pattern) (text : Text) : Option Text :=
  (pattern.found.groups? text).bind (List.lookup 0)

variable {α : Type} {allowed : Char → Bool} {groups : Groups} {text : Text}

theorem atEnd_cons (groups : Groups) (c : Char) (rest : Text) : atEnd groups (c :: rest) = none :=
  rfl

@[simp]
theorem matchThen_sequence_nil (next : Groups → Text → Option α) :
    (sequence []).matchThen groups text next = next groups text :=
  rfl

@[simp]
theorem matchThen_sequence_cons (first : Pattern) (rest : List Pattern)
    (next : Groups → Text → Option α) :
    (sequence (first :: rest)).matchThen groups text next =
      first.matchThen groups text fun groups text => (sequence rest).matchThen groups text next :=
  rfl

/-- A fixed text is matched in one way. -/
theorem matchThen_literal (lead : Text) (next : Groups → Text → Option α) :
    (literal lead).matchThen groups text next = (Text.after? lead text).bind (next groups) := by
  induction lead generalizing text with
  | nil => rfl
  | cons a lead ih =>
      cases text with
      | nil => rfl
      | cons b text =>
          have hcons : (literal (a :: lead)).matchThen groups (b :: text) next =
              if b == a then (literal lead).matchThen groups text next else none := rfl
          rw [hcons, ih, Text.after?]
          by_cases hab : a = b
          · simp [hab]
          · have hba : b ≠ a := fun h => hab h.symm
            simp [hab, hba]

/-! ## Maximal runs -/

/-- A run is maximal when what follows it cannot start with a character of the
class. -/
theorem manyThen_of_stop {next : Text → Option α}
    (hstop : ∀ c rest, allowed c = true → next (c :: rest) = none) (text : Text) :
    manyThen allowed next text = next (text.dropWhile allowed) := by
  induction text with
  | nil => rfl
  | cons c rest ih =>
      by_cases hc : allowed c = true
      · rw [manyThen, if_pos hc, ih, hstop c rest hc, Option.or_none, List.dropWhile_cons_of_pos hc]
      · rw [manyThen, if_neg hc, List.dropWhile_cons_of_neg hc]

/-- A run is maximal when no shorter run matches where the longest one does not. -/
theorem manyThen_of_longest {next : Text → Option α}
    (hlongest : next (text.dropWhile allowed) = none →
      ∀ front, (∀ c ∈ front, allowed c = true) → next (front ++ text.dropWhile allowed) = none) :
    manyThen allowed next text = next (text.dropWhile allowed) := by
  induction text with
  | nil => rfl
  | cons c rest ih =>
      by_cases hc : allowed c = true
      · rw [List.dropWhile_cons_of_pos hc] at hlongest ⊢
        rw [manyThen, if_pos hc, ih hlongest]
        cases hnext : next (rest.dropWhile allowed) with
        | some value => rfl
        | none =>
            have hfront : ∀ d ∈ c :: rest.takeWhile allowed, allowed d = true := by
              intro d hd
              rcases List.mem_cons.mp hd with rfl | hd
              · exact hc
              · exact List.mem_takeWhile_imp hd
            have hshorter := hlongest hnext _ hfront
            rw [List.cons_append, List.takeWhile_append_dropWhile] at hshorter
            rw [hshorter, Option.or_none]
      · rw [manyThen, if_neg hc, List.dropWhile_cons_of_neg hc]

/-- A run is maximal when what follows the longest one matches. -/
theorem manyThen_of_ne_none {next : Text → Option α} (h : next (text.dropWhile allowed) ≠ none) :
    manyThen allowed next text = next (text.dropWhile allowed) :=
  manyThen_of_longest fun hnone => absurd hnone h

/-- What is made of the match after a run is made of the whole match. -/
theorem manyThen_map {β : Type} (f : α → β) (next : Text → Option α) (text : Text) :
    manyThen allowed (fun rest => (next rest).map f) text =
      (manyThen allowed next text).map f := by
  induction text with
  | nil => rfl
  | cons c text ih =>
      rw [manyThen, manyThen, ih]
      split
      · rw [Option.map_or]
      · rfl

/-- A fixed text cannot start inside of a run that does not hold its first character. -/
theorem literal_stop {a : Char} (h : allowed a = false) (lead : Text)
    (next : Groups → Text → Option α) (groups : Groups) (c : Char) (rest : Text)
    (hc : allowed c = true) : (literal (a :: lead)).matchThen groups (c :: rest) next = none := by
  have hne : a ≠ c := by
    rintro rfl
    rw [h] at hc
    contradiction
  rw [matchThen_literal, Text.after?, if_neg hne, Option.bind_none]

/-! ## Short runs -/

/-- A short run ends where what follows matches for the first time. -/
theorem fewThen_of_first {next : Text → Option α} {word rest : Text} {value : α}
    (hword : ∀ c ∈ word, allowed c = true) (hrest : next rest = some value)
    (hfirst : ∀ front back, word = front ++ back → back ≠ [] → next (back ++ rest) = none) :
    fewThen allowed next (word ++ rest) = some value := by
  induction word with
  | nil =>
      rw [List.nil_append]
      cases rest with
      | nil => exact hrest
      | cons c rest => rw [fewThen, hrest, Option.some_or]
  | cons c word ih =>
      have hnow := hfirst [] (c :: word) rfl (by simp)
      rw [List.cons_append] at hnow ⊢
      rw [fewThen, hnow, Option.none_or, if_pos (hword c List.mem_cons_self)]
      refine ih (fun d hd => hword d (List.mem_cons_of_mem c hd)) ?_
      intro front back hback hne
      exact hfirst (c :: front) back (by rw [hback]; rfl) hne

/-- A short run does not match when what follows matches after none of its lengths. -/
theorem fewThen_eq_none_iff {next : Text → Option α} :
    fewThen allowed next text = none ↔
      ∀ word rest, text = word ++ rest → (∀ c ∈ word, allowed c = true) → next rest = none := by
  induction text with
  | nil =>
      constructor
      · intro h word rest htext _
        rw [(List.append_eq_nil_iff.mp htext.symm).2]
        exact h
      · intro h
        exact h [] [] rfl (by simp)
  | cons c text ih =>
      rw [fewThen, Option.or_eq_none_iff]
      constructor
      · rintro ⟨hnow, hlater⟩ word rest htext hword
        cases word with
        | nil =>
            rw [List.nil_append] at htext
            rw [← htext]
            exact hnow
        | cons d word =>
            simp only [List.cons_append, List.cons.injEq] at htext
            rcases htext with ⟨rfl, htext⟩
            rw [if_pos (hword c List.mem_cons_self)] at hlater
            exact ih.mp hlater word rest htext fun d hd => hword d (List.mem_cons_of_mem c hd)
      · intro h
        refine ⟨h [] (c :: text) rfl (by simp), ?_⟩
        split
        · rename_i hc
          rw [ih]
          intro word rest htext hword
          refine h (c :: word) rest (by rw [htext]; rfl) ?_
          intro d hd
          rcases List.mem_cons.mp hd with rfl | hd
          · exact hc
          · exact hword d hd
        · rfl

/-! ## Loops -/

/-- A loop ends where no round can start. -/
theorem loopThen_of_stop {round : Groups → Text → (Groups → Text → Option α) → Option α}
    {next : Groups → Text → Option α} (hstop : ∀ next', round groups text next' = none)
    (rounds : Nat) : loopThen round next rounds groups text = next groups text := by
  cases rounds with
  | zero => rfl
  | succ rounds => rw [loopThen, hstop, Option.none_or]

/-! ## Runs in groups -/

/-- What a group keeps is what stands before the rest. -/
theorem take_length_sub (word rest : Text) :
    (word ++ rest).take ((word ++ rest).length - rest.length) = word := by
  simp

/-- What stands before the rest of a maximal run is the run. -/
theorem take_takeWhile (allowed : Char → Bool) (text : Text) :
    text.take (text.length - (text.dropWhile allowed).length) = text.takeWhile allowed := by
  have hsplit := take_length_sub (text.takeWhile allowed) (text.dropWhile allowed)
  rwa [List.takeWhile_append_dropWhile] at hsplit

section Stop

variable {next : Groups → Text → Option α}
  (hstop : ∀ groups c rest, allowed c = true → next groups (c :: rest) = none)

include hstop

theorem matchThen_many_of_stop :
    (many allowed).matchThen groups text next = next groups (text.dropWhile allowed) :=
  manyThen_of_stop (hstop groups) text

/-- A run of at least one character is maximal, too. -/
theorem matchThen_plus_of_stop :
    (plus allowed).matchThen groups text next =
      if text.takeWhile allowed = [] then none else next groups (text.dropWhile allowed) := by
  cases text with
  | nil => rfl
  | cons c rest =>
      by_cases hc : allowed c = true
      · simp [plus, matchThen, hc, manyThen_of_stop (hstop groups) rest]
      · simp [plus, matchThen, hc]

/-- A group keeps the whole of a maximal run. -/
theorem matchThen_group_many_of_stop (number : Nat) :
    (group number (many allowed)).matchThen groups text next =
      next ((number, text.takeWhile allowed) :: groups) (text.dropWhile allowed) := by
  rw [matchThen, matchThen_many_of_stop, take_takeWhile]
  intro groups c rest hc
  exact hstop _ c rest hc

/-- A word with a class of its own for the first character. -/
theorem matchThen_group_word_of_stop (number : Nat) (first : Char → Bool) (c : Char)
    (rest : Text) :
    (group number (seq (one first) (many allowed))).matchThen groups (c :: rest) next =
      if first c then
        next ((number, c :: rest.takeWhile allowed) :: groups) (rest.dropWhile allowed)
      else none := by
  have htake := take_length_sub (c :: rest.takeWhile allowed) (rest.dropWhile allowed)
  rw [List.cons_append, List.takeWhile_append_dropWhile] at htake
  rw [matchThen, matchThen, matchThen]
  by_cases hc : first c = true
  · rw [if_pos hc, if_pos hc, matchThen_many_of_stop, htake]
    intro groups d rest hd
    exact hstop _ d rest hd
  · rw [if_neg hc, if_neg hc]

/-- A group keeps the whole of a maximal run of at least one character. -/
theorem matchThen_group_plus_of_stop (number : Nat) :
    (group number (plus allowed)).matchThen groups text next =
      if text.takeWhile allowed = [] then none
      else next ((number, text.takeWhile allowed) :: groups) (text.dropWhile allowed) := by
  rw [matchThen, matchThen_plus_of_stop, take_takeWhile]
  intro groups c rest hc
  exact hstop _ c rest hc

end Stop

end Pattern
end DocComment
