import Mathlib.Data.List.TakeWhile
import DocComment.Proofs.Text.Field
import DocComment.Proofs.Text.Pattern
import DocComment.Tag.Layout

/-!
# The parts of a tag

The readers of the parts of a tag, described in two ways: by how the text is put
together that they take apart, and by the pattern that they match.

Main results:

- Theorems `Tag.braces?_eq_some_iff`, `Tag.word?_eq_some_iff` and
  `Text.remainder?_eq_some_iff`: the texts that have a type in braces, a word and a
  remainder.
- Theorem `Tag.matchThen_bracesPattern`: braces are matched in one way.
- Theorem `Tag.matchThen_remainderPattern`: the remainder of a line is matched in
  one way that counts.
-/

namespace DocComment

/-! ## How the parts are put together -/

namespace Text

theorem allBlank_takeWhile (text : Text) : allBlank (text.takeWhile isBlank) = true := by
  rw [allBlank, List.all_takeWhile]

theorem isBlank_of_mem {blanks : Text} (h : allBlank blanks = true) {c : Char} (hc : c ∈ blanks) :
    isBlank c = true :=
  List.all_eq_true.mp h c hc

/-- Blanks before a text that starts with none are trimmed away. -/
theorem trimStart_append {blanks rest : Text} (h : allBlank blanks = true)
    (hrest : ∀ c ∈ rest.head?, isBlank c = false) : trimStart (blanks ++ rest) = rest := by
  rw [trimStart_append_of_allBlank h, trimStart_eq_self_iff.mpr hrest]

/-- What is left after dropping everything but a character starts with it. -/
theorem eq_of_dropWhile_bne {a c : Char} {text rest : Text}
    (h : text.dropWhile (· != a) = c :: rest) : c = a := by
  have hhead := List.head?_dropWhile_not (· != a) text
  simpa [h] using hhead

/-- Nothing is left of a text when everything but an absent character is dropped. -/
theorem dropWhile_bne_eq_nil_iff {a : Char} {text : Text} :
    text.dropWhile (· != a) = [] ↔ a ∉ text := by
  rw [List.dropWhile_eq_nil_iff]
  constructor
  · intro h hmem
    simpa using h a hmem
  · intro h c hc
    rw [bne_iff_ne]
    rintro rfl
    exact h hc

/-- A text is taken as a whole up to a character that is absent. -/
theorem takeWhile_bne_of_notMem {a : Char} {text : Text} (h : a ∉ text) :
    text.takeWhile (· != a) = text := by
  have hsplit := List.takeWhile_append_dropWhile (p := (· != a)) (l := text)
  rwa [dropWhile_bne_eq_nil_iff.mpr h, List.append_nil] at hsplit

/-- The remainder of a line is what stands after a maximal run of blanks, or
nothing at the end of the line, and holds no line feed. -/
theorem remainder?_eq_some_iff {text rest : Text} :
    remainder? text = some rest ↔
      ∃ gap, text = gap ++ rest ∧ allBlank gap = true ∧ (gap = [] → rest = []) ∧
        (∀ c ∈ rest.head?, isBlank c = false) ∧ '\n' ∉ rest := by
  constructor
  · intro h
    rcases remainder?_eq_some h with ⟨_, hline, hstart⟩
    have hhead := trimStart_eq_self_iff.mp hstart
    cases text with
    | nil =>
        cases h
        exact ⟨[], rfl, rfl, fun _ => rfl, hhead, hline⟩
    | cons c text =>
        simp only [remainder?] at h
        split at h
        · rename_i hc
          split at h
          · contradiction
          · cases h
            refine ⟨c :: text.takeWhile isBlank, ?_, ?_, by simp, hhead, hline⟩
            · rw [List.cons_append, trimStart, List.takeWhile_append_dropWhile]
            · rw [allBlank, List.all_cons, hc, Bool.true_and]
              exact allBlank_takeWhile text
        · contradiction
  · rintro ⟨gap, rfl, hgap, hempty, hhead, hline⟩
    cases gap with
    | nil =>
        rw [hempty rfl]
        rfl
    | cons c gap =>
        have hblanks : isBlank c = true ∧ allBlank gap = true := by
          simpa [allBlank] using hgap
        rw [List.cons_append, remainder?, if_pos hblanks.1, trimStart_append hblanks.2 hhead,
          if_neg hline]

end Text

namespace Tag

/-- A type in braces: blanks, the opening brace, and the text up to the first
closing brace. -/
theorem braces?_eq_some_iff {text type rest : Text} :
    braces? text = some (type, rest) ↔
      ∃ blanks, text = blanks ++ '\x7b' :: (type ++ '\x7d' :: rest) ∧
        Text.allBlank blanks = true ∧ '\x7d' ∉ type := by
  constructor
  · intro h
    unfold braces? at h
    split at h
    · rename_i inner hopen
      split at h
      · contradiction
      · rename_i close rest' hclose
        simp only [Option.some.injEq, Prod.mk.injEq] at h
        rcases h with ⟨rfl, rfl⟩
        have hinner : inner.takeWhile (· != '\x7d') ++ '\x7d' :: rest' = inner := by
          rw [Text.eq_of_dropWhile_bne hclose] at hclose
          rw [← hclose, List.takeWhile_append_dropWhile]
        refine ⟨text.takeWhile Text.isBlank, ?_, Text.allBlank_takeWhile text, ?_⟩
        · rw [hinner, ← hopen, Text.trimStart, List.takeWhile_append_dropWhile]
        · intro hmem
          simpa using List.mem_takeWhile_imp hmem
    · contradiction
  · rintro ⟨blanks, rfl, hblanks, hbrace⟩
    have hopen : Text.trimStart (blanks ++ '\x7b' :: (type ++ '\x7d' :: rest)) =
        '\x7b' :: (type ++ '\x7d' :: rest) := by
      refine Text.trimStart_append hblanks ?_
      intro c hc
      cases hc
      decide
    have hinside : ∀ c ∈ type, (c != '\x7d') = true := by
      intro c hc
      rw [bne_iff_ne]
      rintro rfl
      exact hbrace hc
    have hclose : ∀ c ∈ ('\x7d' :: rest).head?, (c != '\x7d') = false := by simp
    simp only [braces?, hopen, Text.dropWhile_append_eq hinside hclose,
      Text.takeWhile_append_eq hinside hclose]

/-- A type in braces stands right after the blanks. -/
theorem trimStart_of_braces? {text type rest : Text} (h : braces? text = some (type, rest)) :
    Text.trimStart text = '\x7b' :: (type ++ '\x7d' :: rest) := by
  rcases braces?_eq_some_iff.mp h with ⟨blanks, rfl, hblanks, _⟩
  refine Text.trimStart_append hblanks ?_
  intro c hc
  cases hc
  decide

theorem startsBlank_iff {text : Text} :
    startsBlank text = true ↔ ∃ c rest, text = c :: rest ∧ Text.isBlank c = true := by
  cases text with
  | nil => simp [startsBlank]
  | cons c rest => simp [startsBlank]

/-- A word: a run of blanks, the word up to the next blank, and what follows. -/
theorem word?_eq_some_iff {text token rest : Text} (hne : token ≠ []) :
    word? text = some (token, rest) ↔
      ∃ blanks, text = blanks ++ (token ++ rest) ∧ blanks ≠ [] ∧
        Text.allBlank blanks = true ∧ (∀ c ∈ token, Text.isBlank c = false) ∧
        (∀ c ∈ rest.head?, Text.isBlank c = true) := by
  constructor
  · intro h
    unfold word? at h
    split at h
    · rename_i hstart
      simp only [Option.some.injEq, Prod.mk.injEq] at h
      rcases h with ⟨rfl, rfl⟩
      refine ⟨text.takeWhile Text.isBlank, ?_, ?_, Text.allBlank_takeWhile text, ?_, ?_⟩
      · rw [List.takeWhile_append_dropWhile, Text.trimStart, List.takeWhile_append_dropWhile]
      · rcases startsBlank_iff.mp hstart with ⟨c, more, rfl, hc⟩
        simp [hc]
      · intro c hc
        simpa using List.mem_takeWhile_imp hc
      · intro c hc
        have hhead := List.head?_dropWhile_not (fun c => !Text.isBlank c) (Text.trimStart text)
        rw [Option.mem_def.mp hc] at hhead
        simpa using hhead
    · contradiction
  · rintro ⟨blanks, rfl, hblanks, hblank, htoken, hrest⟩
    have hstart : startsBlank (blanks ++ (token ++ rest)) = true := by
      rcases List.exists_cons_of_ne_nil hblanks with ⟨c, blanks, rfl⟩
      exact startsBlank_iff.mpr ⟨c, _, rfl, Text.isBlank_of_mem hblank List.mem_cons_self⟩
    have htrim : Text.trimStart (blanks ++ (token ++ rest)) = token ++ rest := by
      refine Text.trimStart_append hblank ?_
      rcases List.exists_cons_of_ne_nil hne with ⟨c, token, rfl⟩
      intro d hd
      cases hd
      exact htoken c List.mem_cons_self
    have hword : ∀ c ∈ token, (!Text.isBlank c) = true := by
      intro c hc
      simp [htoken c hc]
    have hstop : ∀ c ∈ rest.head?, (!Text.isBlank c) = false := by
      intro c hc
      simp [hrest c hc]
    rw [word?, if_pos hstart, htrim, Text.takeWhile_append_eq hword hstop,
      Text.dropWhile_append_eq hword hstop]

/-! ## Patterns of the parts -/

/-- The pattern of a type in braces.  The type is group 1. -/
def bracesPattern : Pattern :=
  .sequence [.many Text.isBlank, .one (· == '\x7b'), .group 1 (.many (· != '\x7d')),
    .one (· == '\x7d')]

/-- The pattern of the remainder of a line after a word, kept in a group. -/
def remainderPattern (number : Nat) : Pattern :=
  .maybe (.sequence [.plus Text.isBlank, .group number (.many (· != '\n'))])

section Matching

open Pattern

variable {groups : Groups} {text : Text}

/-- A character outside of a class is not matched. -/
theorem matchThen_one_of_ne {α : Type} {allowed : Char → Bool} {c : Char} (h : allowed c = false)
    (rest : Text) (next : Groups → Text → Option α) :
    (one allowed).matchThen groups (c :: rest) next = none := by
  simp [matchThen, h]

/-- A type in braces is matched in one way. -/
theorem matchThen_bracesPattern {α : Type} (next : Groups → Text → Option α) :
    bracesPattern.matchThen groups text next =
      (braces? text).bind fun parts => next ((1, parts.1) :: groups) parts.2 := by
  have hinner : ∀ inner : Text,
      (group 1 (many (· != '\x7d'))).matchThen groups inner
          (fun groups rest => (one (· == '\x7d')).matchThen groups rest next) =
        if inner.dropWhile (· != '\x7d') = [] then none
        else next ((1, inner.takeWhile (· != '\x7d')) :: groups)
          (inner.dropWhile (· != '\x7d')).tail := by
    intro inner
    rw [matchThen_group_many_of_stop]
    · cases hclose : inner.dropWhile (· != '\x7d') with
      | nil => rfl
      | cons c rest => simp [matchThen, Text.eq_of_dropWhile_bne hclose]
    · intro groups c rest hc
      exact matchThen_one_of_ne (by simpa using hc) rest next
  simp only [bracesPattern, matchThen_sequence_cons, matchThen_sequence_nil]
  rw [matchThen_many_of_stop]
  · unfold braces? Text.trimStart
    cases hopen : text.dropWhile Text.isBlank with
    | nil => rfl
    | cons c inner =>
        by_cases hc : c = '\x7b'
        · subst hc
          have hone : ∀ next' : Groups → Text → Option α,
              (one (· == '\x7b')).matchThen groups ('\x7b' :: inner) next' =
                next' groups inner := fun _ => rfl
          rw [hone, hinner]
          cases hclose : inner.dropWhile (· != '\x7d') with
          | nil => simp [hclose]
          | cons close rest => simp [hclose]
        · rw [matchThen_one_of_ne (by simpa using hc)]
          simp [hc]
  · intro groups c rest hc
    refine matchThen_one_of_ne ?_ rest _
    rw [beq_eq_false_iff_ne]
    rintro rfl
    exact absurd hc (by decide)

/-- The rest of a text is kept when it holds no line feed. -/
theorem matchThen_group_line (number : Nat) :
    (group number (many (· != '\n'))).matchThen groups text atEnd =
      if '\n' ∈ text then none else some ((number, text) :: groups) := by
  rw [matchThen_group_many_of_stop fun groups c rest _ => atEnd_cons groups c rest]
  split
  · rename_i hmem
    rw [atEnd, if_neg (mt Text.dropWhile_bne_eq_nil_iff.mp (not_not_intro hmem))]
  · rename_i hmem
    rw [atEnd, if_pos (Text.dropWhile_bne_eq_nil_iff.mpr hmem), Text.takeWhile_bne_of_notMem hmem]

/-- The remainder of a line is matched in one way that counts: after the longest
run of blanks.  A shorter run leaves more text, with the same line feeds in it. -/
theorem matchThen_remainderPattern (number : Nat) :
    (remainderPattern number).matchThen groups text atEnd =
      (Text.remainder? text).map fun rest =>
        if text = [] then groups else (number, rest) :: groups := by
  cases text with
  | nil => rfl
  | cons c rest =>
      have hplus : (remainderPattern number).matchThen groups (c :: rest) atEnd =
          (if Text.isBlank c then
            manyThen Text.isBlank (fun rest' =>
              (group number (many (· != '\n'))).matchThen groups rest' atEnd) rest
          else none).or (atEnd groups (c :: rest)) := rfl
      have hlongest : manyThen Text.isBlank (fun rest' =>
            (group number (many (· != '\n'))).matchThen groups rest' atEnd) rest =
          if '\n' ∈ Text.trimStart rest then none
          else some ((number, Text.trimStart rest) :: groups) := by
        simp only [matchThen_group_line]
        rw [manyThen_of_longest]
        · rfl
        · intro hnone front _
          have hmem : '\n' ∈ rest.dropWhile Text.isBlank := by simpa using hnone
          rw [if_pos (List.mem_append_right front hmem)]
      rw [hplus, hlongest, atEnd_cons, Option.or_none, Text.remainder?]
      split
      · split <;> simp
      · rfl

end Matching
end Tag
end DocComment
