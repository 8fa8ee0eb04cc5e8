import DocComment.Proofs.Record.Kinds
import DocComment.Proofs.Tag.ThrowsGrammar

/-!
# Malformed lines and what follows them

A tag is read after its continuation lines were joined to it, so a line that is
malformed on its own may still become a tag.  Here is told which lines can: those that
end before anything in them is wrong.  All other malformed lines stay malformed
whatever follows them.

The argument goes through the readers of the parts.  Each of them has found its part
or has failed within the line, and a text behind the line that starts with a blank
does not change that.

Main results:

- Definition `Tag.Unfinished`: the lines that end too early.
- Theorem `Tag.parse?_append_eq_none`: all other malformed lines stay malformed.
- Theorem `Tag.Unfinished.exists_completes`: every unfinished line has a continuation
  line that makes it a tag.
-/

namespace DocComment

/-! ## The end of a line -/

namespace Text

/-- The last part of a clean line: it does not end with a blank, and it is not
empty. -/
structure Tail (text : Text) : Prop where
  ne_nil : text ≠ []
  trimEnd_eq : trimEnd text = text
  one_line : '\n' ∉ text

/-- A part at the end of a tail is a tail. -/
theorem Tail.of_suffix {text rest : Text} (h : Tail text) (hrest : rest <:+ text)
    (hne : rest ≠ []) : Tail rest where
  ne_nil := hne
  trimEnd_eq := by
    obtain ⟨front, rfl⟩ := hrest
    rw [trimEnd_eq_self_iff]
    intro c hc
    have hlast : (front ++ rest).getLast? = some c := by
      rw [List.getLast?_append, hc, Option.some_or]
    exact trimEnd_eq_self_iff.mp h.trimEnd_eq c hlast
  one_line := fun hmem => h.one_line (hrest.subset hmem)

/-- The end of a clean line is a tail. -/
theorem Inline.tail {front text : Text} (h : Inline (front ++ text)) (hne : text ≠ []) :
    Tail text := by
  have htail : Tail (front ++ text) := ⟨by simp [hne], h.trimmed.trimEnd_eq, h.one_line⟩
  exact htail.of_suffix (List.suffix_append front text) hne

section Tail

variable {text : Text}

theorem Tail.allBlank_eq_false (h : Tail text) : allBlank text = false := by
  have hlast := trimEnd_eq_self_iff.mp h.trimEnd_eq _ (List.getLast?_eq_some_getLast h.ne_nil)
  rw [allBlank, List.all_eq_false]
  exact ⟨_, List.getLast_mem h.ne_nil, by simp [hlast]⟩

/-- There is something behind the blanks at the start. -/
theorem Tail.exists_trimStart_eq_cons (h : Tail text) :
    ∃ c rest, trimStart text = c :: rest ∧ isBlank c = false := by
  have hne : trimStart text ≠ [] := by
    intro hnil
    have hblank := allBlank_trimStart text
    rw [hnil, h.allBlank_eq_false] at hblank
    contradiction
  obtain ⟨c, rest, hcons⟩ := List.exists_cons_of_ne_nil hne
  exact ⟨c, rest, hcons, isBlank_of_trimStart_eq_cons hcons⟩

/-- The remainder after a word is filled when the line ends with it. -/
theorem Tail.field?_of_remainder? (h : Tail text) {rest : Text}
    (hrest : remainder? text = some rest) : field? rest = some rest ∧ rest ≠ [] := by
  obtain ⟨gap, rfl, hgap, _, hstart, _⟩ := remainder?_eq_some_iff.mp hrest
  have hne : rest ≠ [] := by
    rintro rfl
    have hblank := h.allBlank_eq_false
    rw [List.append_nil, hgap] at hblank
    cases hblank
  have htrimmed : Trimmed rest := by
    rw [trimmed_iff, ← trimEnd_eq_self_iff]
    exact ⟨hstart, (h.of_suffix (List.suffix_append gap rest) hne).trimEnd_eq⟩
  exact ⟨htrimmed.field?_eq hne, hne⟩

end Tail
end Text

/-! ## Readers with more text behind them -/

namespace Tag

/-- Something else than a blank follows at once. -/
def Glued (text : Text) : Prop :=
  text ≠ [] ∧ startsBlank text = false

/-- What follows a text does not change how it starts. -/
theorem startsBlank_append {text : Text} (h : text ≠ []) (more : Text) :
    startsBlank (text ++ more) = startsBlank text := by
  obtain ⟨c, rest, rfl⟩ := List.exists_cons_of_ne_nil h
  rfl

theorem Glued.append {text : Text} (h : Glued text) (more : Text) : Glued (text ++ more) :=
  ⟨List.append_ne_nil_of_left_ne_nil h.1 more, by rw [startsBlank_append h.1, h.2]⟩

/-- Glued text is no remainder. -/
theorem Glued.remainder?_eq_none {text : Text} (h : Glued text) : Text.remainder? text = none := by
  obtain ⟨hne, hstart⟩ := h
  obtain ⟨c, rest, rfl⟩ := List.exists_cons_of_ne_nil hne
  have hc : Text.isBlank c = false := hstart
  simp [Text.remainder?, hc]

/-- On one line only a text that is glued to the word before it is no remainder. -/
theorem glued_of_remainder?_eq_none {text : Text} (hline : '\n' ∉ text)
    (h : Text.remainder? text = none) : Glued text := by
  cases text with
  | nil => cases h
  | cons c rest =>
      refine ⟨List.cons_ne_nil c rest, ?_⟩
      have htrim : '\n' ∉ Text.trimStart rest := fun hmem =>
        hline (List.mem_cons_of_mem c ((List.dropWhile_suffix Text.isBlank).subset hmem))
      simpa [Text.remainder?, htrim, startsBlank] using h

/-- Braces are opened and not closed. -/
def OpensBraces (text : Text) : Prop :=
  ∃ blanks type, text = blanks ++ '\x7b' :: type ∧ Text.allBlank blanks = true ∧ '\x7d' ∉ type

section Append

variable {text more : Text}

/-- What follows braces is the end of the text. -/
theorem suffix_of_braces? {type rest : Text} (h : braces? text = some (type, rest)) :
    rest <:+ text := by
  obtain ⟨blanks, rfl, _⟩ := braces?_eq_some_iff.mp h
  exact ⟨blanks ++ '\x7b' :: (type ++ ['\x7d']), by simp⟩

/-- Braces that were read are read in longer texts too. -/
theorem braces?_append {type rest : Text} (h : braces? text = some (type, rest)) (more : Text) :
    braces? (text ++ more) = some (type, rest ++ more) := by
  obtain ⟨blanks, rfl, hblanks, hclose⟩ := braces?_eq_some_iff.mp h
  exact braces?_eq_some_iff.mpr ⟨blanks, by simp, hblanks, hclose⟩

/-- Braces that are missing are still missing, unless they are open at the end. -/
theorem braces?_append_eq_none (htext : text.Tail) (h : braces? text = none)
    (hopen : ¬ OpensBraces text) (more : Text) : braces? (text ++ more) = none := by
  obtain ⟨c, inner, htrim, hc⟩ := htext.exists_trimStart_eq_cons
  have hsplit : text = text.takeWhile Text.isBlank ++ c :: inner := by
    rw [← htrim, Text.trimStart, List.takeWhile_append_dropWhile]
  have hblanks := Text.allBlank_takeWhile text
  -- An opening brace here would be closed, and then read, or be open at the end.
  have hbrace : c ≠ '\x7b' := by
    rintro rfl
    by_cases hclose : '\x7d' ∈ inner
    · obtain ⟨type, rest, hinner, htype⟩ := List.eq_append_cons_of_mem hclose
      rw [hinner] at hsplit
      rw [braces?_eq_some_iff.mpr ⟨_, hsplit, hblanks, htype⟩] at h
      contradiction
    · exact hopen ⟨_, inner, hsplit, hblanks, hclose⟩
  have hmore : Text.trimStart (text ++ more) = c :: (inner ++ more) := by
    rw [hsplit, List.append_assoc]
    refine Text.trimStart_append hblanks ?_
    intro d hd
    cases hd
    exact hc
  rw [braces?, hmore]
  simp [hbrace]

/-- The word of a line is complete when a blank follows the line. -/
theorem word?_append (htext : text.Tail) {token rest : Text}
    (h : word? text = some (token, rest)) (hmore : ∀ c ∈ more.head?, Text.isBlank c = true) :
    token ≠ [] ∧ word? (text ++ more) = some (token, rest ++ more) := by
  have hne : token ≠ [] := by
    obtain ⟨c, inner, htrim, hc⟩ := htext.exists_trimStart_eq_cons
    unfold word? at h
    split at h
    · rw [htrim] at h
      simp only [Option.some.injEq, Prod.mk.injEq] at h
      rw [← h.1]
      simp [hc]
    · contradiction
  refine ⟨hne, ?_⟩
  obtain ⟨blanks, rfl, hblanks, hblank, htoken, hrest⟩ := (word?_eq_some_iff hne).mp h
  refine (word?_eq_some_iff hne).mpr ⟨blanks, by simp, hblanks, hblank, htoken, ?_⟩
  intro c hc
  cases rest with
  | nil => exact hmore c hc
  | cons d rest => exact hrest c hc

/-- A text in which no word starts has none when it is longer. -/
theorem word?_append_eq_none (hne : text ≠ []) (h : word? text = none) :
    word? (text ++ more) = none := by
  unfold word? at h
  split at h
  · contradiction
  · rename_i hstart
    rw [word?, startsBlank_append hne, if_neg hstart]

end Append

/-! ## Lines that end too early -/

/-- A line that ends before its tag does: after the label, within the braces of a type,
after the braces of the type that a path has to follow, or after empty braces that a
description has to follow. -/
inductive Unfinished : Text → Prop
  | bare {label : Text} (hlabel : label ∈ ["name".toList, "param".toList, "throws".toList]) :
      Unfinished ('@' :: label)
  | paramOpen {blanks type : Text} (hblanks : Text.allBlank blanks = true)
      (hopen : '\x7d' ∉ type) : Unfinished ("@param".toList ++ (blanks ++ '\x7b' :: type))
  | paramType {blanks type : Text} (hblanks : Text.allBlank blanks = true)
      (hclose : '\x7d' ∉ type) :
      Unfinished ("@param".toList ++ (blanks ++ '\x7b' :: (type ++ ['\x7d'])))
  | throwsOpen {type : Text} (hopen : '\x7d' ∉ type) :
      Unfinished ("@throws".toList ++ '\x7b' :: type)
  | throwsType {blanks type : Text} (hblanks : Text.allBlank blanks = true)
      (htype : Text.allBlank type = true) :
      Unfinished ("@throws".toList ++ (blanks ++ '\x7b' :: (type ++ ['\x7d'])))

end Tag

/-! ## The three grammars -/

section Grammars

variable {text more : Text}

/-- A name tag is malformed only if the text is glued to the tag. -/
theorem Tag.parseName?_append_eq_none (htext : text.Tail)
    (h : Tag.parseName? ("@name".toList ++ text) = none) (more : Text) :
    Tag.parseName? ("@name".toList ++ (text ++ more)) = none := by
  have hglued : Tag.Glued text := by
    refine Tag.glued_of_remainder?_eq_none htext.one_line ?_
    rw [Option.eq_none_iff_forall_ne_some]
    intro rest hrest
    have hne := (htext.field?_of_remainder? hrest).2
    simp only [parseName?, Text.after?_eq_some_iff.mpr rfl, hrest, Option.bind_eq_bind,
      Option.bind_some, if_neg hne] at h
    contradiction
  simp only [parseName?, Text.after?_eq_some_iff.mpr rfl, (hglued.append more).remainder?_eq_none,
    Option.bind_eq_bind, Option.bind_some, Option.bind_none]

/-- The type part is settled when it neither is open nor ends the line. -/
theorem ParamEntry.typePart_append (htext : text.Tail) (hopen : ¬ Tag.OpensBraces text)
    (hclosed : ∀ type, Tag.braces? text ≠ some (type, [])) (more : Text) :
    typePart (text ++ more) = ((typePart text).1, (typePart text).2 ++ more) := by
  unfold typePart
  cases hbraces : Tag.braces? text with
  | none => rw [Tag.braces?_append_eq_none htext hbraces hopen]
  | some parts =>
      obtain ⟨type, rest⟩ := parts
      have hne : rest ≠ [] := by
        rintro rfl
        exact hclosed type hbraces
      simp only [Tag.braces?_append hbraces, Tag.startsBlank_append hne]
      split <;> rfl

/-- What follows the type of an entry is a tail. -/
theorem ParamEntry.tail_typePart (htext : text.Tail) : (typePart text).2.Tail := by
  unfold typePart
  split
  · rename_i type rest hbraces
    split
    · rename_i hstart
      refine htext.of_suffix (Tag.suffix_of_braces? hbraces) ?_
      rintro rfl
      contradiction
    · exact htext
  · exact htext

/-- The fields are wrong only if there is no word or the word is no path. -/
theorem ParamEntry.ofFields?_append_eq_none (htext : text.Tail) {type : Option Text}
    (h : ofFields? type text = none) (hmore : ∀ c ∈ more.head?, Text.isBlank c = true) :
    ofFields? type (text ++ more) = none := by
  cases hword : Tag.word? text with
  | none =>
      rw [ofFields?, Tag.word?_append_eq_none htext.ne_nil hword]
      rfl
  | some parts =>
      obtain ⟨token, rest⟩ := parts
      obtain ⟨hne, hword'⟩ := Tag.word?_append htext hword hmore
      obtain ⟨blanks, htext', _, _, _, hrest⟩ := (Tag.word?_eq_some_iff hne).mp hword
      have hline : '\n' ∉ rest := by
        intro hmem
        exact htext.one_line (by rw [htext']; simp [hmem])
      cases hpath : FieldPath.parse? token with
      | none => simp [ofFields?, hword', hpath]
      | some path =>
          -- With a path only the remainder could be refused, but it starts with a blank.
          exfalso
          cases hremainder : Text.remainder? rest with
          | none =>
              obtain ⟨hne', hstart⟩ := Tag.glued_of_remainder?_eq_none hline hremainder
              obtain ⟨c, rest, rfl⟩ := List.exists_cons_of_ne_nil hne'
              have hblank : Tag.startsBlank (c :: rest) = true := hrest c rfl
              rw [hblank] at hstart
              contradiction
          | some description => simp [ofFields?, hword, hpath, hremainder] at h

/-- A finished line that gives no entry gives none when it is longer. -/
theorem ParamEntry.parse?_append_eq_none (htext : text.Tail)
    (hfinished : ¬ Tag.Unfinished ("@param".toList ++ text))
    (h : parse? ("@param".toList ++ text) = none)
    (hmore : ∀ c ∈ more.head?, Text.isBlank c = true) :
    parse? ("@param".toList ++ (text ++ more)) = none := by
  have hopen : ¬ Tag.OpensBraces text := by
    rintro ⟨blanks, type, rfl, hblanks, hopen⟩
    exact hfinished (.paramOpen hblanks hopen)
  have hclosed : ∀ type, Tag.braces? text ≠ some (type, []) := by
    intro type hbraces
    obtain ⟨blanks, rfl, hblanks, hclose⟩ := Tag.braces?_eq_some_iff.mp hbraces
    exact hfinished (.paramType hblanks hclose)
  rw [parse?, Text.after?_eq_some_iff.mpr rfl, Option.bind_some, ofText?_eq] at h ⊢
  rw [typePart_append htext hopen hclosed]
  exact ofFields?_append_eq_none (tail_typePart htext) h hmore

/-- The line of a documented error is read with a type or without one. -/
theorem Throws.parse?_eq (text : Text) :
    parse? ("@throws".toList ++ text) =
      ((typed? text).or (untyped? text)).bind fun throws =>
        if throws.isEmpty then none else some throws := by
  rw [parse?, Text.after?_eq_some_iff.mpr rfl]
  rfl

/-- A type in braces is refused only if something is glued to the braces, or if the
braces are empty and end the line. -/
theorem Throws.typed?_eq_none_of_parse? (htext : text.Tail)
    (hfinished : ¬ Tag.Unfinished ("@throws".toList ++ text))
    (h : parse? ("@throws".toList ++ text) = none) : typed? text = none := by
  rw [Option.eq_none_iff_forall_ne_some]
  intro throws hthrows
  rw [parse?_eq, hthrows, Option.some_or, Option.bind_some] at h
  simp only [typed?, Option.bind_eq_bind, Option.bind_eq_some_iff, Option.pure_def,
    Option.some.injEq] at hthrows
  obtain ⟨⟨type, rest⟩, hbraces, description, hrest, rfl⟩ := hthrows
  obtain ⟨blanks, rfl, hblanks, _⟩ := Tag.braces?_eq_some_iff.mp hbraces
  by_cases hne : rest = []
  · subst hne
    have hblank : Text.allBlank type = false := by
      by_contra hblank
      exact hfinished (.throwsType hblanks (by simpa using hblank))
    simp [isEmpty, Text.field?, Text.trim_ne_nil hblank] at h
  · have htail := htext.of_suffix (Tag.suffix_of_braces? hbraces) hne
    simp [isEmpty, (htail.field?_of_remainder? hrest).1] at h

/-- A finished line that cannot be read with a type cannot be read so when it is longer.
-/
theorem Throws.typed?_append_eq_none (htext : text.Tail)
    (hfinished : ¬ Tag.Unfinished ("@throws".toList ++ text)) (hglued : Tag.Glued text)
    (h : typed? text = none) (more : Text) : typed? (text ++ more) = none := by
  cases hbraces : Tag.braces? text with
  | none =>
      -- Open braces behind a blank would have been read as a description.
      have hopens : ¬ Tag.OpensBraces text := by
        rintro ⟨blanks, type, rfl, hblanks, hopen⟩
        cases blanks with
        | nil => exact hfinished (.throwsOpen hopen)
        | cons c blanks =>
            have hc : Text.isBlank c = true := Text.isBlank_of_mem hblanks List.mem_cons_self
            have hstart : Text.isBlank c = false := hglued.2
            rw [hc] at hstart
            contradiction
      rw [typed?, Tag.braces?_append_eq_none htext hbraces hopens]
      rfl
  | some parts =>
      obtain ⟨type, rest⟩ := parts
      have hline : '\n' ∉ rest := fun hmem =>
        htext.one_line ((Tag.suffix_of_braces? hbraces).subset hmem)
      have hrest : Tag.Glued rest := by
        refine Tag.glued_of_remainder?_eq_none hline ?_
        rw [Option.eq_none_iff_forall_ne_some]
        intro description hdescription
        simp [typed?, hbraces, hdescription] at h
      simp [typed?, Tag.braces?_append hbraces, (hrest.append more).remainder?_eq_none]

/-- A throws tag is malformed only if something is glued to the tag, and to the braces
if there are any. -/
theorem Throws.parse?_append_eq_none (htext : text.Tail)
    (hfinished : ¬ Tag.Unfinished ("@throws".toList ++ text))
    (h : parse? ("@throws".toList ++ text) = none) (more : Text) :
    parse? ("@throws".toList ++ (text ++ more)) = none := by
  have htyped := typed?_eq_none_of_parse? htext hfinished h
  have hglued : Tag.Glued text := by
    refine Tag.glued_of_remainder?_eq_none htext.one_line ?_
    rw [Option.eq_none_iff_forall_ne_some]
    intro rest hrest
    have hfield := (htext.field?_of_remainder? hrest).1
    rw [parse?_eq, htyped, untyped?, hrest] at h
    simp [isEmpty, hfield] at h
  have huntyped : untyped? (text ++ more) = none := by
    rw [untyped?, (hglued.append more).remainder?_eq_none, Option.map_none]
  rw [parse?_eq, typed?_append_eq_none htext hfinished hglued htyped, huntyped]
  rfl

end Grammars

/-! ## Malformed lines -/

namespace Tag

/-- A label stands at the start of its line. -/
theorem exists_eq_of_label? {line label : Text} (h : label? line = some label) :
    ∃ text, line = ('@' :: label) ++ text := by
  unfold label? at h
  split at h
  · rename_i rest
    split at h
    · contradiction
    · cases h
      exact ⟨rest.dropWhile Text.isLetter,
        by rw [List.cons_append, List.takeWhile_append_dropWhile]⟩
  · contradiction

/-- Something follows the label of a line that is not unfinished, if the label has a
grammar. -/
theorem exists_tail_of_label? {line : Text} (label : Text)
    (hmem : label ∈ ["name".toList, "param".toList, "throws".toList]) (hline : line.Inline)
    (hlabel : label? line = some label) (hfinished : ¬ Unfinished line) :
    ∃ text, line = ('@' :: label) ++ text ∧ text.Tail := by
  obtain ⟨text, rfl⟩ := exists_eq_of_label? hlabel
  refine ⟨text, rfl, hline.tail ?_⟩
  rintro rfl
  rw [List.append_nil] at hfinished
  exact hfinished (.bare hmem)

/-- A malformed line that is not unfinished stays malformed whatever follows it. -/
theorem parse?_append_eq_none {line more : Text} (hline : line.Inline)
    (hstart : Comment.startsTag line = true) (h : parse? line = none)
    (hfinished : ¬ Unfinished line) (hmore : ∀ c ∈ more.head?, Text.isBlank c = true) :
    parse? (line ++ more) = none := by
  have hlabels : label? (line ++ more) = label? line :=
    label?_append_of_startsTag hstart fun c hc => Text.isLetter_of_isBlank (hmore c hc)
  rw [Option.eq_none_iff_forall_ne_some]
  intro tag htag
  cases reads_of_parse? htag with
  | name hlabel hparse =>
      rw [hlabels] at hlabel
      obtain ⟨text, rfl, htext⟩ : ∃ text, line = "@name".toList ++ text ∧ text.Tail :=
        exists_tail_of_label? "name".toList (by simp) hline hlabel hfinished
      rw [parse?_of_name hlabel, Option.map_eq_none_iff] at h
      rw [List.append_assoc, parseName?_append_eq_none htext h] at hparse
      contradiction
  | param hlabel hparse =>
      rw [hlabels] at hlabel
      obtain ⟨text, rfl, htext⟩ : ∃ text, line = "@param".toList ++ text ∧ text.Tail :=
        exists_tail_of_label? "param".toList (by simp) hline hlabel hfinished
      rw [parse?_of_param hlabel, Option.map_eq_none_iff] at h
      rw [List.append_assoc, ParamEntry.parse?_append_eq_none htext hfinished h hmore] at hparse
      contradiction
  | throws hlabel hparse =>
      rw [hlabels] at hlabel
      obtain ⟨text, rfl, htext⟩ : ∃ text, line = "@throws".toList ++ text ∧ text.Tail :=
        exists_tail_of_label? "throws".toList (by simp) hline hlabel hfinished
      rw [parse?_of_throws hlabel, Option.map_eq_none_iff] at h
      rw [List.append_assoc, Throws.parse?_append_eq_none htext hfinished h] at hparse
      contradiction
  | other hlabel hname hparam hthrows =>
      rw [hlabels] at hlabel
      rw [parse?_of_label? hlabel hname hparam hthrows] at h
      contradiction

end Tag

/-! ## Completions -/

/-- A continuation line with which the line says something. -/
structure Tag.Completes (line more : Text) : Prop where
  inline : more.Inline
  ne_nil : more ≠ []
  continues : Comment.startsTag more = false
  not_idle : ¬ Tag.Idle [] (line ++ ' ' :: more)

section Completions

variable {text type : Text}

/-- A word behind the braces makes a parameter line an entry. -/
theorem Tag.not_idle_param (h : Tag.braces? text = some (type, " x".toList)) :
    ¬ Tag.Idle [] ("@param".toList ++ text) := by
  have hpart : ParamEntry.typePart text = (some type, " x".toList) := by
    rw [ParamEntry.typePart, h]
    rfl
  have hentry : ∃ entry, ParamEntry.parse? ("@param".toList ++ text) = some entry := by
    rw [ParamEntry.parse?, Text.after?_eq_some_iff.mpr rfl, Option.bind_some,
      ParamEntry.ofText?_eq, hpart]
    exact ⟨_, rfl⟩
  obtain ⟨entry, hentry⟩ := hentry
  intro hidle
  have hnone := hidle.entry
  rw [entryOf?, parse?_eq_param_iff.mpr hentry] at hnone
  contradiction

/-- A word behind the braces makes a throws line a documented error. -/
theorem Tag.not_idle_throws (h : Tag.braces? text = some (type, " x".toList)) :
    ¬ Tag.Idle [] ("@throws".toList ++ text) := by
  have htyped : Throws.typed? text = some ⟨Text.field? type, some "x".toList⟩ := by
    rw [Throws.typed?, h]
    rfl
  have hthrows : Throws.parse? ("@throws".toList ++ text) =
      some ⟨Text.field? type, some "x".toList⟩ := by
    rw [Throws.parse?_eq, htyped]
    simp [Throws.isEmpty]
  intro hidle
  have hnone := hidle.throws
  rw [throwsOf?, parse?_eq_throws_iff.mpr hthrows] at hnone
  simp at hnone

/-- Open braces are closed by a line that starts with the closing brace. -/
theorem Tag.OpensBraces.exists_braces? (h : OpensBraces text) :
    ∃ type, braces? (text ++ ' ' :: "\x7d x".toList) = some (type, " x".toList) := by
  obtain ⟨blanks, type, rfl, hblanks, hopen⟩ := h
  exact ⟨type ++ [' '], braces?_eq_some_iff.mpr ⟨blanks, by simp, hblanks, by simp [hopen]⟩⟩

/-- Every unfinished line has a continuation line with which it says something. -/
theorem Tag.Unfinished.exists_completes {line : Text} (h : Unfinished line) :
    ∃ more, Completes line more := by
  have byWord : ¬ Idle [] (line ++ ' ' :: "x".toList) → ∃ more, Completes line more :=
    fun hidle => ⟨"x".toList, by decide, by decide, by decide, hidle⟩
  have byClose : ¬ Idle [] (line ++ ' ' :: "\x7d x".toList) → ∃ more, Completes line more :=
    fun hidle => ⟨"\x7d x".toList, by decide, by decide, by decide, hidle⟩
  cases h with
  | bare hlabel =>
      apply byWord
      simp only [List.mem_cons, List.not_mem_nil, or_false] at hlabel
      rcases hlabel with rfl | rfl | rfl
      · exact fun hidle => absurd hidle.name (by decide)
      · exact fun hidle => absurd hidle.entry (by decide)
      · exact fun hidle => absurd hidle.throws (by decide)
  | paramOpen hblanks hopen =>
      apply byClose
      obtain ⟨type, hbraces⟩ := OpensBraces.exists_braces? ⟨_, _, rfl, hblanks, hopen⟩
      rw [List.append_assoc]
      exact not_idle_param hbraces
  | @paramType blanks type hblanks hclose =>
      apply byWord
      rw [List.append_assoc]
      exact not_idle_param (braces?_eq_some_iff.mpr ⟨blanks, by simp, hblanks, hclose⟩)
  | throwsOpen hopen =>
      apply byClose
      obtain ⟨type, hbraces⟩ := OpensBraces.exists_braces? ⟨[], _, rfl, rfl, hopen⟩
      rw [List.append_assoc]
      exact not_idle_throws hbraces
  | @throwsType blanks type hblanks htype =>
      apply byWord
      have hclose : '\x7d' ∉ type := fun hmem =>
        absurd (Text.isBlank_of_mem htype hmem) (by decide)
      rw [List.append_assoc]
      exact not_idle_throws (braces?_eq_some_iff.mpr ⟨blanks, by simp, hblanks, hclose⟩)

end Completions
end DocComment
