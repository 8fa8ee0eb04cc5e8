import DocComment.Text.Identifier

/-!
# Trimmed texts

A text is trimmed when no blank stands at its ends.  Such texts are what fields
hold, and what a reader gives back when they stand between blanks.

Main results:

- Theorem `Text.trimmed_iff`: a text is trimmed exactly when its first and its
  last character are not blank.
- Theorem `Text.takeWhile_append_eq`: a word is read up to the first character
  that does not belong to it.
- Theorem `Text.of_mem_splitOnP`: what the parts between separators hold.
- Theorem `Text.Inline.remainder?_spaced`: a text on one line is read back after
  a space.
-/

namespace DocComment
namespace Text

/-- Trimming leaves the text as it is. -/
def Trimmed (text : Text) : Prop :=
  trim text = text

instance (text : Text) : Decidable (Trimmed text) :=
  inferInstanceAs (Decidable (trim text = text))

theorem Trimmed.trim_eq {text : Text} (h : Trimmed text) : trim text = text :=
  h

/-- Nothing is trimmed from a start that is not blank. -/
theorem trimStart_eq_self_iff {text : Text} :
    trimStart text = text ↔ ∀ c ∈ text.head?, isBlank c = false := by
  cases text with
  | nil => simp [trimStart]
  | cons c rest =>
      constructor
      · intro h d hd
        cases hd
        exact isBlank_of_trimStart_eq_cons h
      · intro h
        simp [trimStart, h c (by simp)]

/-- Nothing is trimmed from an end that is not blank. -/
theorem trimEnd_eq_self_iff {text : Text} :
    trimEnd text = text ↔ ∀ c ∈ text.getLast?, isBlank c = false := by
  have h := @trimStart_eq_self_iff text.reverse
  rw [List.head?_reverse] at h
  rw [← h, trimEnd, trimStart]
  constructor
  · intro heq
    rw [← List.reverse_reverse (text.reverse.dropWhile isBlank), heq]
  · intro heq
    rw [heq, List.reverse_reverse]

/-- Trimming both ends leaves a text alone only if trimming each end does. -/
theorem Trimmed.trimStart_eq {text : Text} (h : Trimmed text) : trimStart text = text := by
  have hsuffix : trimStart text <:+ text := List.dropWhile_suffix isBlank
  have hlength := length_trimEnd_le (trimStart text)
  have htrim : (trimEnd (trimStart text)).length = text.length := congrArg List.length h
  exact hsuffix.eq_of_length_le (by omega)

/-- Nothing is trimmed from the end of a trimmed text. -/
theorem Trimmed.trimEnd_eq {text : Text} (h : Trimmed text) : trimEnd text = text := by
  have htrim : trimEnd (trimStart text) = text := h
  rwa [h.trimStart_eq] at htrim

/-- A text is trimmed when neither its first nor its last character is blank. -/
theorem trimmed_iff {text : Text} :
    Trimmed text ↔ (∀ c ∈ text.head?, isBlank c = false) ∧
      ∀ c ∈ text.getLast?, isBlank c = false := by
  rw [← trimStart_eq_self_iff, ← trimEnd_eq_self_iff]
  constructor
  · intro h
    exact ⟨h.trimStart_eq, h.trimEnd_eq⟩
  · rintro ⟨hstart, hend⟩
    rw [Trimmed, trim, hstart, hend]

theorem trimmed_nil : Trimmed [] :=
  rfl

/-! ## Texts around trimmed texts -/

/-- A text that starts and ends with trimmed texts is trimmed. -/
theorem Trimmed.append_append {first last : Text} (h : Trimmed first) (hne : first ≠ [])
    (h' : Trimmed last) (hne' : last ≠ []) (middle : Text) :
    Trimmed (first ++ middle ++ last) := by
  rw [trimmed_iff]
  constructor
  · intro c hc
    rcases List.exists_cons_of_ne_nil hne with ⟨d, first, rfl⟩
    exact (trimmed_iff.mp h).1 c (by simpa using hc)
  · intro c hc
    rw [List.getLast?_append, List.getLast?_eq_some_getLast hne'] at hc
    exact (trimmed_iff.mp h').2 c (by rw [List.getLast?_eq_some_getLast hne']; exact hc)

/-- A trimmed text with a character is not blank. -/
theorem Trimmed.allBlank_eq_false {text : Text} (h : Trimmed text) (hne : text ≠ []) :
    allBlank text = false := by
  rcases List.exists_cons_of_ne_nil hne with ⟨c, text, rfl⟩
  simp [allBlank, (trimmed_iff.mp h).1 c (by simp)]

/-- A trimmed text that is not empty is a field as it is. -/
theorem Trimmed.field?_eq {text : Text} (h : Trimmed text) (hne : text ≠ []) :
    field? text = some text := by
  simp [field?, h.trim_eq, hne]

/-! ## Words -/

/-- The characters of identifiers are not blank. -/
theorem isBlank_of_isIdentPart {c : Char} (h : isIdentPart c = true) :
    isBlank c = false := by
  have hcode : c.toNat = 0x24 ∨ (0x30 ≤ c.toNat ∧ c.toNat ≤ 0x7A) := by
    simp only [isIdentPart, isIdentStart, isLetter, isDigit, Bool.or_eq_true,
      Bool.and_eq_true, decide_eq_true_eq, beq_iff_eq, Char.le_def, UInt32.le_iff_toNat_le] at h
    rcases h with (((⟨hlow, hhigh⟩ | ⟨hlow, hhigh⟩) | rfl) | rfl) | ⟨hlow, hhigh⟩
    · exact .inr ⟨Nat.le_trans (by decide) hlow, Nat.le_trans hhigh (by decide)⟩
    · exact .inr ⟨Nat.le_trans (by decide) hlow, hhigh⟩
    · exact .inr (by decide)
    · exact .inl (by decide)
    · exact .inr ⟨hlow, Nat.le_trans hhigh (by decide)⟩
  simp only [isBlank, inRanges, blankRanges, List.any_cons, List.any_nil,
    Bool.or_eq_false_iff, Bool.and_eq_false_iff, decide_eq_false_iff_not, and_true]
  omega

/-- A word ends where the first character stands that does not belong to it. -/
theorem takeWhile_append_eq {α : Type} {p : α → Bool} {word rest : List α}
    (hword : ∀ c ∈ word, p c = true) (hrest : ∀ c ∈ rest.head?, p c = false) :
    (word ++ rest).takeWhile p = word := by
  rw [List.takeWhile_append_of_pos hword]
  cases rest with
  | nil => simp
  | cons c rest => simp [hrest c (by simp)]

/-- What follows a word starts at the first character that does not belong to it. -/
theorem dropWhile_append_eq {α : Type} {p : α → Bool} {word rest : List α}
    (hword : ∀ c ∈ word, p c = true) (hrest : ∀ c ∈ rest.head?, p c = false) :
    (word ++ rest).dropWhile p = rest := by
  rw [List.dropWhile_append_of_pos hword]
  cases rest with
  | nil => simp
  | cons c rest => simp [hrest c (by simp)]

/-! ## Parts between separators -/

/-- The parts of a list hold members of the list, and no separator among them. -/
theorem of_mem_splitOnP {α : Type} {p : α → Bool} {xs part : List α}
    (h : part ∈ xs.splitOnP p) {x : α} (hx : x ∈ part) : x ∈ xs ∧ p x = false := by
  induction xs generalizing part with
  | nil =>
      rw [List.splitOnP_nil, List.mem_singleton] at h
      rw [h] at hx
      contradiction
  | cons y rest ih =>
      have hlater : ∀ {part}, part ∈ rest.splitOnP p → x ∈ part → x ∈ y :: rest ∧ p x = false := by
        intro part hpart hx
        obtain ⟨hmem, hp⟩ := ih hpart hx
        exact ⟨List.mem_cons_of_mem y hmem, hp⟩
      rw [List.splitOnP_cons_eq_if_modifyHead] at h
      split at h
      · rcases List.mem_cons.mp h with hnil | hrest
        · rw [hnil] at hx
          contradiction
        · exact hlater hrest hx
      · rename_i hy
        -- A member that is no separator belongs to the first part of the rest.
        obtain ⟨first, others, hparts⟩ := List.exists_cons_of_ne_nil (List.splitOnP_ne_nil p rest)
        rw [hparts, List.modifyHead_cons] at h
        rw [hparts] at hlater
        rcases List.mem_cons.mp h with hfirst | hothers
        · rw [hfirst] at hx
          rcases List.mem_cons.mp hx with heq | hmem
          · rw [heq]
            exact ⟨List.mem_cons_self, by simpa using hy⟩
          · exact hlater List.mem_cons_self hmem
        · exact hlater (List.mem_cons_of_mem first hothers) hx

/-- No part between separators holds one. -/
theorem notMem_of_mem_splitOn {a : Char} {text part : Text} (h : part ∈ text.splitOn a) :
    a ∉ part := by
  rw [List.splitOn_eq_splitOnP] at h
  intro hmem
  have hp := (of_mem_splitOnP h hmem).2
  simp at hp

/-! ## Texts on one line -/

/-- A trimmed text on one line. -/
structure Inline (text : Text) : Prop where
  trimmed : Trimmed text
  one_line : '\n' ∉ text

instance (text : Text) : Decidable (Inline text) :=
  decidable_of_iff (Trimmed text ∧ '\n' ∉ text)
    ⟨fun h => ⟨h.1, h.2⟩, fun h => ⟨h.trimmed, h.one_line⟩⟩

theorem inline_nil : Inline [] :=
  ⟨trimmed_nil, List.not_mem_nil⟩

theorem isBlank_newline : isBlank '\n' = true := by
  decide

/-- A text without blanks stands on one line. -/
theorem inline_of_forall_not_blank {text : Text} (h : ∀ c ∈ text, isBlank c = false) :
    Inline text := by
  refine ⟨trimmed_iff.mpr ⟨?_, ?_⟩, ?_⟩
  · intro c hc
    exact h c (List.mem_of_mem_head? hc)
  · intro c hc
    exact h c (List.mem_of_mem_getLast? hc)
  · intro hmem
    have hblank := h _ hmem
    rw [isBlank_newline] at hblank
    contradiction

/-- Two clean lines that are not empty make one clean line. -/
theorem Inline.append {first last : Text} (h : Inline first) (hne : first ≠ [])
    (h' : Inline last) (hne' : last ≠ []) : Inline (first ++ last) where
  trimmed := by simpa using h.trimmed.append_append hne h'.trimmed hne' []
  one_line := by simp [h.one_line, h'.one_line]

/-! ## One space and a text -/

/-- A text with a space before it, or nothing for the empty text. -/
def spaced (text : Text) : Text :=
  if text = [] then [] else ' ' :: text

theorem isBlank_space : isBlank ' ' = true := by
  decide

theorem trimStart_space (text : Text) : trimStart (' ' :: text) = trimStart text := by
  simp [trimStart, isBlank_space]

/-- The space before a text is trimmed away. -/
theorem Trimmed.trimStart_spaced {text : Text} (h : Trimmed text) :
    trimStart (spaced text) = text := by
  unfold spaced
  split
  · rename_i hnil
    rw [hnil]
    rfl
  · rw [trimStart_space, h.trimStart_eq]

/-- A text behind a space is read back by trimming. -/
theorem Trimmed.trim_spaced {text : Text} (h : Trimmed text) : trim (spaced text) = text := by
  rw [trim, h.trimStart_spaced, h.trimEnd_eq]

/-- A text on one line is read back after a space. -/
theorem Inline.remainder?_spaced {text : Text} (h : Inline text) :
    remainder? (spaced text) = some text := by
  unfold spaced
  split
  · rename_i hnil
    rw [hnil]
    rfl
  · simp [remainder?, isBlank_space, h.trimmed.trimStart_eq, h.one_line]

/-- Two texts with a space between them stand on one line. -/
theorem Inline.append_spaced {first text : Text} (h : Inline first) (hne : first ≠ [])
    (h' : Inline text) : Inline (first ++ spaced text) := by
  unfold spaced
  split
  · simpa using h
  · rename_i hne'
    refine ⟨?_, by simp [h.one_line, h'.one_line]⟩
    simpa using h.trimmed.append_append hne h'.trimmed hne' [' ']

end Text
end DocComment
