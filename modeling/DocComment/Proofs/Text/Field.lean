import DocComment.Proofs.Comment.Delimiters

/-!
# Fields

What the readers of fields give back, whatever they read.  Trimming gives a
trimmed text, the remainder of a line starts with no blank and holds no line
feed, and a field that is there says something.

Main results:

- Theorem `Text.trimmed_trim`: trimming gives a trimmed text.
- Theorem `Text.exists_eq_trimEnd_append`: a text is what trimming its end leaves, and
  blanks.
- Theorem `Text.remainder?_eq_some`: the remainder of a line.
- Definition `Text.Filled`: a field that says something.
- Theorem `Text.filled_of_field?`: a field of a text on one line is filled.
-/

namespace DocComment
namespace Text

/-! ## Trimming -/

/-- Trimming the end of a text that starts with no blank leaves a trimmed text. -/
theorem trimmed_trimEnd {text : Text} (h : trimStart text = text) : Trimmed (trimEnd text) := by
  rw [trimmed_iff]
  constructor
  · cases text with
    | nil => simp [trimEnd]
    | cons c rest =>
        have hc := isBlank_of_trimStart_eq_cons h
        rw [trimEnd_cons hc]
        intro d hd
        rw [List.head?_cons, Option.mem_some] at hd
        rw [← hd, hc]
  · exact trimEnd_eq_self_iff.mp (trimEnd_trimEnd text)

/-- Trimming gives a trimmed text. -/
theorem trimmed_trim (text : Text) : Trimmed (trim text) :=
  trimmed_trimEnd (trimStart_trimStart text)

theorem mem_of_mem_trimEnd {c : Char} {text : Text} (h : c ∈ trimEnd text) : c ∈ text := by
  have hstart := trimEnd_prefix text
  exact hstart.subset h

theorem mem_of_mem_trim {c : Char} {text : Text} (h : c ∈ trim text) : c ∈ text :=
  (List.dropWhile_suffix isBlank).subset (mem_of_mem_trimEnd h)

/-- A text without line feeds is a clean line after trimming. -/
theorem inline_trim {text : Text} (h : '\n' ∉ text) : Inline (trim text) where
  trimmed := trimmed_trim text
  one_line := fun hmem => h (mem_of_mem_trim hmem)

/-! ## The ends of a text -/

/-- Trimming the start does not change whether there is a character that is not blank. -/
theorem allBlank_trimStart (text : Text) : allBlank (trimStart text) = allBlank text := by
  have hsplit : text.takeWhile isBlank ++ trimStart text = text :=
    List.takeWhile_append_dropWhile
  have hblank : (text.takeWhile isBlank).all isBlank = true := List.all_takeWhile
  rw [allBlank, allBlank, ← hsplit, List.all_append, hblank, Bool.true_and, hsplit]

/-- A text is what trimming its end leaves, and blanks. -/
theorem exists_eq_trimEnd_append (text : Text) :
    ∃ blanks, text = trimEnd text ++ blanks ∧ allBlank blanks = true := by
  refine ⟨(text.reverse.takeWhile isBlank).reverse, ?_, ?_⟩
  · rw [trimEnd, ← List.reverse_append, List.takeWhile_append_dropWhile, List.reverse_reverse]
  · rw [allBlank, List.all_reverse, List.all_takeWhile]

/-- Trimming does not change whether there is a character that is not blank. -/
theorem allBlank_trim (text : Text) : allBlank (trim text) = allBlank text := by
  rcases exists_eq_trimEnd_append (trimStart text) with ⟨blanks, hsplit, hblanks⟩
  rw [← allBlank_trimStart text, hsplit]
  simp only [allBlank] at hblanks ⊢
  rw [List.all_append, hblanks, Bool.and_true, trim]

/-- Blanks at the start are dropped up to a character that is not blank. -/
theorem trimStart_append_cons {c : Char} (h : isBlank c = false) (text rest : Text) :
    trimStart (text ++ c :: rest) = trimStart text ++ c :: rest := by
  rw [trimStart, List.dropWhile_append]
  split
  · rename_i hempty
    rw [trimStart, List.isEmpty_iff.mp hempty, List.dropWhile_cons_of_neg (by simp [h]),
      List.nil_append]
  · rfl

/-- Blanks at the end are dropped back to a character that is not blank. -/
theorem trimEnd_append {text : Text} (h : trimEnd text ≠ []) (before : Text) :
    trimEnd (before ++ text) = before ++ trimEnd text := by
  rw [trimEnd, List.reverse_append, List.dropWhile_append]
  split
  · rename_i hempty
    exact absurd (by rw [trimEnd, List.isEmpty_iff.mp hempty]; rfl) h
  · rw [List.reverse_append, List.reverse_reverse, trimEnd]

/-- A fixed text in two parts. -/
theorem after?_append (lead lead' text : Text) :
    after? (lead ++ lead') text = (after? lead text).bind (after? lead') := by
  fun_induction after? lead text with
  | case1 text => rfl
  | case2 a lead => rfl
  | case3 lead b text ih => simp [after?, ih]
  | case4 a lead b text h => simp [after?, h]

/-- A fixed text does not go on into a rest that starts with another character. -/
theorem after?_append_of_notMem {lead rest : Text} (h : ∀ c ∈ rest.head?, c ∉ lead)
    (text : Text) : after? lead (text ++ rest) = (after? lead text).map (· ++ rest) := by
  fun_induction after? lead text with
  | case1 text => rfl
  | case2 a lead =>
      cases rest with
      | nil => rfl
      | cons c rest =>
          have hne : a ≠ c := fun hac => h c rfl (hac ▸ List.mem_cons_self)
          rw [List.nil_append, after?, if_neg hne]
          rfl
  | case3 lead b text ih =>
      rw [List.cons_append, after?, if_pos rfl]
      exact ih fun c hc hmem => h c hc (List.mem_cons_of_mem b hmem)
  | case4 a lead b text hne =>
      rw [List.cons_append, after?, if_neg hne]
      rfl

/-- A text that ends with a character which is not blank keeps its end. -/
theorem trim_append_cons {c : Char} (h : isBlank c = false) (text : Text) :
    trim (text ++ [c]) = trimStart text ++ [c] := by
  rw [trim, trimStart_append_cons h, trimEnd_eq_self_iff]
  intro d hd
  rw [List.getLast?_concat, Option.mem_some] at hd
  rw [← hd, h]

/-- Nothing is left of a text only if it holds blanks only. -/
theorem trim_ne_nil {text : Text} (h : allBlank text = false) : trim text ≠ [] := by
  intro hnil
  rw [← allBlank_trim, hnil] at h
  contradiction

/-! ## The remainder of a line -/

/-- The remainder of a line was in the line, holds no line feed and starts with no
blank. -/
theorem remainder?_eq_some {text rest : Text} (h : remainder? text = some rest) :
    rest <:+ text ∧ '\n' ∉ rest ∧ trimStart rest = rest := by
  cases text with
  | nil =>
      simp only [remainder?, Option.some.injEq] at h
      rw [← h]
      simp [trimStart]
  | cons c text =>
      simp only [remainder?] at h
      split at h
      · split at h
        · contradiction
        · rename_i hline
          rw [Option.some.injEq] at h
          rw [← h]
          refine ⟨?_, hline, trimStart_trimStart text⟩
          exact (List.dropWhile_suffix isBlank).trans (List.suffix_cons c text)
      · contradiction

/-- What stands on the same line after blanks, or at the end of the line, is read in
full. -/
theorem remainder?_of_isBlank {text : Text} (hblank : ∀ c ∈ text.head?, isBlank c = true)
    (hline : '\n' ∉ text) : remainder? text = some (trimStart text) := by
  cases text with
  | nil => rfl
  | cons c text =>
      have hc : isBlank c = true := hblank c rfl
      have hrest : '\n' ∉ trimStart text := by
        intro hmem
        exact hline (List.mem_cons_of_mem c ((List.dropWhile_suffix isBlank).subset hmem))
      have hstart : trimStart (c :: text) = trimStart text := by simp [trimStart, hc]
      rw [remainder?, if_pos hc, if_neg hrest, hstart]

/-! ## Fields that say something -/

/-- A text that says something: it is trimmed, stands on one line and is not
empty. -/
structure Filled (text : Text) : Prop where
  ne_nil : text ≠ []
  inline : Inline text

theorem Filled.allBlank_eq_false {text : Text} (h : Filled text) : allBlank text = false :=
  h.inline.trimmed.allBlank_eq_false h.ne_nil

/-- A text without line feeds that is not blank is a filled line after trimming. -/
theorem filled_trim {text : Text} (hline : '\n' ∉ text) (hblank : allBlank text = false) :
    Filled (trim text) :=
  ⟨trim_ne_nil hblank, inline_trim hline⟩

/-- A field of a text on one line is filled, if it is there. -/
theorem filled_of_field? {text value : Text} (h : field? text = some value)
    (hline : '\n' ∉ text) : Filled value := by
  unfold field? at h
  split at h
  · contradiction
  · rename_i hne
    rw [Option.some.injEq] at h
    rw [← h]
    exact ⟨hne, inline_trim hline⟩

/-- Two filled texts with a space between them are one. -/
theorem Filled.append_space {first last : Text} (h : Filled first) (h' : Filled last) :
    Filled (first ++ ' ' :: last) where
  ne_nil := by simp [h.ne_nil]
  inline := by
    have hspaced : spaced last = ' ' :: last := if_neg h'.ne_nil
    have hinline := h.inline.append_spaced h.ne_nil h'.inline
    rwa [hspaced] at hinline

end Text
end DocComment
