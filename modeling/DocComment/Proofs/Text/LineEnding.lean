import DocComment.Proofs.Text.Trimmed
import DocComment.Text.Affix

/-!
# Line endings

A text can end its lines with a line feed alone or with a carriage return and a
line feed.  Both characters are blank, and no reader of the library looks for
either of them in the fixed spellings at the ends of a text.  So trimming and
taking off a fixed text give the same whichever way lines end, and the lines
themselves differ in blanks at their ends only.

Main results:

- Definition `Text.crlf`: a text with the longer line endings.
- Theorem `Text.trim_crlf`: trimming does not mind the line endings.
- Theorems `Text.after?_crlf` and `Text.before?_crlf`: fixed texts at both ends.
- Theorem `Text.map_splitOn_crlf`: the lines of the two texts.
-/

namespace DocComment
namespace Text

variable {text : Text}

/-- How a character is written when lines end with a carriage return and a line
feed. -/
def ending (c : Char) : Text :=
  if c = '\n' then ['\r', '\n'] else [c]

/-- The text with a carriage return before every line feed. -/
def crlf (text : Text) : Text :=
  text.flatMap ending

@[simp]
theorem crlf_nil : crlf [] = [] := rfl

@[simp]
theorem crlf_line_feed (text : Text) : crlf ('\n' :: text) = '\r' :: '\n' :: crlf text := rfl

theorem ending_of_ne {c : Char} (h : c ≠ '\n') : ending c = [c] :=
  if_neg h

/-- Characters other than line feeds stay. -/
theorem crlf_cons {c : Char} (h : c ≠ '\n') (text : Text) : crlf (c :: text) = c :: crlf text := by
  rw [crlf, List.flatMap_cons, ending_of_ne h]
  rfl

@[simp]
theorem crlf_append (first last : Text) : crlf (first ++ last) = crlf first ++ crlf last :=
  List.flatMap_append

/-- A text without line feeds stays as it is. -/
theorem crlf_of_notMem (h : '\n' ∉ text) : crlf text = text := by
  induction text with
  | nil => rfl
  | cons c text ih =>
      simp only [List.mem_cons, not_or] at h
      rw [crlf_cons (Ne.symm h.1), ih h.2]

/-- The text from its end to its start. -/
theorem reverse_crlf (text : Text) :
    (crlf text).reverse = text.reverse.flatMap fun c => (ending c).reverse :=
  List.reverse_flatMap

/-! ## Texts whose characters are spelled out -/

section Spelling

variable (spell : Char → Text)

/-- Dropping characters does not mind how they are spelled out, when all that is
written for a character is dropped or kept with it. -/
theorem dropWhile_flatMap {p : Char → Bool} (hne : ∀ c, spell c ≠ [])
    (hp : ∀ c, ∀ d ∈ spell c, p d = p c) (text : Text) :
    (text.flatMap spell).dropWhile p = (text.dropWhile p).flatMap spell := by
  induction text with
  | nil => rfl
  | cons c text ih =>
      rw [List.flatMap_cons]
      by_cases hc : p c = true
      · rw [List.dropWhile_cons_of_pos hc, List.dropWhile_append_of_pos, ih]
        intro d hd
        rw [hp c d hd, hc]
      · obtain ⟨d, rest, hspell⟩ := List.exists_cons_of_ne_nil (hne c)
        have hd : ¬ p d = true := by
          rw [hp c d (by simp [hspell])]
          exact hc
        rw [List.dropWhile_cons_of_neg hc, List.flatMap_cons, hspell, List.cons_append,
          List.dropWhile_cons_of_neg hd]

/-- A fixed text is found at the start whichever way the other characters are
spelled out, when nothing else is written with its characters. -/
theorem after?_flatMap {lead : Text} (hne : ∀ c, spell c ≠ [])
    (hlead : ∀ c ∈ lead, spell c = [c] ∧ ∀ d, c ∈ spell d → d = c) (text : Text) :
    after? lead (text.flatMap spell) = (after? lead text).map (List.flatMap spell) := by
  induction lead generalizing text with
  | nil => rfl
  | cons a lead ih =>
      obtain ⟨ha, hother⟩ := hlead a List.mem_cons_self
      have ih := ih fun c hc => hlead c (List.mem_cons_of_mem a hc)
      cases text with
      | nil => rfl
      | cons b text =>
          rw [List.flatMap_cons]
          by_cases hab : a = b
          · subst hab
            rw [ha, List.singleton_append, after?, after?, if_pos rfl, if_pos rfl, ih]
          · obtain ⟨d, rest, hspell⟩ := List.exists_cons_of_ne_nil (hne b)
            have had : a ≠ d := by
              rintro rfl
              exact hab (hother b (by simp [hspell])).symm
            rw [hspell, List.cons_append, after?, after?, if_neg hab, if_neg had]
            rfl

end Spelling

/-! ## Characters at the ends -/

theorem ending_ne_nil (c : Char) : ending c ≠ [] := by
  unfold ending
  split <;> simp

/-- Only carriage returns are added. -/
theorem eq_of_mem_ending {c d : Char} (hreturn : c ≠ '\r') (h : c ∈ ending d) : d = c := by
  unfold ending at h
  split at h
  · rename_i hd
    have hc : c = '\n' := by simpa [hreturn] using h
    rw [hd, hc]
  · exact (List.mem_singleton.mp h).symm

/-- A class of characters that holds both the carriage return and the line feed, or
neither, holds all that is written for a character or nothing of it. -/
theorem of_mem_ending {p : Char → Bool} (h : p '\r' = p '\n') {c d : Char} (hd : d ∈ ending c) :
    p d = p c := by
  by_cases hreturn : d = '\r'
  · subst hreturn
    unfold ending at hd
    split at hd
    · rename_i hc
      rw [h, hc]
    · rw [List.mem_singleton.mp hd]
  · rw [eq_of_mem_ending hreturn hd]

/-- Dropping from the start keeps the line endings when it treats both their characters
alike. -/
theorem dropWhile_crlf {p : Char → Bool} (h : p '\r' = p '\n') (text : Text) :
    (crlf text).dropWhile p = crlf (text.dropWhile p) :=
  dropWhile_flatMap ending ending_ne_nil (fun _ _ => of_mem_ending h) text

/-- Dropping from the end keeps the line endings when it treats both their characters
alike. -/
theorem dropWhile_reverse_crlf {p : Char → Bool} (h : p '\r' = p '\n') (text : Text) :
    ((crlf text).reverse.dropWhile p).reverse = crlf (text.reverse.dropWhile p).reverse := by
  have hdrop := dropWhile_flatMap (p := p) (fun c => (ending c).reverse)
    (fun c => by simpa using ending_ne_nil c)
    (fun c d hd => of_mem_ending h (List.mem_reverse.mp hd)) text.reverse
  rw [reverse_crlf, hdrop, ← List.reverse_reverse (crlf _), reverse_crlf, List.reverse_reverse]

/-- Trimming the start keeps the line endings. -/
theorem trimStart_crlf (text : Text) : trimStart (crlf text) = crlf (trimStart text) :=
  dropWhile_crlf (by decide) text

/-- Trimming the end keeps the line endings. -/
theorem trimEnd_crlf (text : Text) : trimEnd (crlf text) = crlf (trimEnd text) :=
  dropWhile_reverse_crlf (by decide) text

/-- Trimming does not mind the line endings. -/
theorem trim_crlf (text : Text) : trim (crlf text) = crlf (trim text) := by
  rw [trim, trimStart_crlf, trimEnd_crlf, trim]

/-! ## Fixed texts at the ends -/

/-- A fixed text without line endings is found at the start of both texts. -/
theorem after?_crlf {lead : Text} (hreturn : '\r' ∉ lead) (hline : '\n' ∉ lead) (text : Text) :
    after? lead (crlf text) = (after? lead text).map crlf := by
  refine after?_flatMap ending ending_ne_nil ?_ text
  intro c hc
  refine ⟨ending_of_ne ?_, fun d => eq_of_mem_ending ?_⟩
  · exact ne_of_mem_of_not_mem hc hline
  · exact ne_of_mem_of_not_mem hc hreturn

/-- A fixed text without line endings is found at the end of both texts. -/
theorem before?_crlf {tail : Text} (hreturn : '\r' ∉ tail) (hline : '\n' ∉ tail) (text : Text) :
    before? tail (crlf text) = (before? tail text).map crlf := by
  have hlead : ∀ c ∈ tail.reverse, (ending c).reverse = [c] ∧
      ∀ d, c ∈ (ending d).reverse → d = c := by
    intro c hc
    rw [List.mem_reverse] at hc
    refine ⟨?_, fun d hd => eq_of_mem_ending ?_ (List.mem_reverse.mp hd)⟩
    · rw [ending_of_ne (ne_of_mem_of_not_mem hc hline), List.reverse_singleton]
    · exact ne_of_mem_of_not_mem hc hreturn
  have hafter := after?_flatMap (fun c => (ending c).reverse)
    (fun c => by simpa using ending_ne_nil c) hlead text.reverse
  rw [before?, reverse_crlf, hafter, before?, Option.map_map, Option.map_map]
  congr 1
  funext rest
  rw [Function.comp_apply, Function.comp_apply, ← List.reverse_reverse (crlf _), reverse_crlf,
    List.reverse_reverse]

/-! ## Lines -/

/-- A line in front of a line feed is the first of the lines. -/
theorem splitOn_append_line_feed {line : Text} (h : '\n' ∉ line) (text : Text) :
    (line ++ '\n' :: text).splitOn '\n' = line :: text.splitOn '\n' := by
  rw [List.splitOn_append_cons_self, List.splitOn_eq_singleton h, List.singleton_append]

/-- What is made of lines without regard to a carriage return at their ends is the
same for both texts. -/
theorem map_splitOn_crlf {α : Type} {f : Text → α} (hf : ∀ line, f (line ++ ['\r']) = f line)
    (text : Text) : ((crlf text).splitOn '\n').map f = (text.splitOn '\n').map f := by
  -- The induction reads one character at a time, so it carries the start of the line.
  have hline : ∀ line : Text, '\n' ∉ line →
      ((line ++ crlf text).splitOn '\n').map f = ((line ++ text).splitOn '\n').map f := by
    induction text with
    | nil =>
        intro line _
        rfl
    | cons c text ih =>
        intro line hline
        by_cases hc : c = '\n'
        · subst hc
          have hreturn : '\n' ∉ line ++ ['\r'] := by simp [hline]
          have hsplit := splitOn_append_line_feed hreturn (crlf text)
          rw [List.append_assoc, List.singleton_append] at hsplit
          have hrest := ih [] (by simp)
          rw [List.nil_append, List.nil_append] at hrest
          rw [crlf_line_feed, hsplit, splitOn_append_line_feed hline, List.map_cons, List.map_cons,
            hf, hrest]
        · rw [crlf_cons hc, List.append_cons, List.append_cons line c text]
          exact ih (line ++ [c]) (by simp [hline, Ne.symm hc])
  exact hline [] (by simp)

end Text
end DocComment
