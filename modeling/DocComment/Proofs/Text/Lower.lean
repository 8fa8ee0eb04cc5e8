import DocComment.Proofs.Text.Trimmed
import DocComment.Text.Case

/-!
# Lower case and blanks

Lower-casing changes letters only.  A blank stays what it is, a character that is
not blank becomes one or two characters that are not blank either, and no
character vanishes.  So a trimmed text on one line is still one in lower case.

Main results:

- Theorem `Text.isBlank_of_mem_lowerAt`: the forms of a character are blank exactly
  when the character is.
- Theorems `Text.lower_ne_nil`, `Text.Trimmed.lower` and `Text.Inline.lower`: what
  lower-casing keeps of a text.
-/

namespace DocComment
namespace Text

/-! ## One character -/

theorem isBlank_eq_true_iff {c : Char} :
    isBlank c = true ↔ ∃ range ∈ blankRanges, range.1 ≤ c.toNat ∧ c.toNat ≤ range.2 := by
  simp [isBlank, inRanges]

/-- No run of capital letters meets the blanks, neither with its letters nor with
their lower-case forms. -/
theorem lowerRuns_apart_blankRanges : ∀ run ∈ lowerRuns, ∀ range ∈ blankRanges,
    (run.last < range.1 ∨ range.2 < run.first) ∧ (0 : Int) < range.1 ∧
      ((run.last : Int) + run.shift < range.1 ∨ (range.2 : Int) < run.first + run.shift) := by
  decide +kernel

/-- A run covers codes between its ends only. -/
theorem CaseRun.le_of_covers {run : CaseRun} {code : Nat} (h : run.covers code = true) :
    run.first ≤ code ∧ code ≤ run.last := by
  simp only [covers, Bool.and_eq_true, decide_eq_true_eq] at h
  exact h.1

/-- The code of the character with a number is that number, or zero where there is
no such character. -/
theorem toNat_charOfNat (n : Nat) : (Char.ofNat n).toNat = n ∨ (Char.ofNat n).toNat = 0 := by
  by_cases h : n.isValidChar
  · left
    rw [Char.ofNat, dif_pos h]
    rfl
  · right
    simp [Char.ofNat, h, Char.toNat]

/-- The code to which a run maps one of its codes. -/
def CaseRun.image (run : CaseRun) (code : Nat) : Nat :=
  (code + run.shift).toNat

/-- How a character is lower-cased: by a run that holds it, or not at all. -/
theorem lowerChar_cases (c : Char) :
    (∃ run ∈ lowerRuns, run.covers c.toNat = true ∧
      lowerChar c = Char.ofNat (run.image c.toNat)) ∨ lowerChar c = c := by
  unfold lowerChar
  split
  · rename_i run hfind
    left
    exact ⟨run, List.mem_of_find?_eq_some hfind, by simpa using List.find?_some hfind, rfl⟩
  · right
    rfl

/-- A character that no run covers is its own lower case. -/
theorem lowerChar_eq_self {c : Char} (h : ∀ run ∈ lowerRuns, ¬ run.covers c.toNat = true) :
    lowerChar c = c := by
  have hnone : lowerRuns.find? (·.covers c.toNat) = none := List.find?_eq_none.mpr h
  simp only [lowerChar, hnone]

/-- A blank is its own lower-case form. -/
theorem lowerChar_of_isBlank {c : Char} (h : isBlank c = true) : lowerChar c = c := by
  obtain ⟨range, hrange, hlow, hhigh⟩ := isBlank_eq_true_iff.mp h
  apply lowerChar_eq_self
  intro run hrun hcovers
  have hapart := (lowerRuns_apart_blankRanges run hrun range hrange).1
  have hinside := CaseRun.le_of_covers hcovers
  omega

/-- No other character has a blank for its lower-case form. -/
theorem isBlank_lowerChar {c : Char} (h : isBlank c = false) : isBlank (lowerChar c) = false := by
  rcases lowerChar_cases c with ⟨run, hrun, hcovers, hlower⟩ | hlower
  · have hinside := CaseRun.le_of_covers hcovers
    rw [hlower, ← Bool.not_eq_true, isBlank_eq_true_iff]
    intro hblank
    obtain ⟨range, hrange, hlow, hhigh⟩ := hblank
    have hapart := lowerRuns_apart_blankRanges run hrun range hrange
    have hcode := toNat_charOfNat (run.image c.toNat)
    rw [CaseRun.image] at hcode hlow hhigh
    omega
  · rw [hlower]
    exact h

/-- The two characters with forms of their own are not blank, nor are their
forms. -/
theorem isBlank_of_special :
    isBlank 'Σ' = false ∧ isBlank 'İ' = false ∧ isBlank 'ς' = false ∧ isBlank 'σ' = false ∧
      isBlank 'i' = false ∧ isBlank '\u0307' = false := by
  decide

theorem lowerAt_ne_nil (before : Text) (c : Char) (after : Text) : lowerAt before c after ≠ [] := by
  unfold lowerAt
  split
  · simp
  · split
    · simp
    · simp

/-- The forms of a blank and of no other character are blank. -/
theorem isBlank_of_mem_lowerAt {before after : Text} {c d : Char}
    (h : d ∈ lowerAt before c after) : isBlank d = isBlank c := by
  obtain ⟨hSigma, hDotted, hfinal, hsigma, hi, hdot⟩ := isBlank_of_special
  unfold lowerAt at h
  split at h
  · rename_i hc
    rw [List.mem_singleton] at h
    rw [h, hc, hSigma]
    split
    · exact hfinal
    · exact hsigma
  · split at h
    · rename_i hc
      simp only [List.mem_cons, List.not_mem_nil, or_false] at h
      rw [hc, hDotted]
      cases h with
      | inl h => rw [h, hi]
      | inr h => rw [h, hdot]
    · rw [List.mem_singleton] at h
      rw [h]
      cases hc : isBlank c with
      | true => rw [lowerChar_of_isBlank hc, hc]
      | false => exact isBlank_lowerChar hc

theorem lowerAt_of_isBlank {c : Char} (h : isBlank c = true) (before after : Text) :
    lowerAt before c after = [c] := by
  obtain ⟨hSigma, hDotted, _⟩ := isBlank_of_special
  have hsigma : c ≠ 'Σ' := by
    intro hc
    rw [hc, hSigma] at h
    contradiction
  have hdotted : c ≠ 'İ' := by
    intro hc
    rw [hc, hDotted] at h
    contradiction
  rw [lowerAt, if_neg hsigma, if_neg hdotted, lowerChar_of_isBlank h]

/-! ## Whole texts -/

theorem lowerFrom_ne_nil (before : Text) {text : Text} (h : text ≠ []) :
    lowerFrom before text ≠ [] := by
  cases text with
  | nil => contradiction
  | cons c after =>
      rw [lowerFrom]
      intro hnil
      exact lowerAt_ne_nil before c after (List.append_eq_nil_iff.mp hnil).1

/-- A text with a character has one in lower case. -/
theorem lower_ne_nil {text : Text} (h : text ≠ []) : lower text ≠ [] :=
  lowerFrom_ne_nil [] h

/-- A blank in lower case was there before. -/
theorem mem_of_mem_lowerFrom {before text : Text} {d : Char} (h : d ∈ lowerFrom before text)
    (hd : isBlank d = true) : d ∈ text := by
  induction text generalizing before with
  | nil => exact h
  | cons c after ih =>
      rw [lowerFrom, List.mem_append] at h
      cases h with
      | inl h =>
          have hc : isBlank c = true := by
            rw [← isBlank_of_mem_lowerAt h, hd]
          rw [lowerAt_of_isBlank hc, List.mem_singleton] at h
          rw [h]
          exact List.mem_cons_self
      | inr h => exact List.mem_cons_of_mem c (ih h)

/-- The text in lower case starts with a blank only if the text does. -/
theorem isBlank_of_mem_head?_lowerFrom {before text : Text}
    (h : ∀ c ∈ text.head?, isBlank c = false) {d : Char}
    (hd : d ∈ (lowerFrom before text).head?) : isBlank d = false := by
  cases text with
  | nil => simp [lowerFrom] at hd
  | cons c after =>
      obtain ⟨e, form, hform⟩ := List.exists_cons_of_ne_nil (lowerAt_ne_nil before c after)
      rw [lowerFrom, hform, List.cons_append, List.head?_cons, Option.mem_some] at hd
      have hmem : d ∈ lowerAt before c after := by
        rw [hform, hd]
        exact List.mem_cons_self
      rw [isBlank_of_mem_lowerAt hmem]
      exact h c (by simp)

/-- The text in lower case ends with a blank only if the text does. -/
theorem isBlank_of_mem_getLast?_lowerFrom {before text : Text}
    (h : ∀ c ∈ text.getLast?, isBlank c = false) {d : Char}
    (hd : d ∈ (lowerFrom before text).getLast?) : isBlank d = false := by
  induction text generalizing before with
  | nil => simp [lowerFrom] at hd
  | cons c after ih =>
      rw [lowerFrom] at hd
      by_cases hafter : after = []
      · rw [hafter] at hd h
        rw [lowerFrom, List.append_nil] at hd
        rw [isBlank_of_mem_lowerAt (List.mem_of_mem_getLast? hd)]
        exact h c (by simp)
      · have hrest := lowerFrom_ne_nil (c :: before) hafter
        rw [List.getLast?_append, List.getLast?_eq_some_getLast hrest, Option.some_or] at hd
        rw [← List.getLast?_eq_some_getLast hrest] at hd
        apply ih _ hd
        intro e he
        apply h e
        rw [List.getLast?_cons_of_ne_nil hafter]
        exact he

/-- A trimmed text stays trimmed in lower case. -/
theorem Trimmed.lower {text : Text} (h : Trimmed text) : Trimmed (lower text) := by
  obtain ⟨hfirst, hlast⟩ := trimmed_iff.mp h
  rw [trimmed_iff]
  constructor
  · intro c hc
    exact isBlank_of_mem_head?_lowerFrom hfirst hc
  · intro c hc
    exact isBlank_of_mem_getLast?_lowerFrom hlast hc

/-- A trimmed text on one line stays one in lower case. -/
theorem Inline.lower {text : Text} (h : Inline text) : Inline (lower text) where
  trimmed := h.trimmed.lower
  one_line := by
    intro hmem
    exact h.one_line (mem_of_mem_lowerFrom hmem isBlank_newline)

end Text
end DocComment
