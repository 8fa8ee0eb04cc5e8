import DocComment.Proofs.Text.Lower

/-!
# Texts in lower case

Lower-casing leaves nothing for a second pass.  The lower-case form of a capital
letter is no capital letter, so every character of the result is its own
lower-case form.  The brackets of type spellings are neither made nor lost.

Main results:

- Definition `Text.Settled`: a character that is its own lower-case form.
- Theorem `Text.lower_lower`: lower-casing twice is lower-casing once.
- Theorem `Text.suffix_of_suffix_lower`: brackets at the end of a text in lower case
  were there before.
-/

namespace DocComment
namespace Text

/-! ## Runs of capital letters -/

/-- The lower-case forms of a run are no letters of another run: they lie below it or
above it, or they fall into its gaps. -/
def CaseRun.clears (run other : CaseRun) : Bool :=
  Nat.blt (run.image run.last) other.first || Nat.blt other.last (run.image run.first) ||
    (other.stride == 2 && (run.stride == 2 || run.first == run.last) &&
      (run.image run.first + other.first) % 2 == 1)

/-- The codes of the brackets in type spellings, and that of the one capital letter
that no run holds. -/
def unreachedCodes : List Nat :=
  [0x3C, 0x3E, 0x5B, 0x5D, 0x130]

theorem all_clears_lowerRuns :
    (lowerRuns.all fun run => lowerRuns.all fun other => run.clears other) = true := by
  decide +kernel

/-- Every run stays above zero and off the codes that are not reached. -/
theorem lowerRuns_bounds : ∀ run ∈ lowerRuns, 0 < run.first ∧ 0 < run.first + run.shift ∧
    ∀ code ∈ unreachedCodes, run.image run.last < code ∨ code < run.image run.first := by
  decide +kernel

section Image

variable {run other : CaseRun} {code : Nat}

theorem clears_of_mem (hrun : run ∈ lowerRuns) (hother : other ∈ lowerRuns) :
    run.clears other = true :=
  List.all_eq_true.mp (List.all_eq_true.mp all_clears_lowerRuns run hrun) other hother

/-- A run shifts the codes from its first one on. -/
theorem image_eq (hrun : run ∈ lowerRuns) (hcode : run.first ≤ code) :
    (run.image code : Int) = code + run.shift := by
  have hpositive := (lowerRuns_bounds run hrun).2.1
  rw [CaseRun.image]
  omega

/-- A lower-case form is no letter of any run. -/
theorem covers_image_eq_false (hrun : run ∈ lowerRuns) (hother : other ∈ lowerRuns)
    (hcode : run.covers code = true) : other.covers (run.image code) = false := by
  rw [← Bool.not_eq_true]
  intro hcovers
  obtain ⟨hfirst, hlast⟩ := CaseRun.le_of_covers hcode
  obtain ⟨hfirst', hlast'⟩ := CaseRun.le_of_covers hcovers
  have himage := image_eq hrun hfirst
  have hlow := image_eq hrun (Nat.le_refl run.first)
  have hhigh := image_eq hrun (Nat.le_trans hfirst hlast)
  have hclears := clears_of_mem hrun hother
  simp only [CaseRun.clears, Bool.or_eq_true, Bool.and_eq_true, Nat.blt_eq, beq_iff_eq] at hclears
  rcases hclears with (hbelow | habove) | ⟨⟨hstride, hgapped⟩, hodd⟩
  · omega
  · omega
  · -- The codes are an even distance from the first one, so the forms fall into the gaps.
    simp only [CaseRun.covers, hstride, Bool.and_eq_true, beq_iff_eq] at hcovers
    rcases hgapped with hgapped | hgapped
    · simp only [CaseRun.covers, hgapped, Bool.and_eq_true, beq_iff_eq] at hcode
      omega
    · omega

/-- No run leads to a code that is not reached. -/
theorem image_notMem_unreachedCodes (hrun : run ∈ lowerRuns) (hcode : run.covers code = true) :
    run.image code ∉ unreachedCodes := by
  intro hmem
  obtain ⟨hfirst, hlast⟩ := CaseRun.le_of_covers hcode
  have himage := image_eq hrun hfirst
  have hlow := image_eq hrun (Nat.le_refl run.first)
  have hhigh := image_eq hrun (Nat.le_trans hfirst hlast)
  have hapart := (lowerRuns_bounds run hrun).2.2 _ hmem
  omega

end Image

/-! ## One character -/

/-- The lower-case form of a character is its own lower-case form. -/
theorem lowerChar_lowerChar (c : Char) : lowerChar (lowerChar c) = lowerChar c := by
  rcases lowerChar_cases c with ⟨run, hrun, hcovers, hlower⟩ | hlower
  · rw [hlower]
    apply lowerChar_eq_self
    intro other hother hcovers'
    rcases toNat_charOfNat (run.image c.toNat) with hcode | hcode
    · rw [hcode, covers_image_eq_false hrun hother hcovers] at hcovers'
      contradiction
    · have hfirst := (lowerRuns_bounds other hother).1
      rw [hcode] at hcovers'
      have hinside := CaseRun.le_of_covers hcovers'
      omega
  · rw [hlower, hlower]

/-- No other character has one of these for its lower-case form. -/
theorem eq_of_lowerChar_eq {c d : Char} (h : lowerChar c = d) (hd : d.toNat ∈ unreachedCodes) :
    c = d := by
  rcases lowerChar_cases c with ⟨run, hrun, hcovers, hlower⟩ | hlower
  · exfalso
    rw [h] at hlower
    rcases toNat_charOfNat (run.image c.toNat) with hcode | hcode
    · rw [hlower, hcode] at hd
      exact image_notMem_unreachedCodes hrun hcovers hd
    · rw [hlower, hcode] at hd
      exact absurd hd (by decide)
  · rw [← hlower, h]

/-! ## Characters that stay -/

/-- The character is its own lower-case form, wherever it stands. -/
def Settled (c : Char) : Prop :=
  ∀ before after, lowerAt before c after = [c]

theorem settled_of_lowerChar {c : Char} (h : lowerChar c = c) (hdotted : c ≠ 'İ') : Settled c := by
  intro before after
  have hsigma : c ≠ 'Σ' := by
    rintro rfl
    exact absurd h (by decide +kernel)
  rw [lowerAt, if_neg hsigma, if_neg hdotted, h]

/-- The forms of a character are settled. -/
theorem settled_of_mem_lowerAt {before after : Text} {c d : Char}
    (h : d ∈ lowerAt before c after) : Settled d := by
  unfold lowerAt at h
  split at h
  · rw [List.mem_singleton] at h
    rw [h]
    split
    · exact settled_of_lowerChar (by decide +kernel) (by decide)
    · exact settled_of_lowerChar (by decide +kernel) (by decide)
  · split at h
    · simp only [List.mem_cons, List.not_mem_nil, or_false] at h
      rcases h with rfl | rfl
      · exact settled_of_lowerChar (by decide +kernel) (by decide)
      · exact settled_of_lowerChar (by decide +kernel) (by decide)
    · rename_i hdotted
      rw [List.mem_singleton] at h
      rw [h]
      apply settled_of_lowerChar (lowerChar_lowerChar c)
      intro hd
      exact hdotted (eq_of_lowerChar_eq hd (by decide))

/-- Every character of a lowered text is settled. -/
theorem settled_of_mem_lowerFrom {before text : Text} {d : Char}
    (h : d ∈ lowerFrom before text) : Settled d := by
  induction text generalizing before with
  | nil => contradiction
  | cons c after ih =>
      rw [lowerFrom, List.mem_append] at h
      cases h with
      | inl h => exact settled_of_mem_lowerAt h
      | inr h => exact ih h

/-- A text of settled characters stays as it is. -/
theorem lowerFrom_of_settled (before : Text) {text : Text} (h : ∀ c ∈ text, Settled c) :
    lowerFrom before text = text := by
  induction text generalizing before with
  | nil => rfl
  | cons c after ih =>
      rw [lowerFrom, h c List.mem_cons_self, ih _ fun d hd => h d (List.mem_cons_of_mem c hd)]
      rfl

/-- Every character of a text in lower case is settled. -/
theorem settled_of_mem_lower {text : Text} {d : Char} (h : d ∈ lower text) : Settled d :=
  settled_of_mem_lowerFrom h

/-- A text of settled characters is its own lower case. -/
theorem lower_of_settled {text : Text} (h : ∀ c ∈ text, Settled c) : lower text = text :=
  lowerFrom_of_settled [] h

/-- Lower-casing twice is lower-casing once. -/
theorem lower_lower (text : Text) : lower (lower text) = lower text :=
  lower_of_settled fun _ hd => settled_of_mem_lower hd

/-! ## Brackets -/

/-- A bracket comes from the same bracket and from nothing else. -/
theorem lowerAt_of_mem {before after : Text} {c d : Char} (h : d ∈ lowerAt before c after)
    (hd : d.toNat ∈ unreachedCodes) : c = d ∧ lowerAt before c after = [d] := by
  unfold lowerAt at h ⊢
  split at h
  · exfalso
    rw [List.mem_singleton] at h
    rw [h] at hd
    split at hd
    · exact absurd hd (by decide)
    · exact absurd hd (by decide)
  · rename_i hsigma
    rw [if_neg hsigma]
    split at h
    · exfalso
      simp only [List.mem_cons, List.not_mem_nil, or_false] at h
      rcases h with rfl | rfl
      · exact absurd hd (by decide)
      · exact absurd hd (by decide)
    · rename_i hdotted
      rw [List.mem_singleton] at h
      rw [if_neg hdotted, ← h]
      exact ⟨eq_of_lowerChar_eq h.symm hd, rfl⟩

/-- A text that is brackets only in lower case was so before. -/
theorem lowerFrom_of_brackets {before text : Text}
    (h : ∀ d ∈ lowerFrom before text, d.toNat ∈ unreachedCodes) : lowerFrom before text = text := by
  induction text generalizing before with
  | nil => rfl
  | cons c after ih =>
      rw [lowerFrom] at h ⊢
      obtain ⟨d, form, hform⟩ := List.exists_cons_of_ne_nil (lowerAt_ne_nil before c after)
      have hd : d ∈ lowerAt before c after := by
        rw [hform]
        exact List.mem_cons_self
      obtain ⟨hc, hone⟩ := lowerAt_of_mem hd (h d (List.mem_append_left _ hd))
      rw [hone, hc, ih fun e he => h e (List.mem_append_right _ (hc ▸ he))]
      rfl

/-- Brackets at the end of a text in lower case were there before. -/
theorem suffix_of_suffix_lowerFrom {before text tail : Text}
    (htail : ∀ d ∈ tail, d.toNat ∈ unreachedCodes) (h : tail <:+ lowerFrom before text) :
    tail <:+ text := by
  induction text generalizing before with
  | nil => exact h
  | cons c after ih =>
      obtain ⟨front, hfront⟩ := h
      rw [lowerFrom] at hfront
      rcases List.append_eq_append_iff.mp hfront with ⟨form, hform, rfl⟩ | ⟨form, _, hrest⟩
      · -- The tail takes in all that comes after the character.
        have hafter : lowerFrom (c :: before) after = after :=
          lowerFrom_of_brackets fun d hd => htail d (List.mem_append_right form hd)
        rw [hafter]
        cases form with
        | nil => exact List.suffix_cons c after
        | cons d form =>
            have hd : d ∈ lowerAt before c after := by
              rw [hform]
              exact List.mem_append_right front List.mem_cons_self
            obtain ⟨rfl, hone⟩ := lowerAt_of_mem hd (htail d List.mem_cons_self)
            have hnil : form = [] := by
              have hlength := congrArg List.length (hone.symm.trans hform)
              simp only [List.length_append, List.length_cons, List.length_nil] at hlength
              exact List.eq_nil_of_length_eq_zero (by omega)
            rw [hnil]
            exact List.suffix_refl (c :: after)
      · have hlater : tail <:+ lowerFrom (c :: before) after := ⟨form, hrest.symm⟩
        exact (ih hlater).trans (List.suffix_cons c after)

/-- A suffix that lower-casing cannot make was there before. -/
theorem suffix_of_suffix_lower {text tail : Text}
    (htail : ∀ d ∈ tail, d.toNat ∈ unreachedCodes) (h : tail <:+ lower text) : tail <:+ text :=
  suffix_of_suffix_lowerFrom htail h

end Text
end DocComment
