import DocComment.Proofs.Comment.Layout

/-!
# Folding lines into tags

A tag reaches from the line that starts it to the next line that starts a tag.
So the tags of a comment can be read part by part, as long as the parts begin
where a tag begins.

Main results:

- Theorem `Comment.foldLines_append`: lines that open a tag fold on their own.
- Theorem `Comment.ofLines_append_of_opensTag`: they only add tags to the lines
  before them.
- Theorem `Comment.ofLines_append_tag`: a line that starts a tag makes one tag
  with its continuation lines.
-/

namespace DocComment
namespace Comment

/-- There are no lines, or the first of them starts a tag. -/
def OpensTag (lines : List Text) : Prop :=
  ∀ line ∈ lines.head?, startsTag line = true

theorem opensTag_cons {line : Text} (h : startsTag line = true) (rest : List Text) :
    OpensTag (line :: rest) := by
  intro first hfirst
  cases hfirst
  exact h

/-! ## Continuations -/

/-- Lines that open a tag continue nothing. -/
theorem foldLines_fst_of_opensTag {lines : List Text} (h : OpensTag lines) :
    (foldLines lines).1 = [] := by
  cases lines with
  | nil => rfl
  | cons line rest =>
      have hline : startsTag line = true := h line rfl
      simp [foldLines, hline]

/-- Lines that start no tag make no tag. -/
theorem foldLines_snd_of_forall {lines : List Text}
    (h : ∀ line ∈ lines, startsTag line = false) : (foldLines lines).2 = [] := by
  induction lines with
  | nil => rfl
  | cons line rest ih =>
      have hline := h line List.mem_cons_self
      have hrest := ih fun more hmore => h more (List.mem_cons_of_mem _ hmore)
      by_cases hempty : line.isEmpty = true
      · simp [foldLines, hline, hempty, hrest]
      · simp [foldLines, hline, hempty, hrest]

/-- A continuation is set off from the tag by a space. -/
theorem eq_space_of_mem_head?_foldLines {lines : List Text} {c : Char}
    (hc : c ∈ (foldLines lines).1.head?) : c = ' ' := by
  induction lines with
  | nil => simp [foldLines] at hc
  | cons line rest ih =>
      simp only [foldLines] at hc
      split at hc
      · simp at hc
      · split at hc
        · exact ih hc
        · simpa using hc.symm

/-! ## Lines that open a tag -/

/-- Lines that open a tag fold on their own, whatever stands before them. -/
theorem foldLines_append (lines : List Text) {more : List Text} (h : OpensTag more) :
    foldLines (lines ++ more) =
      ((foldLines lines).1, (foldLines lines).2 ++ (foldLines more).2) := by
  induction lines with
  | nil =>
      rw [List.nil_append]
      exact Prod.ext (foldLines_fst_of_opensTag h) rfl
  | cons line rest ih =>
      simp only [List.cons_append, foldLines, ih]
      split
      · rfl
      · split <;> rfl

/-- A line that starts no tag belongs to the prose when it stands first. -/
theorem ofLines_cons_of_not_startsTag {line : Text} (h : startsTag line = false)
    (rest : List Text) :
    Sections.ofLines (line :: rest) =
      ⟨line :: (Sections.ofLines rest).prose, (Sections.ofLines rest).tags⟩ := by
  simp [Sections.ofLines, h]

/-- Lines that open with a tag have no prose. -/
theorem ofLines_of_opensTag {lines : List Text} (h : OpensTag lines) :
    Sections.ofLines lines = ⟨[], (foldLines lines).2⟩ := by
  cases lines with
  | nil => rfl
  | cons line rest =>
      have hline : startsTag line = true := h line rfl
      simp [Sections.ofLines, hline]

/-- Lines that open a tag only add tags to the lines before them. -/
theorem ofLines_append_of_opensTag (lines : List Text) {more : List Text} (h : OpensTag more) :
    Sections.ofLines (lines ++ more) =
      ⟨(Sections.ofLines lines).prose, (Sections.ofLines lines).tags ++ (foldLines more).2⟩ := by
  induction lines with
  | nil => exact ofLines_of_opensTag h
  | cons line rest ih =>
      cases hline : startsTag line with
      | true =>
          have hopens := opensTag_cons hline rest
          have hall := opensTag_cons hline (rest ++ more)
          rw [ofLines_of_opensTag hopens, List.cons_append, ofLines_of_opensTag hall,
            ← List.cons_append, foldLines_append (line :: rest) h]
      | false =>
          rw [List.cons_append, ofLines_cons_of_not_startsTag hline, ih,
            ofLines_cons_of_not_startsTag hline]

/-- A tag takes the lines up to the next one. -/
theorem foldLines_snd_of_tag {line : Text} {continuation after : List Text}
    (hline : startsTag line = true) (hcontinuation : ∀ more ∈ continuation, startsTag more = false)
    (hafter : OpensTag after) :
    (foldLines (line :: (continuation ++ after))).2 =
      (line ++ (foldLines continuation).1) :: (foldLines after).2 := by
  simp [foldLines, hline, foldLines_append continuation hafter,
    foldLines_snd_of_forall hcontinuation]

/-- A line that starts a tag makes one tag with its continuation lines, and the
lines after those go on as if it were not there. -/
theorem ofLines_append_tag (before : List Text) {line : Text} {continuation after : List Text}
    (hline : startsTag line = true) (hcontinuation : ∀ more ∈ continuation, startsTag more = false)
    (hafter : OpensTag after) :
    Sections.ofLines (before ++ line :: (continuation ++ after)) =
      ⟨(Sections.ofLines before).prose,
        (Sections.ofLines before).tags ++
          (line ++ (foldLines continuation).1) :: (foldLines after).2⟩ := by
  rw [ofLines_append_of_opensTag before (opensTag_cons hline _),
    foldLines_snd_of_tag hline hcontinuation hafter]

end Comment
end DocComment
