import DocComment.Proofs.Comment.Prose
import DocComment.Proofs.Text.Field

/-!
# What reading a comment leaves of its text

However a comment is laid out, its lines come out trimmed, its tags without a
line feed although each may have been written on many lines, and its description
as a list of paragraphs that each say something.

Main results:

- Theorem `Comment.inline_of_mem_lines`: the lines of a comment are trimmed.
- Theorem `Comment.notMem_of_mem_tags`: a tag stands on one line, whatever the
  number of its continuation lines.
- Theorem `Comment.filled_of_mem_paragraphs`: every paragraph says something.
- Theorem `Comment.Heading.clean_ofProse`: the name and the description in prose.
-/

namespace DocComment
namespace Comment

/-! ## Lines -/

/-- A clean line has no blank at its ends and no line feed. -/
theorem inline_undecorate {line : Text} (h : '\n' ∉ line) : (undecorate line).Inline := by
  unfold undecorate
  split
  · rename_i rest hrest
    apply Text.inline_trim
    intro hmem
    apply h
    apply Text.mem_of_mem_trim
    rw [hrest]
    exact List.mem_cons_of_mem '*' hmem
  · exact Text.inline_trim h

/-- Dropping the empty lines at the ends adds no line. -/
theorem mem_of_mem_dropEdges {line : Text} {lines : List Text} (h : line ∈ dropEdges lines) :
    line ∈ lines := by
  rw [dropEdges, List.mem_reverse] at h
  have hmem := (List.dropWhile_suffix List.isEmpty).subset h
  rw [List.mem_reverse] at hmem
  exact (List.dropWhile_suffix List.isEmpty).subset hmem

/-- The lines of a comment are trimmed texts on one line. -/
theorem inline_of_mem_lines {raw line : Text} (h : line ∈ lines raw) : line.Inline := by
  obtain ⟨written, hwritten, hline⟩ := List.mem_map.mp (mem_of_mem_dropEdges h)
  rw [← hline]
  exact inline_undecorate (Text.notMem_of_mem_splitOn hwritten)

/-! ## Sections -/

/-- The lines of the prose are clean. -/
theorem inline_of_mem_prose {raw line : Text}
    (h : line ∈ (Sections.ofLines (lines raw)).prose) : line.Inline :=
  inline_of_mem_lines ((List.takeWhile_prefix _).subset h)

/-- Folding lines writes spaces between them, and no line feeds. -/
theorem notMem_foldLines {lines : List Text} (h : ∀ line ∈ lines, '\n' ∉ line) :
    '\n' ∉ (foldLines lines).1 ∧ ∀ tag ∈ (foldLines lines).2, '\n' ∉ tag := by
  induction lines with
  | nil => simp [foldLines]
  | cons line rest ih =>
      have hline := h line List.mem_cons_self
      obtain ⟨hcontinuation, htags⟩ := ih fun other hmem => h other (List.mem_cons_of_mem line hmem)
      simp only [foldLines]
      split
      · refine ⟨by simp, ?_⟩
        intro tag htag
        rcases List.mem_cons.mp htag with heq | hmem
        · rw [heq, List.mem_append, not_or]
          exact ⟨hline, hcontinuation⟩
        · exact htags tag hmem
      · split
        · exact ⟨hcontinuation, htags⟩
        · refine ⟨?_, htags⟩
          simp [hline, hcontinuation]

/-- A tag stands on one line, whatever the number of its continuation lines. -/
theorem notMem_of_mem_tags {raw tag : Text}
    (h : tag ∈ (Sections.ofLines (lines raw)).tags) : '\n' ∉ tag := by
  apply (notMem_foldLines _).2 tag h
  intro line hline
  exact (inline_of_mem_lines ((List.dropWhile_suffix _).subset hline)).one_line

/-! ## Paragraphs -/

/-- Filled lines joined by spaces are a filled line. -/
theorem filled_intercalate {texts : List Text} (hne : texts ≠ [])
    (h : ∀ text ∈ texts, text.Filled) : Text.Filled ([' '].intercalate texts) := by
  induction texts with
  | nil => contradiction
  | cons first rest ih =>
      have hfirst := h first List.mem_cons_self
      cases rest with
      | nil =>
          rw [List.intercalate_singleton]
          exact hfirst
      | cons next rest =>
          have hrest := ih (by simp) fun text hmem => h text (List.mem_cons_of_mem first hmem)
          rw [List.intercalate_cons_cons, List.append_assoc]
          exact hfirst.append_space hrest

/-- Every paragraph of the given lines says something. -/
theorem filled_of_mem_paragraphs {lines : List Text} (h : ∀ line ∈ lines, '\n' ∉ line)
    {para : Text} (hpara : para ∈ paragraphs lines) : para.Filled := by
  obtain ⟨run, hrun, hjoin⟩ := List.mem_map.mp hpara
  obtain ⟨hsplit, hne⟩ := List.mem_filter.mp hrun
  rw [← hjoin]
  apply filled_intercalate
  · simpa using hne
  · intro text htext
    obtain ⟨line, hline, heq⟩ := List.mem_map.mp htext
    obtain ⟨hmem, hblank⟩ := Text.of_mem_splitOnP hsplit hline
    rw [← heq]
    exact Text.filled_trim (h line hmem) hblank

/-! ## Headings -/

/-- The parts of a line that opens with a name. -/
theorem namedLine?_eq_some {line name text : Text} (h : namedLine? line = some (name, text)) :
    Text.isRecordName name = true ∧ '\n' ∉ text := by
  simp only [namedLine?] at h
  split at h
  · split at h
    · rename_i hname
      obtain ⟨rest, hrest, hpair⟩ := Option.map_eq_some_iff.mp h
      rw [Prod.mk.injEq] at hpair
      rw [← hpair.1, ← hpair.2]
      exact ⟨hname, (Text.remainder?_eq_some hrest).2.1⟩
    · contradiction
  · contradiction

/-- The name of a record is a clean line. -/
theorem inline_of_isRecordName {name : Text} (h : Text.isRecordName name = true) :
    name.Inline := by
  apply Text.inline_of_forall_not_blank
  intro c hc
  exact isBlank_of_isNamePart (isNamePart_of_mem h hc)

namespace Heading

/-- A name on one line, and a description of paragraphs that each say something. -/
structure Clean (heading : Heading) : Prop where
  name : heading.name.Inline
  description : ∃ paras : List Text, heading.description = ['\n', '\n'].intercalate paras ∧
    ∀ para ∈ paras, para.Filled

/-- A clean name and any lines without line feeds give a clean heading. -/
theorem clean_of_lines {name : Text} {lines : List Text} (hname : name.Inline)
    (hlines : ∀ line ∈ lines, '\n' ∉ line) : Clean ⟨name, describe lines⟩ where
  name := hname
  description := ⟨paragraphs lines, rfl, fun _ => filled_of_mem_paragraphs hlines⟩

/-- The name and the description in prose without line feeds. -/
theorem clean_ofProse {prose : List Text} {nameTag : Option Text}
    (hprose : ∀ line ∈ prose, '\n' ∉ line) (htag : ∀ name, nameTag = some name → name.Inline) :
    (ofProse prose nameTag).Clean := by
  have hname : (nameTag.getD []).Inline := by
    cases nameTag with
    | none => exact Text.inline_nil
    | some name => exact htag name rfl
  cases prose with
  | nil => exact ⟨hname, [], by simp [ofProse], by simp⟩
  | cons first rest =>
      simp only [ofProse]
      split
      · rename_i name text hnamed
        obtain ⟨hrecord, hline⟩ := namedLine?_eq_some hnamed
        apply clean_of_lines (inline_of_isRecordName hrecord)
        intro line hmem
        rcases List.mem_cons.mp hmem with heq | hrest
        · rw [heq]
          exact hline
        · exact hprose line (List.mem_cons_of_mem first hrest)
      · exact clean_of_lines hname hprose

end Heading

end Comment
end DocComment
