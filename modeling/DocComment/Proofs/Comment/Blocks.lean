import Mathlib.Data.List.Basic
import Mathlib.Data.List.TakeWhile
import DocComment.Proofs.Comment.Folding

/-!
# The lines behind the tags

Behind the prose the lines of a comment fall into blocks, each of which starts with
the line of a tag and goes on up to the next such line.  Every block makes one tag:
its lines joined by single spaces, the empty ones left out.  So no text gets lost
between the lines and the sections, none is written twice, and none changes its
place.

Main results:

- Theorem `Text.intercalate_map_intercalate`: joining texts in groups is joining
  them all.
- Definition `Comment.TagBlock`: the lines of one tag.
- Theorem `Comment.exists_blocks_foldLines`: folding lines makes one tag of each
  block.
- Theorem `Comment.ofLines_lossless`: the sections of a comment hold all of its
  lines in order.
-/

namespace DocComment

/-! ## Joining in groups -/

namespace Text

/-- A separator before the joined texts stands before each of them. -/
theorem append_intercalate (separator : Text) {texts : List Text} (h : texts ≠ []) :
    separator ++ separator.intercalate texts = texts.flatMap fun text => separator ++ text := by
  rcases List.exists_cons_of_ne_nil h with ⟨first, rest, rfl⟩
  rw [intercalate_cons, List.flatMap_cons, List.append_assoc]

/-- Joining texts in groups, and then the groups, is joining all of them. -/
theorem intercalate_map_intercalate (separator : Text) {groups : List (List Text)}
    (h : ∀ group ∈ groups, group ≠ []) :
    separator.intercalate (groups.map separator.intercalate) =
      separator.intercalate groups.flatten := by
  by_cases hnil : groups = []
  · rw [hnil]
    rfl
  · have hflatten : groups.flatten ≠ [] := by
      rcases List.exists_cons_of_ne_nil hnil with ⟨first, rest, rfl⟩
      have hfirst := h first List.mem_cons_self
      simp [hfirst]
    refine List.append_cancel_left (?_ : separator ++ _ = separator ++ _)
    rw [append_intercalate separator (by simpa using hnil), append_intercalate separator hflatten,
      List.flatMap_map, ← List.flatMap_id, List.flatMap_assoc]
    apply List.flatMap_congr
    intro group hgroup
    exact append_intercalate separator (h group hgroup)

end Text

namespace Comment

/-! ## Blocks -/

/-- The lines of one tag: the line that starts it, and the lines that continue it. -/
structure TagBlock where
  first : Text
  continuation : List Text
  first_starts : startsTag first = true
  continues : ∀ line ∈ continuation, startsTag line = false

namespace TagBlock

/-- All lines of a block. -/
def lines (block : TagBlock) : List Text :=
  block.first :: block.continuation

/-- The lines of a block that say something. -/
def filledLines (block : TagBlock) : List Text :=
  block.lines.filter fun line => !line.isEmpty

/-- The tag of a block: its lines joined by single spaces, the empty ones left out. -/
def text (block : TagBlock) : Text :=
  [' '].intercalate block.filledLines

theorem isEmpty_first (block : TagBlock) : block.first.isEmpty = false := by
  have hstarts := block.first_starts
  cases hfirst : block.first with
  | nil => simp [hfirst, startsTag] at hstarts
  | cons c rest => rfl

/-- The filled lines of a block are its first line and the filled ones of its
continuation. -/
theorem filledLines_eq (block : TagBlock) :
    block.filledLines = block.first :: block.continuation.filter fun line => !line.isEmpty := by
  rw [filledLines, lines, List.filter_cons_of_pos (by simp [block.isEmpty_first])]

/-- A block adds a space and the text of each further line to its first line. -/
theorem text_eq (block : TagBlock) :
    block.text = block.first ++
      (block.continuation.filter fun line => !line.isEmpty).flatMap fun line => ' ' :: line := by
  rw [text, filledLines_eq, Text.intercalate_cons]
  rfl

/-- The text of a block starts with its first line. -/
theorem first_prefix_text (block : TagBlock) : block.first <+: block.text := by
  rw [text_eq]
  exact List.prefix_append _ _

/-- The text of a block starts a tag. -/
theorem startsTag_text (block : TagBlock) : startsTag block.text = true := by
  have hstarts := block.first_starts
  rw [text_eq]
  cases hfirst : block.first with
  | nil => simp [hfirst, startsTag] at hstarts
  | cons c rest => simpa [hfirst, startsTag] using hstarts

/-- Only the first line of a block starts a tag. -/
theorem filter_startsTag_lines (block : TagBlock) :
    block.lines.filter startsTag = [block.first] := by
  rw [lines, List.filter_cons_of_pos block.first_starts, List.filter_eq_nil_iff.mpr]
  intro line hline
  simp [block.continues line hline]

end TagBlock

/-! ## Folding -/

/-- Folding lines makes one tag of each block, and the lines before the first block
continue what stands before them. -/
theorem exists_blocks_foldLines (lines : List Text) :
    ∃ (leading : List Text) (blocks : List TagBlock),
      lines = leading ++ blocks.flatMap TagBlock.lines ∧
      (∀ line ∈ leading, startsTag line = false) ∧
      foldLines lines =
        ((leading.filter fun line => !line.isEmpty).flatMap fun line => ' ' :: line,
          blocks.map TagBlock.text) := by
  induction lines with
  | nil => exact ⟨[], [], rfl, by simp, rfl⟩
  | cons line rest ih =>
      rcases ih with ⟨leading, blocks, hrest, hleading, hfold⟩
      cases hline : startsTag line with
      | true =>
          -- The line takes the lines before the next block for its continuation.
          let block : TagBlock := ⟨line, leading, hline, hleading⟩
          refine ⟨[], block :: blocks, ?_, by simp, ?_⟩
          · simp [hrest, block, TagBlock.lines]
          · simp [foldLines, hline, hfold, block, TagBlock.text_eq]
      | false =>
          refine ⟨line :: leading, blocks, by simp [hrest], ?_, ?_⟩
          · intro other hother
            rcases List.mem_cons.mp hother with rfl | hmem
            · exact hline
            · exact hleading other hmem
          · cases line with
            | nil => simp [foldLines, hline, hfold]
            | cons c line => simp [foldLines, hline, hfold]

/-- Lines that open a tag are a list of blocks. -/
theorem exists_blocks_of_opensTag {lines : List Text} (h : OpensTag lines) :
    ∃ blocks : List TagBlock, lines = blocks.flatMap TagBlock.lines ∧
      (foldLines lines).2 = blocks.map TagBlock.text := by
  rcases exists_blocks_foldLines lines with ⟨leading, blocks, hlines, hleading, hfold⟩
  cases leading with
  | nil => exact ⟨blocks, hlines, by rw [hfold]⟩
  | cons line leading =>
      have hstarts : startsTag line = true := h line (by rw [hlines]; rfl)
      rw [hleading line List.mem_cons_self] at hstarts
      contradiction

/-- What is left after the prose opens a tag, unless nothing is. -/
theorem opensTag_dropWhile (lines : List Text) :
    OpensTag (lines.dropWhile fun line => !startsTag line) := by
  intro line hline
  have hhead := List.head?_dropWhile_not (fun line => !startsTag line) lines
  rw [Option.mem_def] at hline
  simpa [hline] using hhead

/-- The first lines of the blocks are the lines that start a tag. -/
theorem filter_startsTag_blocks (blocks : List TagBlock) :
    (blocks.flatMap TagBlock.lines).filter startsTag = blocks.map TagBlock.first := by
  rw [List.filter_flatMap, List.map_eq_flatMap]
  apply List.flatMap_congr
  intro block _
  exact block.filter_startsTag_lines

/-- Joining the tags of blocks is joining the lines of the blocks. -/
theorem intercalate_map_text (blocks : List TagBlock) :
    [' '].intercalate (blocks.map TagBlock.text) =
      [' '].intercalate ((blocks.flatMap TagBlock.lines).filter fun line => !line.isEmpty) := by
  have hgroups : ∀ group ∈ blocks.map TagBlock.filledLines, group ≠ [] := by
    intro group hgroup
    rcases List.mem_map.mp hgroup with ⟨block, _, rfl⟩
    simp [TagBlock.filledLines_eq]
  have hjoined := Text.intercalate_map_intercalate [' '] hgroups
  rw [List.map_map, ← List.flatMap_def] at hjoined
  rw [List.filter_flatMap]
  exact hjoined

/-! ## Sections -/

/-- The prose goes on as long as no line starts a tag. -/
theorem prefix_prose_of_forall {front lines : List Text} (hfront : front <+: lines)
    (h : ∀ line ∈ front, startsTag line = false) : front <+: (Sections.ofLines lines).prose := by
  rcases hfront with ⟨rest, rfl⟩
  have hwhile : ∀ line ∈ front, (!startsTag line) = true := by
    intro line hline
    rw [h line hline]
    rfl
  rw [Sections.ofLines, List.takeWhile_append_of_pos hwhile]
  exact List.prefix_append _ _

/-- The sections of a comment hold all of its lines in order.  The prose is the
longest start of the lines in which none starts a tag.  The lines after it are a list
of blocks, and the tags are the joined lines of the blocks: there are as many tags
as lines that start one, each tag starts with its line, and all tags joined by
spaces are all lines but the empty ones joined by spaces. -/
theorem ofLines_lossless (lines : List Text) :
    ∃ (tagLines : List Text) (blocks : List TagBlock),
      lines = (Sections.ofLines lines).prose ++ tagLines ∧
      (∀ line ∈ (Sections.ofLines lines).prose, startsTag line = false) ∧
      (∀ front, front <+: lines → (∀ line ∈ front, startsTag line = false) →
        front <+: (Sections.ofLines lines).prose) ∧
      tagLines = blocks.flatMap TagBlock.lines ∧
      (Sections.ofLines lines).tags = blocks.map TagBlock.text ∧
      (∀ tag ∈ (Sections.ofLines lines).tags, startsTag tag = true) ∧
      (Sections.ofLines lines).tags.length = tagLines.countP startsTag ∧
      (∀ (i : Nat) line, (tagLines.filter startsTag)[i]? = some line →
        ∃ tag, (Sections.ofLines lines).tags[i]? = some tag ∧ line <+: tag) ∧
      [' '].intercalate (Sections.ofLines lines).tags =
        [' '].intercalate (tagLines.filter fun line => !line.isEmpty) := by
  rcases exists_blocks_of_opensTag (opensTag_dropWhile lines) with ⟨blocks, hlines, htags⟩
  have htags : (Sections.ofLines lines).tags = blocks.map TagBlock.text := htags
  refine ⟨_, blocks, List.takeWhile_append_dropWhile.symm, ?_, ?_, hlines, htags, ?_, ?_, ?_, ?_⟩
  · intro line hline
    simpa using List.mem_takeWhile_imp hline
  · intro front
    exact prefix_prose_of_forall
  · intro tag htag
    rw [htags] at htag
    rcases List.mem_map.mp htag with ⟨block, _, rfl⟩
    exact block.startsTag_text
  · rw [htags, hlines, List.countP_eq_length_filter, filter_startsTag_blocks, List.length_map,
      List.length_map]
  · intro i line hline
    rw [hlines, filter_startsTag_blocks, List.getElem?_map] at hline
    rcases Option.map_eq_some_iff.mp hline with ⟨block, hblock, rfl⟩
    exact ⟨block.text, by rw [htags, List.getElem?_map, hblock]; rfl, block.first_prefix_text⟩
  · rw [htags, hlines]
    exact intercalate_map_text blocks

end Comment
end DocComment
