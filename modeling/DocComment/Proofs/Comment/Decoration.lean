import DocComment.Proofs.Comment.Layout
import DocComment.Proofs.Text.Field

/-!
# Decorated lines

The lines of a comment may be decorated in many ways, each in its own: with any
margin, with a star, with a star and a space, or not at all.  Reading takes away the
decoration and nothing of the text, also where the text has stars of its own.

Main results:

- Definition `Comment.Row`: a text with its decoration.
- Theorem `Comment.Row.undecorate_line`: the decoration is taken away again.
- Theorem `Comment.lines_layOut`: the lines of a comment are the texts of its rows.
-/

namespace DocComment
namespace Comment

/-! ## One line -/

/-- Blanks within a line. -/
structure Margin (text : Text) : Prop where
  blank : Text.allBlank text = true
  one_line : '\n' ∉ text

instance (text : Text) : Decidable (Margin text) :=
  decidable_of_iff (Text.allBlank text = true ∧ '\n' ∉ text)
    ⟨fun h => ⟨h.1, h.2⟩, fun h => ⟨h.blank, h.one_line⟩⟩

/-- What stands between the margin and the text of a line. -/
inductive Mark where
  | spacedStar
  | star
  | plain
deriving Repr, DecidableEq

/-- The text of a mark. -/
def Mark.text : Mark → Text
  | .spacedStar => ['*', ' ']
  | .star => ['*']
  | .plain => []

/-- A text with its decoration.  Without a mark, the text does not start with a star
of its own. -/
structure Row where
  indent : Text
  mark : Mark
  text : Text
  trailing : Text
  indent_margin : Margin indent
  inline : text.Inline
  unmarked : mark = .plain → text.head? ≠ some '*'
  trailing_margin : Margin trailing

/-- The decorated line. -/
def Row.line (row : Row) : Text :=
  row.indent ++ row.mark.text ++ row.text ++ row.trailing

/-- The star after the margin is taken away with the blanks around what follows it. -/
theorem undecorate_star {indent : Text} (h : Text.allBlank indent = true) (rest : Text) :
    undecorate (indent ++ '*' :: rest) = Text.trim rest := by
  have htrim : Text.trim (indent ++ '*' :: rest) = '*' :: Text.trimEnd rest := by
    have hstart : Text.trimStart ('*' :: rest) = '*' :: rest := rfl
    rw [Text.trim, Text.trimStart_append_of_allBlank h, hstart, Text.trimEnd_cons (by decide)]
  obtain ⟨blanks, hrest, hblanks⟩ := Text.exists_eq_trimEnd_append rest
  simp only [undecorate, htrim]
  rw [← Text.trim_append_of_allBlank (Text.trimEnd rest) hblanks, ← hrest]

namespace Row

variable (row : Row)

/-- The blanks around the text are trimmed away. -/
theorem trim_text {before : Text} (h : Text.allBlank before = true) :
    Text.trim (before ++ row.text ++ row.trailing) = row.text := by
  rw [Text.trim_surrounded _ h row.trailing_margin.blank, row.inline.trimmed.trim_eq]

/-- The decoration of a line is taken away again. -/
theorem undecorate_line : undecorate row.line = row.text := by
  have hindent := row.indent_margin.blank
  cases hmark : row.mark with
  | spacedStar =>
      have hline : row.line = row.indent ++ '*' :: ([' '] ++ row.text ++ row.trailing) := by
        simp [line, hmark, Mark.text]
      rw [hline, undecorate_star hindent, row.trim_text (by decide)]
  | star =>
      have hline : row.line = row.indent ++ '*' :: ([] ++ row.text ++ row.trailing) := by
        simp [line, hmark, Mark.text]
      rw [hline, undecorate_star hindent, row.trim_text rfl]
  | plain =>
      have htrim : Text.trim row.line = row.text := by
        rw [line, hmark, Mark.text, List.append_nil]
        exact row.trim_text hindent
      -- A star at the start would be one of the text, and it has none there.
      unfold undecorate
      rw [htrim]
      split
      · rename_i rest htext
        exact absurd (by rw [htext]; rfl) (row.unmarked hmark)
      · rfl

/-- A decorated row stays on one line. -/
theorem newline_notMem_line : '\n' ∉ row.line := by
  have hmark : '\n' ∉ row.mark.text := by
    cases row.mark with
    | spacedStar => decide
    | star => decide
    | plain => decide
  simp [line, row.indent_margin.one_line, hmark, row.inline.one_line, row.trailing_margin.one_line]

end Row

/-! ## Whole comments -/

/-- The comment with the given rows: a slash and stars, the rows on lines of their own,
and the closer after a margin. -/
def layOut (opener : Nat) (rows : List Row) (closing : Text) : Text :=
  '/' :: (stars (opener + 1) ++ '\n' :: (['\n'].intercalate (rows.map Row.line) ++
    '\n' :: (closing ++ ['*', '/'])))

/-- The comment that is laid out encloses its rows and the indentation of its closer. -/
theorem encloses_layOut (opener : Nat) {rows : List Row} {closing : Text} (hne : rows ≠ [])
    (hclosing : Margin closing) :
    Encloses (layOut opener rows closing) (between (rows.map Row.line) closing) := by
  refine ⟨bare_between _ hclosing.blank, opener, 0, ?_⟩
  obtain ⟨row, rows, rfl⟩ := List.exists_cons_of_ne_nil hne
  simp [layOut, between, Text.intercalate_cons, stars]

/-- The lines of a comment are the texts of its rows, however each of them is
decorated. -/
theorem lines_layOut (opener : Nat) {rows : List Row} {closing : Text} (hne : rows ≠ [])
    (hedges : Edged (rows.map Row.text)) (hclosing : Margin closing) :
    Comment.lines (layOut opener rows closing) = rows.map Row.text := by
  have hclean : (rows.map Row.line).map undecorate = rows.map Row.text := by
    rw [List.map_map]
    refine List.map_congr_left ?_
    intro row _
    exact row.undecorate_line
  have hfeeds : ∀ line ∈ rows.map Row.line, '\n' ∉ line := by
    intro line hline
    obtain ⟨row, _, rfl⟩ := List.mem_map.mp hline
    exact row.newline_notMem_line
  have hencloses := encloses_layOut opener hne hclosing
  rw [hencloses.lines_eq hfeeds hclosing.blank hclosing.one_line (by rwa [hclean]), hclean]

/-- Rows in all decorations.  The first looks like a closer, the second is empty, and
the others have stars and closers of their own. -/
def mixedRows : List Row :=
  [{ indent := ['\t'], mark := .star, text := "/ no end".toList, trailing := [],
     indent_margin := by decide, inline := by decide, unmarked := by decide,
     trailing_margin := by decide },
   { indent := "  ".toList, mark := .plain, text := [], trailing := [],
     indent_margin := by decide, inline := Text.inline_nil, unmarked := by decide,
     trailing_margin := by decide },
   { indent := [' '], mark := .spacedStar, text := "** bold */".toList, trailing := " \r".toList,
     indent_margin := by decide, inline := by decide, unmarked := by decide,
     trailing_margin := by decide },
   { indent := [], mark := .plain, text := "last */".toList, trailing := ['\u3000'],
     indent_margin := by decide, inline := by decide, unmarked := by decide,
     trailing_margin := by decide }]

theorem lines_layOut_mixedRows :
    layOut 2 mixedRows ['\t'] =
      "/***\n\t*/ no end\n  \n * ** bold */ \r\nlast */\u3000\n\t*/".toList ∧
    Comment.lines (layOut 2 mixedRows ['\t']) =
      ["/ no end".toList, [], "** bold */".toList, "last */".toList] := by
  have hedges : Edged (mixedRows.map Row.text) := ⟨by decide, by decide⟩
  exact ⟨by decide, lines_layOut 2 (by simp [mixedRows]) hedges (by decide)⟩

end Comment
end DocComment
