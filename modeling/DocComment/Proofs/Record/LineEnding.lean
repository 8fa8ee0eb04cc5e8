import DocComment.Proofs.Comment.Delimiters
import DocComment.Proofs.Text.LineEnding
import DocComment.Record

/-!
# Records and line endings

A comment gives the same record whether its lines end with a line feed or with a
carriage return and a line feed.  Taking the delimiters away keeps the line
endings of what they enclose, and after that a carriage return stands at the end
of a line, where it is trimmed away with the other blanks.  So the clean lines
are the same, and nothing later looks at the comment again.

Main results:

- Theorem `Comment.body_crlf`: the body of a comment keeps its line endings.
- Theorem `Comment.lines_crlf`: the clean lines do not depend on them.
- Theorem `Record.ofComment_crlf`: nor does the record.
-/

namespace DocComment
namespace Comment

/-! ## The body of a comment -/

/-- Dropping stars at the start keeps the line endings. -/
theorem dropStars_crlf (text : Text) : dropStars (Text.crlf text) = Text.crlf (dropStars text) :=
  Text.dropWhile_crlf (by decide) text

/-- Dropping stars at the end keeps the line endings. -/
theorem dropStarsEnd_crlf (text : Text) :
    dropStarsEnd (Text.crlf text) = Text.crlf (dropStarsEnd text) :=
  Text.dropWhile_reverse_crlf (by decide) text

/-- Taking both delimiters away keeps the line endings. -/
theorem enclosed?_crlf (raw : Text) :
    enclosed? (Text.crlf raw) = (enclosed? raw).map Text.crlf := by
  rw [enclosed?_eq, enclosed?_eq, Text.trim_crlf, Text.after?_crlf (by decide) (by decide)]
  cases Text.after? ['/', '*'] (Text.trim raw) with
  | none => rfl
  | some inner =>
      rw [Option.map_some, Option.bind_some, Option.bind_some,
        Text.before?_crlf (by decide) (by decide)]
      cases Text.before? ['*', '/'] inner with
      | none => rfl
      | some text =>
          simp only [Option.map_some, dropStars_crlf, dropStarsEnd_crlf]

/-- Dropping an opener keeps the line endings. -/
theorem dropOpener_crlf (raw : Text) :
    dropOpener (Text.crlf raw) = Text.crlf (dropOpener raw) := by
  rw [dropOpener_eq, dropOpener_eq, Text.trimStart_crlf,
    Text.after?_crlf (by decide) (by decide)]
  cases Text.after? ['/', '*'] (Text.trimStart raw) with
  | none => rfl
  | some rest => exact dropStars_crlf rest

/-- Dropping a closer keeps the line endings. -/
theorem dropCloser_crlf (raw : Text) :
    dropCloser (Text.crlf raw) = Text.crlf (dropCloser raw) := by
  rw [dropCloser_eq, dropCloser_eq, Text.trimEnd_crlf, Text.before?_crlf (by decide) (by decide)]
  cases Text.before? ['*', '/'] (Text.trimEnd raw) with
  | none => rfl
  | some rest => exact dropStarsEnd_crlf rest

/-- The body of a comment keeps its line endings. -/
theorem body_crlf (raw : Text) : body (Text.crlf raw) = Text.crlf (body raw) := by
  unfold body
  rw [enclosed?_crlf]
  cases enclosed? raw with
  | none => simp only [Option.map_none, dropOpener_crlf, dropCloser_crlf]
  | some text => rfl

/-! ## Lines and records -/

/-- A carriage return at the end of a line is trimmed away. -/
theorem undecorate_append_return (line : Text) : undecorate (line ++ ['\r']) = undecorate line := by
  rw [undecorate, undecorate, Text.trim_append_of_allBlank line (by decide)]

/-- The clean lines of a comment do not depend on its line endings. -/
theorem lines_crlf (raw : Text) : lines (Text.crlf raw) = lines raw := by
  rw [lines, lines, body_crlf, Text.map_splitOn_crlf undecorate_append_return]

end Comment

/-- The record of a comment does not depend on its line endings. -/
theorem Record.ofComment_crlf (raw : Text) :
    Record.ofComment (Text.crlf raw) = Record.ofComment raw := by
  rw [Record.ofComment, Record.ofComment, Comment.lines_crlf]

end DocComment
