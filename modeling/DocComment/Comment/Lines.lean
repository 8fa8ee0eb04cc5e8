import DocComment.Comment.Body

/-!
# The lines of a comment

The clean lines of a comment: each is trimmed and loses the star that decorates
it.  Blank lines inside the comment are kept as empty lines, those at its edges
are dropped.  A carriage return is a blank, so both line endings give the same
lines.
-/

namespace DocComment
namespace Comment

/-- A line without its decoration: the blanks around it, one star, and the blanks
after the star. -/
def undecorate (line : Text) : Text :=
  match Text.trim line with
  | '*' :: rest => Text.trim rest
  | text => text

/-- Drop the empty lines at both ends. -/
def dropEdges (lines : List Text) : List Text :=
  ((lines.dropWhile List.isEmpty).reverse.dropWhile List.isEmpty).reverse

/-- The clean lines of a comment. -/
def lines (raw : Text) : List Text :=
  dropEdges (((body raw).splitOn '\n').map undecorate)

end Comment
end DocComment
