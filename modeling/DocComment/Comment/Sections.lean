import DocComment.Text.Blank

/-!
# Prose and tags

The lines of a comment fall into two sections: the prose up to the first line
that starts with an at sign, and the tags from there on.  A tag may be continued
on the lines after it; its parts are joined by single spaces.
-/

namespace DocComment
namespace Comment

/-- The sections of a comment. -/
structure Sections where
  /-- The lines before the first tag, empty lines included. -/
  prose : List Text
  /-- The tags, each with its continuation lines. -/
  tags : List Text
deriving Repr, DecidableEq

/-- A line that starts a tag. -/
def startsTag (line : Text) : Bool :=
  line.head? == some '@'

/-- Fold lines into tags: the text that continues the tag before the lines, and
the tags that the lines start. -/
def foldLines : List Text → Text × List Text
  | [] => ([], [])
  | line :: rest =>
    let (continuation, tags) := foldLines rest
    if startsTag line then ([], (line ++ continuation) :: tags)
    else if line.isEmpty then (continuation, tags)
    else (' ' :: line ++ continuation, tags)

/-- The sections of the given lines. -/
def Sections.ofLines (lines : List Text) : Sections where
  prose := lines.takeWhile fun line => !startsTag line
  tags := (foldLines (lines.dropWhile fun line => !startsTag line)).2

end Comment
end DocComment
