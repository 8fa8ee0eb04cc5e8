import DocComment.Text.Identifier

/-!
# Name and description

The prose of a comment describes one thing.  Its first line may name the thing
by a word and a colon; an explicit name tag serves when it does not.  The rest
is the description, kept as a list of paragraphs.
-/

namespace DocComment
namespace Comment

/-! ## Description -/

/-- The paragraphs of the given lines: the runs of lines between blank lines,
each joined into one line. -/
def paragraphs (lines : List Text) : List Text :=
  ((lines.splitOnP Text.allBlank).filter fun run => !run.isEmpty).map fun run =>
    [' '].intercalate (run.map Text.trim)

/-- The description in the given lines: their paragraphs, with an empty line
between each two. -/
def describe (lines : List Text) : Text :=
  ['\n', '\n'].intercalate (paragraphs lines)

/-! ## Heading -/

/-- What a record is called and what it is about. -/
structure Heading where
  name : Text
  description : Text
deriving Repr, DecidableEq

/-- A line that opens with a record name and a colon: the name, and the text
after the colon and the blanks that follow it. -/
def namedLine? (line : Text) : Option (Text × Text) :=
  let name := line.takeWhile Text.isNamePart
  match line.dropWhile Text.isNamePart with
  | ':' :: rest =>
    if Text.isRecordName name then (Text.remainder? rest).map fun text => (name, text)
    else none
  | _ => none

/-- The heading in the given prose.  A name on the first line comes before the
name tag. -/
def Heading.ofProse (prose : List Text) (nameTag : Option Text) : Heading :=
  match prose with
  | [] => ⟨nameTag.getD [], []⟩
  | first :: rest =>
    match namedLine? first with
    | some (name, text) => ⟨name, describe (text :: rest)⟩
    | none => ⟨nameTag.getD [], describe (first :: rest)⟩

end Comment
end DocComment
