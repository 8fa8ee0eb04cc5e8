import DocComment.Text.Blank

/-!
# The layout of a tag

After its label a tag may give a type in braces, then words separated by blanks.
The readers of the single tags are put together from these parts.
-/

namespace DocComment
namespace Tag

/-- A text that starts with a blank. -/
def startsBlank (text : Text) : Bool :=
  (text.head?.map Text.isBlank).getD false

/-- The braces at the start, after any blanks: the text between the opening brace
and the first closing one, and what follows it. -/
def braces? (text : Text) : Option (Text × Text) :=
  match Text.trimStart text with
  | '\x7b' :: inner =>
    match inner.dropWhile (· != '\x7d') with
    | [] => none
    | _ :: rest => some (inner.takeWhile (· != '\x7d'), rest)
  | _ => none

/-- The word after a run of at least one blank, up to the next blank, and what
follows it. -/
def word? (text : Text) : Option (Text × Text) :=
  if startsBlank text then
    some ((Text.trimStart text).takeWhile fun c => !Text.isBlank c,
      (Text.trimStart text).dropWhile fun c => !Text.isBlank c)
  else none

end Tag
end DocComment
