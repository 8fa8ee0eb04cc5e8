import DocComment.Text.Affix

/-!
# The body of a comment

A block comment is read with or without its delimiters.  A complete comment
loses the slash and the run of stars at each end; a comment that lacks one
delimiter loses the one it has.
-/

namespace DocComment
namespace Comment

/-- Drop the stars at the start. -/
def dropStars (text : Text) : Text :=
  text.dropWhile (· == '*')

/-- Drop the stars at the end. -/
def dropStarsEnd (text : Text) : Text :=
  (text.reverse.dropWhile (· == '*')).reverse

/-- The text between the delimiters of a complete comment, around which there
may be blanks.  The opener and the closer share no star, and when only stars
stand between the two slashes nothing is left. -/
def enclosed? (raw : Text) : Option Text :=
  match Text.trim raw with
  | '/' :: '*' :: inner =>
    (Text.before? ['*', '/'] inner).map fun body => dropStarsEnd (dropStars body)
  | _ => none

/-- Drop an opener, a slash and a run of stars, together with the blanks before
it. -/
def dropOpener (raw : Text) : Text :=
  match Text.trimStart raw with
  | '/' :: '*' :: rest => dropStars rest
  | _ => raw

/-- Drop a closer, a run of stars and a slash, together with the blanks after
it. -/
def dropCloser (raw : Text) : Text :=
  match Text.before? ['*', '/'] (Text.trimEnd raw) with
  | some rest => dropStarsEnd rest
  | none => raw

/-- The text of a comment without its delimiters. -/
def body (raw : Text) : Text :=
  match enclosed? raw with
  | some text => text
  | none => dropCloser (dropOpener raw)

end Comment
end DocComment
