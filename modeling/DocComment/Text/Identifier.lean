import DocComment.Text.Blank

/-!
# Identifiers

Parameter names are identifiers of the documented language, restricted to
ASCII: a letter, an underscore or a dollar sign, then also digits.  Record
names may hold hyphens as well.
-/

namespace DocComment
namespace Text

/-- A letter of the ASCII alphabet. -/
def isLetter (c : Char) : Bool :=
  (decide ('A' ≤ c) && decide (c ≤ 'Z')) || (decide ('a' ≤ c) && decide (c ≤ 'z'))

/-- An ASCII digit. -/
def isDigit (c : Char) : Bool :=
  decide ('0' ≤ c) && decide (c ≤ '9')

/-- A character that may start an identifier. -/
def isIdentStart (c : Char) : Bool :=
  isLetter c || c == '_' || c == '$'

/-- A character that may continue an identifier. -/
def isIdentPart (c : Char) : Bool :=
  isIdentStart c || isDigit c

/-- A character that may continue the name of a record. -/
def isNamePart (c : Char) : Bool :=
  isIdentPart c || c == '-'

/-- An identifier is a start character followed by identifier characters. -/
def isIdentifier : Text → Bool
  | [] => false
  | c :: rest => isIdentStart c && rest.all isIdentPart

/-- The name of a record is an identifier that may also hold hyphens after its
first character. -/
def isRecordName : Text → Bool
  | [] => false
  | c :: rest => isIdentStart c && rest.all isNamePart

end Text
end DocComment
