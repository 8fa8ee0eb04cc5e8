import DocComment.Json.Value

/-!
# JSON text

One printer serves both forms of JSON text.  What differs between them is a
layout: where lines break and what stands after the colon of a field.

Main definitions:

- `Json.compact`: the text without any space.
- `Json.pretty`: the text with one element or field to a line.
-/

namespace DocComment
namespace Json

/-! ## Strings -/

/-- The escape of a control character without a short form: its code in four
hexadecimal digits. -/
def hexEscape (c : Char) : Text :=
  ['\x5c', 'u', '0', '0', Nat.digitChar (c.toNat / 16), Nat.digitChar (c.toNat % 16)]

/-- A character inside a string.  The double quote, the backslash and the control
characters are escaped, every other character stands for itself. -/
def escape (c : Char) : Text :=
  if c = '\x22' then ['\x5c', '\x22']
  else if c = '\x5c' then ['\x5c', '\x5c']
  else if c = '\x08' then ['\x5c', 'b']
  else if c = '\t' then ['\x5c', 't']
  else if c = '\n' then ['\x5c', 'n']
  else if c = '\x0c' then ['\x5c', 'f']
  else if c = '\r' then ['\x5c', 'r']
  else if c.toNat < 0x20 then hexEscape c
  else [c]

/-- A string between its quotes. -/
def quoted (text : Text) : Text :=
  '\x22' :: text.flatMap escape ++ ['\x22']

/-! ## Layout -/

/-- How the tokens of a value are spaced. -/
structure Layout where
  /-- What separates two lines, the second at a given depth. -/
  lineBreak : Nat → Text
  /-- What stands between the key and the value of a field. -/
  colon : Text

/-- No space anywhere. -/
def Layout.compact : Layout where
  lineBreak := fun _ => []
  colon := [':']

/-- Each element and each field on its own line, two spaces deeper than the
brackets around it. -/
def Layout.pretty : Layout where
  lineBreak := fun depth => '\n' :: List.replicate (2 * depth) ' '
  colon := [':', ' ']

mutual

/-- The text of a value whose brackets stand at a given depth. -/
def print (layout : Layout) (depth : Nat) : Json → Text
  | .string text => quoted text
  | .array [] => ['[', ']']
  | .array (first :: rest) =>
    '[' :: layout.lineBreak (depth + 1) ++ print layout (depth + 1) first
      ++ printElements layout (depth + 1) rest ++ layout.lineBreak depth ++ [']']
  | .object [] => ['\x7b', '\x7d']
  | .object ((key, first) :: rest) =>
    '\x7b' :: layout.lineBreak (depth + 1) ++ quoted key ++ layout.colon
      ++ print layout (depth + 1) first
      ++ printFields layout (depth + 1) rest ++ layout.lineBreak depth ++ ['\x7d']

/-- The text of the elements after the first. -/
def printElements (layout : Layout) (depth : Nat) : List Json → Text
  | [] => []
  | element :: rest =>
    ',' :: layout.lineBreak depth ++ print layout depth element ++ printElements layout depth rest

/-- The text of the fields after the first. -/
def printFields (layout : Layout) (depth : Nat) : List (Text × Json) → Text
  | [] => []
  | (key, value) :: rest =>
    ',' :: layout.lineBreak depth ++ quoted key ++ layout.colon ++ print layout depth value
      ++ printFields layout depth rest

end

/-- The text of a value without any space. -/
def compact (value : Json) : Text :=
  print Layout.compact 0 value

/-- The text of a value with one element or field to a line. -/
def pretty (value : Json) : Text :=
  print Layout.pretty 0 value

end Json
end DocComment
