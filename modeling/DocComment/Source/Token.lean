import DocComment.Text.Blank

/-!
# Tokens of a source

The character-level view of a source: it is the concatenation of tokens, read
from left to right.  Each token is a block comment, a line comment, a string
literal or a single other character.

Main results:

- `Token.read_text`: a token and the rest after it make up the text that was
  read.
- `Token.flatMap_text_lex`: the tokens of a source concatenate to the source.
-/

namespace DocComment

/-- A token of a source, with its text. -/
inductive Token where
  | block (text : Text)
  | lineComment (text : Text)
  | literal (text : Text)
  | plain (char : Char)
deriving Repr, DecidableEq

namespace Token

/-- The text of a token. -/
def text : Token → Text
  | .block text => text
  | .lineComment text => text
  | .literal text => text
  | .plain char => [char]

/-- The text of a block comment. -/
def block? : Token → Option Text
  | .block text => some text
  | _ => none

/-! ## Where a token ends -/

/-- Cut a text after its first `*/`, or at its end. -/
def cutClose : Text → Text × Text
  | [] => ([], [])
  | [c] => ([c], [])
  | c :: d :: rest =>
    if c = '*' ∧ d = '/' then ([c, d], rest)
    else (c :: (cutClose (d :: rest)).1, (cutClose (d :: rest)).2)

/-- Cut a text after its first line feed, or at its end. -/
def cutLine : Text → Text × Text
  | [] => ([], [])
  | c :: rest => if c = '\n' then ([c], rest) else (c :: (cutLine rest).1, (cutLine rest).2)

/-- Cut a text after the end of a string literal that it continues.  A backslash
takes the next character with it. -/
def cutLiteral (quote : Char) : Text → Text × Text
  | [] => ([], [])
  | [c] => ([c], [])
  | c :: d :: rest =>
    if c = '\x5c' then (c :: d :: (cutLiteral quote rest).1, (cutLiteral quote rest).2)
    else if c = '\n' ∧ quote ≠ '\x60' then ([c], d :: rest)
    else if c = quote then ([c], d :: rest)
    else (c :: (cutLiteral quote (d :: rest)).1, (cutLiteral quote (d :: rest)).2)

/-- Cutting at a closer loses no character. -/
theorem cutClose_append (text : Text) : (cutClose text).1 ++ (cutClose text).2 = text := by
  fun_induction cutClose text with
  | case1 => rfl
  | case2 c => rfl
  | case3 c d rest h => rfl
  | case4 c d rest h ih => simp [ih]

/-- Cutting at the end of a line loses no character. -/
theorem cutLine_append (text : Text) : (cutLine text).1 ++ (cutLine text).2 = text := by
  fun_induction cutLine text with
  | case1 => rfl
  | case2 rest => rfl
  | case3 c rest h ih => simp [ih]

/-- Cutting at the end of a literal loses no character. -/
theorem cutLiteral_append (quote : Char) (text : Text) :
    (cutLiteral quote text).1 ++ (cutLiteral quote text).2 = text := by
  fun_induction cutLiteral quote text with
  | case1 => rfl
  | case2 c => rfl
  | case3 d rest ih => simp [ih]
  | case4 d rest h => rfl
  | case5 d rest h => rfl
  | case6 c d rest _ _ _ ih => simp [ih]

/-! ## Reading -/

/-- An apostrophe, a double quote or a backtick opens a string literal. -/
def isQuote (c : Char) : Bool :=
  c == '\x27' || c == '\x22' || c == '\x60'

/-- The token at the start of a text that begins with a character, and the rest
after it. -/
def read (c : Char) (rest : Text) : Token × Text :=
  if c = '/' ∧ rest.head? = some '*' then
    (.block (c :: '*' :: (cutClose rest.tail).1), (cutClose rest.tail).2)
  else if c = '/' ∧ rest.head? = some '/' then
    (.lineComment (c :: (cutLine rest).1), (cutLine rest).2)
  else if isQuote c then
    (.literal (c :: (cutLiteral c rest).1), (cutLiteral c rest).2)
  else (.plain c, rest)

/-- A token and the rest after it make up the text that was read. -/
theorem read_text (c : Char) (rest : Text) :
    (read c rest).1.text ++ (read c rest).2 = c :: rest := by
  unfold read
  split
  · rename_i h
    cases rest with
    | nil => simp at h
    | cons d rest =>
      simp only [List.head?_cons, Option.some.injEq] at h
      simp [text, h, cutClose_append]
  · split
    · simp [text, cutLine_append]
    · split
      · simp [text, cutLiteral_append]
      · rfl

/-- The rest after a token is shorter than the text that was read. -/
theorem length_read_lt (c : Char) (rest : Text) :
    (read c rest).2.length < rest.length + 1 := by
  have hlength := congrArg List.length (read_text c rest)
  have hpos : 0 < (read c rest).1.text.length := by
    unfold read
    split
    · simp [text]
    · split
      · simp [text]
      · split <;> simp [text]
  simp only [List.length_append, List.length_cons] at hlength
  omega

/-- The tokens of a source. -/
def lex : Text → List Token
  | [] => []
  | c :: rest =>
    have := length_read_lt c rest
    (read c rest).1 :: lex (read c rest).2
termination_by source => source.length

/-- The tokens of a source concatenate to the source. -/
theorem flatMap_text_lex (source : Text) : (lex source).flatMap text = source := by
  fun_induction lex source with
  | case1 => rfl
  | case2 c rest _ ih => simp [ih, read_text]

/-- The texts of the block-comment tokens of a source, in their order. -/
def blocks (source : Text) : List Text :=
  (lex source).filterMap block?

end Token
end DocComment
