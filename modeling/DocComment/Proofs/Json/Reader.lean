import DocComment.Json.Printer

/-!
# Reading JSON

A reader for JSON texts whose values are strings, arrays and objects.  It takes
any blanks between the lexemes and every escape that strings may hold: the short
ones, a code in four hexadecimal digits in either case, and the pairs of codes
for characters beyond the first plane.  Numbers and the literal names stand for
no value of `Json`, so a text with one of them is refused.

A text is cut into lexemes first.  The lexemes are then read from left to right,
with the arrays and objects that are still open on a stack.

Main definitions:

- `Json.lexemes?`: the lexemes of a text.
- `Json.read?`: the value of a text.
-/

namespace DocComment
namespace Json

/-! ## Strings -/

/-- The value of a hexadecimal digit. -/
def hexValue? (c : Char) : Option Nat :=
  if 0x30 ≤ c.toNat ∧ c.toNat ≤ 0x39 then some (c.toNat - 0x30)
  else if 0x41 ≤ c.toNat ∧ c.toNat ≤ 0x46 then some (c.toNat - 0x37)
  else if 0x61 ≤ c.toNat ∧ c.toNat ≤ 0x66 then some (c.toNat - 0x57)
  else none

/-- The code in four hexadecimal digits after an escape, and what follows it. -/
def readCode? : Text → Option (Nat × Text)
  | '\x5c' :: 'u' :: a :: b :: c :: d :: rest => do
    let a ← hexValue? a
    let b ← hexValue? b
    let c ← hexValue? c
    let d ← hexValue? d
    return (((a * 16 + b) * 16 + c) * 16 + d, rest)
  | _ => none

/-- The character of a code.  The first code of a pair needs the second one, and
that one does not stand alone. -/
def readCoded? (text : Text) : Option (Char × Text) := do
  let (code, rest) ← readCode? text
  if code < 0xD800 ∨ 0xDFFF < code then return (Char.ofNat code, rest)
  else if code < 0xDC00 then
    let (low, rest) ← readCode? rest
    if 0xDC00 ≤ low ∧ low ≤ 0xDFFF then
      return (Char.ofNat (0x10000 + (code - 0xD800) * 0x400 + (low - 0xDC00)), rest)
    else none
  else none

/-- The character of a short escape. -/
def shortEscape? (c : Char) : Option Char :=
  if c = '\x22' ∨ c = '\x5c' ∨ c = '/' then some c
  else if c = 'b' then some '\x08'
  else if c = 'f' then some '\x0c'
  else if c = 'n' then some '\n'
  else if c = 'r' then some '\r'
  else if c = 't' then some '\t'
  else none

/-- The next character of a string, and what follows it.  Control characters have
to be escaped. -/
def readChar? : Text → Option (Char × Text)
  | [] => none
  | '\x5c' :: rest =>
    match rest with
    | [] => none
    | 'u' :: _ => readCoded? ('\x5c' :: rest)
    | c :: after => (shortEscape? c).map fun c => (c, after)
  | c :: rest => if c.toNat < 0x20 then none else some (c, rest)

/-- Reading a code takes something from the text. -/
theorem length_readCode?_lt {text rest : Text} {code : Nat}
    (h : readCode? text = some (code, rest)) : rest.length < text.length := by
  unfold readCode? at h
  split at h
  · simp only [Option.bind_eq_bind, Option.bind_eq_some_iff, Option.pure_def, Option.some.injEq,
      Prod.mk.injEq] at h
    rcases h with ⟨_, _, _, _, _, _, _, _, _, rfl⟩
    simp only [List.length_cons]
    omega
  · contradiction

/-- Reading a character by its code takes something from the text. -/
theorem length_readCoded?_lt {text rest : Text} {c : Char}
    (h : readCoded? text = some (c, rest)) : rest.length < text.length := by
  simp only [readCoded?, Option.bind_eq_bind, Option.bind_eq_some_iff] at h
  rcases h with ⟨⟨code, rest'⟩, hcode, h⟩
  have hlength := length_readCode?_lt hcode
  split at h
  · simp only [Option.pure_def, Option.some.injEq, Prod.mk.injEq] at h
    rw [← h.2]
    exact hlength
  · split at h
    · rcases Option.bind_eq_some_iff.mp h with ⟨⟨low, rest''⟩, hlow, h⟩
      split at h
      · simp only [Option.pure_def, Option.some.injEq, Prod.mk.injEq] at h
        rw [← h.2]
        exact Nat.lt_trans (length_readCode?_lt hlow) hlength
      · contradiction
    · contradiction

/-- Reading a character takes something from the text. -/
theorem length_readChar?_lt {text rest : Text} {c : Char} (h : readChar? text = some (c, rest)) :
    rest.length < text.length := by
  unfold readChar? at h
  split at h
  · contradiction
  · split at h
    · contradiction
    · exact length_readCoded?_lt h
    · rcases Option.map_eq_some_iff.mp h with ⟨_, _, heq⟩
      cases heq
      simp only [List.length_cons]
      omega
  · split at h
    · contradiction
    · cases h
      simp

/-- A string up to its closing quote, and what follows the quote. -/
def readString? (text : Text) : Option (Text × Text) :=
  match text with
  | '\x22' :: rest => some ([], rest)
  | text =>
    match h : readChar? text with
    | none => none
    | some (c, rest) =>
      have := length_readChar?_lt h
      (readString? rest).map fun read => (c :: read.1, read.2)
termination_by text.length

/-- Reading a string takes something from the text. -/
theorem length_readString?_lt {text inner rest : Text}
    (h : readString? text = some (inner, rest)) : rest.length < text.length := by
  fun_induction readString? text generalizing inner with
  | case1 rest' =>
      cases h
      simp
  | case2 text hquote hnone => contradiction
  | case3 text hquote c after hchar hlength ih =>
      rcases Option.map_eq_some_iff.mp h with ⟨⟨inner', rest'⟩, hread, heq⟩
      cases heq
      have := ih hread
      omega

/-! ## Lexemes -/

/-- A lexeme of a text. -/
inductive Lexeme where
  | beginArray
  | endArray
  | beginObject
  | endObject
  | comma
  | colon
  | string (text : Text)
deriving Repr, DecidableEq

/-- A blank between lexemes. -/
def isSpace (c : Char) : Bool :=
  c == ' ' || c == '\t' || c == '\n' || c == '\r'

/-- The lexeme of a single character. -/
def sign? (c : Char) : Option Lexeme :=
  if c = '[' then some .beginArray
  else if c = ']' then some .endArray
  else if c = '\x7b' then some .beginObject
  else if c = '\x7d' then some .endObject
  else if c = ',' then some .comma
  else if c = ':' then some .colon
  else none

/-- The lexemes of a text. -/
def lexemes? : Text → Option (List Lexeme)
  | [] => some []
  | c :: rest =>
    if isSpace c then lexemes? rest
    else if c = '\x22' then
      match h : readString? rest with
      | none => none
      | some (inner, after) =>
        have := length_readString?_lt h
        (lexemes? after).map (.string inner :: ·)
    else (sign? c).bind fun sign => (lexemes? rest).map (sign :: ·)
termination_by text => text.length

/-! ## Values -/

/-- An array or object that is still open, with what was read of it. -/
inductive Frame where
  | array (elements : List Json)
  /-- The key is that of the field whose value comes next. -/
  | object (fields : List (Text × Json)) (key : Text)

mutual

/-- Read on where a value is to start. -/
def readValue? (frames : List Frame) : List Lexeme → Option Json
  | .string text :: rest => readAfter? (.string text) frames rest
  | .beginArray :: .endArray :: rest => readAfter? (.array []) frames rest
  | .beginArray :: rest => readValue? (.array [] :: frames) rest
  | .beginObject :: .endObject :: rest => readAfter? (.object []) frames rest
  | .beginObject :: .string key :: .colon :: rest => readValue? (.object [] key :: frames) rest
  | _ => none

/-- Read on after a value. -/
def readAfter? (value : Json) : List Frame → List Lexeme → Option Json
  | [], [] => some value
  | .array elements :: frames, .comma :: rest =>
    readValue? (.array (elements ++ [value]) :: frames) rest
  | .array elements :: frames, .endArray :: rest =>
    readAfter? (.array (elements ++ [value])) frames rest
  | .object fields key :: frames, .comma :: .string next :: .colon :: rest =>
    readValue? (.object (fields ++ [(key, value)]) next :: frames) rest
  | .object fields key :: frames, .endObject :: rest =>
    readAfter? (.object (fields ++ [(key, value)])) frames rest
  | _, _ => none

end

/-- The value of a text. -/
def read? (text : Text) : Option Json :=
  (lexemes? text).bind (readValue? [])

end Json
end DocComment
