import DocComment.Text.Utf8

/-!
# Block comments of a source

A source is scanned by byte positions in its UTF-8 form.  At each position the
scan recognises a region: a block comment, a line comment, a string literal or
a single other byte.  Comment openers inside literals and line comments are
passed over, and a region that is never closed runs to the end of the source.
Regular-expression literals are not recognised.

Main definitions:

- `Source.regionAt`: the region that starts at a position, and the position
  after it.
- `Source.blockSpans`: the positions of all block comments.
- `Source.blockComments`: the texts of all block comments, delimiters included.

Main results:

- `Source.lt_regionAt`: the scan advances with every region.
- `Source.regionAt_le`: no region reaches beyond the end of the source.
-/

namespace DocComment
namespace Source

/-! ## The bytes the scan looks for -/

/-- The byte of `/`. -/
def slash : UInt8 := 0x2F

/-- The byte of `*`. -/
def star : UInt8 := 0x2A

/-- The byte of a line feed. -/
def lineFeed : UInt8 := 0x0A

/-- The byte of a backslash. -/
def backslash : UInt8 := 0x5C

/-- The byte of a backtick, the quote of template literals. -/
def backtick : UInt8 := 0x60

/-- The bytes that open a string literal: the apostrophe, the double quote and
the backtick. -/
def isQuote (byte : UInt8) : Bool :=
  byte == 0x27 || byte == 0x22 || byte == backtick

/-! ## Where a region ends -/

/-- The position after the first `*/` that starts at or after a position, or the
end of the source. -/
def closeFrom (bytes : ByteArray) (i : Nat) : Nat :=
  if h : i + 1 < bytes.size then
    if bytes[i] == star && bytes[i + 1] == slash then i + 2
    else closeFrom bytes (i + 1)
  else bytes.size
termination_by bytes.size - i

/-- The position after the first line feed at or after a position, or the end of
the source. -/
def lineEnd (bytes : ByteArray) (i : Nat) : Nat :=
  if h : i < bytes.size then
    if bytes[i] == lineFeed then i + 1 else lineEnd bytes (i + 1)
  else bytes.size
termination_by bytes.size - i

/-- The position after a string literal whose text goes on at a position.  A
backslash takes the next byte with it.  The literal ends with its quote, and
unless it is a template also with a line feed. -/
def literalEnd (bytes : ByteArray) (quote : UInt8) (i : Nat) : Nat :=
  if h : i < bytes.size then
    if bytes[i] == backslash then literalEnd bytes quote (i + 2)
    else if bytes[i] == lineFeed && quote != backtick then i + 1
    else if bytes[i] == quote then i + 1
    else literalEnd bytes quote (i + 1)
  else bytes.size
termination_by bytes.size - i

/-- The search for a closer does not go back. -/
theorem le_closeFrom (bytes : ByteArray) (i : Nat) (h : i ≤ bytes.size) :
    i ≤ closeFrom bytes i := by
  fun_induction closeFrom bytes i with
  | case1 i _ _ => omega
  | case2 i hi _ ih => have := ih (by omega); omega
  | case3 i _ => exact h

/-- The search for a closer ends inside the source. -/
theorem closeFrom_le (bytes : ByteArray) (i : Nat) : closeFrom bytes i ≤ bytes.size := by
  fun_induction closeFrom bytes i with
  | case1 i hi _ => omega
  | case2 i _ _ ih => exact ih
  | case3 i _ => exact Nat.le_refl _

/-- The search for the end of a line goes on. -/
theorem lt_lineEnd (bytes : ByteArray) (i : Nat) (h : i < bytes.size) :
    i < lineEnd bytes i := by
  fun_induction lineEnd bytes i with
  | case1 i _ _ => omega
  | case2 i hi _ ih =>
    by_cases hn : i + 1 < bytes.size
    · have := ih hn; omega
    · rw [lineEnd, dif_neg hn]; exact hi
  | case3 i hi => exact absurd h hi

/-- A line ends inside the source. -/
theorem lineEnd_le (bytes : ByteArray) (i : Nat) : lineEnd bytes i ≤ bytes.size := by
  fun_induction lineEnd bytes i with
  | case1 i hi _ => omega
  | case2 i _ _ ih => exact ih
  | case3 i _ => exact Nat.le_refl _

/-- The reading of a literal does not go back. -/
theorem le_literalEnd (bytes : ByteArray) (quote : UInt8) (i : Nat) (h : i ≤ bytes.size) :
    i ≤ literalEnd bytes quote i := by
  fun_induction literalEnd bytes quote i with
  | case1 i hi _ ih =>
    by_cases hn : i + 2 ≤ bytes.size
    · have := ih hn; omega
    · rw [literalEnd, dif_neg (by omega)]; exact h
  | case2 i _ _ _ => omega
  | case3 i _ _ _ _ => omega
  | case4 i hi _ _ _ ih => have := ih (by omega); omega
  | case5 i _ => exact h

/-- A literal ends inside the source. -/
theorem literalEnd_le (bytes : ByteArray) (quote : UInt8) (i : Nat) :
    literalEnd bytes quote i ≤ bytes.size := by
  fun_induction literalEnd bytes quote i with
  | case1 i _ _ ih => exact ih
  | case2 i hi _ _ => omega
  | case3 i hi _ _ _ => omega
  | case4 i _ _ _ _ ih => exact ih
  | case5 i _ => exact Nat.le_refl _

/-! ## Regions -/

/-- What the scan recognises at a position. -/
inductive Region where
  | block
  | lineComment
  | literal
  | plain
deriving Repr, DecidableEq

/-- The region that starts at a position, and the position after it.  A block
comment is closed by the first closer that stands wholly after its opener. -/
def regionAt (bytes : ByteArray) (i : Nat) (h : i < bytes.size) : Region × Nat :=
  if bytes[i] == slash && bytes[i + 1]? == some star then (.block, closeFrom bytes (i + 2))
  else if bytes[i] == slash && bytes[i + 1]? == some slash then (.lineComment, lineEnd bytes i)
  else if isQuote bytes[i] then (.literal, literalEnd bytes bytes[i] (i + 1))
  else (.plain, i + 1)

/-- The scan advances with every region. -/
theorem lt_regionAt (bytes : ByteArray) (i : Nat) (h : i < bytes.size) :
    i < (regionAt bytes i h).2 := by
  unfold regionAt
  split
  · rename_i hopen
    have hnext : i + 1 < bytes.size := by
      simp only [Bool.and_eq_true, beq_iff_eq] at hopen
      rcases Nat.lt_or_ge (i + 1) bytes.size with hlt | hge
      · exact hlt
      · rw [getElem?_neg bytes (i + 1) (by omega)] at hopen
        exact absurd hopen.2 (by simp)
    have := le_closeFrom bytes (i + 2) hnext
    simp only
    omega
  · split
    · exact lt_lineEnd bytes i h
    · split
      · have := le_literalEnd bytes bytes[i] (i + 1) h
        simp only
        omega
      · exact Nat.lt_succ_self i

/-- No region reaches beyond the end of the source. -/
theorem regionAt_le (bytes : ByteArray) (i : Nat) (h : i < bytes.size) :
    (regionAt bytes i h).2 ≤ bytes.size := by
  unfold regionAt
  split
  · exact closeFrom_le bytes (i + 2)
  · split
    · exact lineEnd_le bytes i
    · split
      · exact literalEnd_le bytes bytes[i] (i + 1)
      · exact h

/-! ## Block comments -/

/-- A stretch of a source, from a byte position up to another. -/
structure Span where
  start : Nat
  stop : Nat
deriving Repr, DecidableEq

/-- The spans of the block comments that start at or after a position at which a
region starts. -/
def blockSpans (bytes : ByteArray) (i : Nat) : List Span :=
  if h : i < bytes.size then
    have := lt_regionAt bytes i h
    match (regionAt bytes i h).1 with
    | .block => ⟨i, (regionAt bytes i h).2⟩ :: blockSpans bytes (regionAt bytes i h).2
    | _ => blockSpans bytes (regionAt bytes i h).2
  else []
termination_by bytes.size - i

/-- The text of a span, if the span starts and stops between two characters. -/
def Span.text? (bytes : ByteArray) (span : Span) : Option Text :=
  Text.decodeUtf8? (bytes.extract span.start span.stop)

/-- The block comments of a source in their order, delimiters included. -/
def blockComments (source : Text) : List Text :=
  let bytes := Text.encodeUtf8 source
  (blockSpans bytes 0).filterMap (Span.text? bytes)

end Source
end DocComment
