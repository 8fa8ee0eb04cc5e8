/-!
# Blanks

Text is a list of characters.  A character is *blank* when it has the Unicode
property White_Space.  Every reader of the library separates words by runs of
blanks and trims its fields, so the class is fixed once, here.

Main definitions:

- `Text.isBlank`: the class of blank characters.
- `Text.trim`: a text without the blanks at its two ends.
- `Text.remainder?`: what stands on the same line after a word.
-/

namespace DocComment

/-- A text is the list of its characters. -/
abbrev Text := List Char

namespace Text

/-! ## The class of blanks -/

/-- A character lies in one of the given ranges of code points, ends included. -/
def inRanges (ranges : List (Nat × Nat)) (c : Char) : Bool :=
  ranges.any fun range => decide (range.1 ≤ c.toNat) && decide (c.toNat ≤ range.2)

/-- The ranges of code points with the property White_Space. -/
def blankRanges : List (Nat × Nat) :=
  [(0x09, 0x0D), (0x20, 0x20), (0x85, 0x85), (0xA0, 0xA0), (0x1680, 0x1680),
   (0x2000, 0x200A), (0x2028, 0x2029), (0x202F, 0x202F), (0x205F, 0x205F),
   (0x3000, 0x3000)]

/-- A character is blank when it has the property White_Space. -/
def isBlank (c : Char) : Bool :=
  inRanges blankRanges c

/-- A text without a character that is not blank. -/
def allBlank (text : Text) : Bool :=
  text.all isBlank

/-! ## Trimming -/

/-- Drop the blanks at the start. -/
def trimStart (text : Text) : Text :=
  text.dropWhile isBlank

/-- Drop the blanks at the end. -/
def trimEnd (text : Text) : Text :=
  (text.reverse.dropWhile isBlank).reverse

/-- Drop the blanks at both ends. -/
def trim (text : Text) : Text :=
  trimEnd (trimStart text)

/-- A field that may be left empty: the trimmed text, if anything is left of it. -/
def field? (text : Text) : Option Text :=
  if trim text = [] then none else some (trim text)

/-- What follows a word on its line: nothing, or a run of blanks and a rest that
holds no line feed.  The run is taken as long as it goes, so the rest is empty
or starts with a character that is not blank. -/
def remainder? : Text → Option Text
  | [] => some []
  | c :: rest =>
    if isBlank c then
      if '\n' ∈ trimStart rest then none else some (trimStart rest)
    else none

/-! ## Laws of trimming -/

/-- After trimming, a text does not start with a blank. -/
theorem isBlank_of_trimStart_eq_cons {text rest : Text} {c : Char}
    (h : trimStart text = c :: rest) : isBlank c = false := by
  have hne : text.dropWhile isBlank ≠ [] := by
    rw [show text.dropWhile isBlank = c :: rest from h]
    exact List.cons_ne_nil c rest
  have hhead := List.head_dropWhile_not isBlank hne
  simp only [trimStart] at h
  simpa [h] using hhead

/-- Trimming the start twice is trimming it once. -/
@[simp]
theorem trimStart_trimStart (text : Text) : trimStart (trimStart text) = trimStart text := by
  cases h : trimStart text with
  | nil => rfl
  | cons c rest => simp [trimStart, isBlank_of_trimStart_eq_cons h]

/-- Trimming the end twice is trimming it once. -/
@[simp]
theorem trimEnd_trimEnd (text : Text) : trimEnd (trimEnd text) = trimEnd text := by
  have h := trimStart_trimStart text.reverse
  simp only [trimStart] at h
  simp [trimEnd, h]

/-! ## Lengths -/

theorem length_trimStart_le (text : Text) : (trimStart text).length ≤ text.length :=
  (List.dropWhile_suffix isBlank).length_le

theorem length_trimEnd_le (text : Text) : (trimEnd text).length ≤ text.length := by
  simpa [trimEnd] using (List.dropWhile_suffix isBlank (l := text.reverse)).length_le

/-- Trimming does not make a text longer. -/
theorem length_trim_le (text : Text) : (trim text).length ≤ text.length :=
  Nat.le_trans (length_trimEnd_le _) (length_trimStart_le _)

end Text
end DocComment
