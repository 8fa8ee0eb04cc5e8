import DocComment.Text.Blank
import DocComment.Text.CaseTable

/-!
# Lower case

The full lower-case mapping of a text.  It works character by character with
two exceptions: the dotted capital I becomes two characters, and a capital
sigma takes its final form at the end of a word.
-/

namespace DocComment
namespace Text

/-- The code point belongs to the run. -/
def CaseRun.covers (run : CaseRun) (code : Nat) : Bool :=
  decide (run.first ≤ code) && decide (code ≤ run.last) && (code - run.first) % run.stride == 0

/-- The simple lower-case mapping of one character. -/
def lowerChar (c : Char) : Char :=
  match lowerRuns.find? (·.covers c.toNat) with
  | some run => Char.ofNat (c.toNat + run.shift).toNat
  | none => c

/-- Past case-ignorable characters stands a cased one. -/
def meetsCased (text : Text) : Bool :=
  match text.dropWhile (inRanges caseIgnorableRanges) with
  | [] => false
  | c :: _ => inRanges casedRanges c

/-- The lower-case form of one character, given the text before it in reverse
and the text after it.  A capital sigma is final when a cased character comes
before it and none comes after it. -/
def lowerAt (before : Text) (c : Char) (after : Text) : Text :=
  if c = 'Σ' then
    [if meetsCased before && !meetsCased after then 'ς' else 'σ']
  else if c = 'İ' then ['i', '\u0307']
  else [lowerChar c]

/-- Lower-case a text whose preceding text, in reverse, is given. -/
def lowerFrom (before : Text) : Text → Text
  | [] => []
  | c :: after => lowerAt before c after ++ lowerFrom (c :: before) after

/-- The full lower-case mapping. -/
def lower (text : Text) : Text :=
  lowerFrom [] text

end Text
end DocComment
