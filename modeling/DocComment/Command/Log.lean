import DocComment.Record
import DocComment.Text.Case

/-!
# The log

The command tells what it passes over.  Every event has a level and comes from
one of two targets; a filter decides which events are shown.
-/

namespace DocComment
namespace Command

/-- How important an event is. -/
inductive Level where
  | error
  | warn
  | info
  | debug
  | trace
deriving Repr, DecidableEq

namespace Level

/-- The levels in their order, the most important first. -/
def rank : Level → Nat
  | .error => 1
  | .warn => 2
  | .info => 3
  | .debug => 4
  | .trace => 5

/-- The text of a level in the log. -/
def text : Level → Text
  | .error => "ERROR".toList
  | .warn => "WARN".toList
  | .info => "INFO".toList
  | .debug => "DEBUG".toList
  | .trace => "TRACE".toList

end Level

/-! ## Events -/

/-- Something that the command tells. -/
inductive Event where
  /-- No file matches an argument. -/
  | noMatch (pattern : Text)
  /-- A file cannot be read. -/
  | skipped (path reason : Text)
  /-- The records of a file were read. -/
  | extracted (path : Text) (records : Nat)
  /-- A notice about a comment. -/
  | notice (notice : Notice)
deriving Repr, DecidableEq

namespace Event

/-- The level of an event. -/
def level : Event → Level
  | .noMatch _ => .warn
  | .skipped _ _ => .warn
  | .extracted _ _ => .debug
  | .notice (.malformed _) => .debug
  | .notice (.repeatedThrows _) => .debug
  | .notice (.unsupported _) => .trace
  | .notice (.read _ _) => .trace

/-- The part of the program that an event comes from. -/
def target : Event → Text
  | .notice _ => "build_docs_syntax".toList
  | _ => "build_docs".toList

/-- A number in decimal digits. -/
def digits (n : Nat) : Text :=
  Nat.toDigits 10 n

/-- The message of an event, with its fields. -/
def message : Event → Text
  | .noMatch pattern => "no files matched: ".toList ++ pattern
  | .skipped path reason => "skipping ".toList ++ path ++ ": ".toList ++ reason
  | .extracted path records =>
    "extracted file=".toList ++ path ++ " records=".toList ++ digits records
  | .notice (.malformed line) => "skipping malformed annotation line=".toList ++ line
  | .notice (.repeatedThrows line) => "ignoring repeated @throws line=".toList ++ line
  | .notice (.unsupported label) => "ignoring unsupported annotation tag=".toList ++ label
  | .notice (.read name params) =>
    "parsed comment block name=".toList ++ name ++ " params=".toList ++ digits params

/-- The line of an event in the log. -/
def line (event : Event) : Text :=
  event.level.text ++ ' ' :: event.target ++ ": ".toList ++ event.message

end Event

/-! ## Filters -/

/-- Which events are shown: those up to a level, if any, from the targets that
start with a text. -/
structure LogFilter where
  target : Text
  level : Option Level
deriving Repr, DecidableEq

namespace LogFilter

/-- An event passes the filter. -/
def shows (filter : LogFilter) (event : Event) : Bool :=
  filter.target.isPrefixOf event.target &&
    match filter.level with
    | none => false
    | some level => decide (event.level.rank ≤ level.rank)

/-- The level that a text names in any case or by its number; the outer option
tells whether it names one, the inner whether anything is shown at it. -/
def level? (text : Text) : Option (Option Level) :=
  let name := Text.lower text
  if name = "off".toList ∨ name = ['0'] then some none
  else if name = "error".toList ∨ name = ['1'] then some (some .error)
  else if name = "warn".toList ∨ name = ['2'] then some (some .warn)
  else if name = "info".toList ∨ name = ['3'] then some (some .info)
  else if name = "debug".toList ∨ name = ['4'] then some (some .debug)
  else if name = "trace".toList ∨ name = ['5'] then some (some .trace)
  else none

/-- A character of the name of a target. -/
def isTargetChar (c : Char) : Bool :=
  (Text.isIdentPart c && c != '$') || c == ':' || c == '-'

/-- The filter that a setting describes: a level for all targets, or the start of
a target with or without a level.  An empty setting shows errors only, and a
target without a level shows everything. -/
def ofSetting? (setting : Text) : Option LogFilter :=
  if setting.isEmpty then some ⟨[], some .error⟩
  else
    match level? setting with
    | some level => some ⟨[], level⟩
    | none =>
      let target := setting.takeWhile isTargetChar
      if target.isEmpty then none
      else
        match setting.dropWhile isTargetChar with
        | [] => some ⟨target, some .trace⟩
        | ['='] => some ⟨target, some .trace⟩
        | '=' :: text => (level? text).map fun level => ⟨target, level⟩
        | _ => none

/-- The filter of a run.  Asking for details shows everything up to the debug
level; otherwise the setting decides, and warnings are shown without a usable
one. -/
def choose (verbose : Bool) (setting : Option Text) : LogFilter :=
  if verbose then ⟨[], some .debug⟩
  else (setting.bind ofSetting?).getD ⟨[], some .warn⟩

end LogFilter
end Command
end DocComment
