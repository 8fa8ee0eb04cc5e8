import DocComment.Text.Affix

/-!
# Command-line options

The arguments of the command: input files, and five options that may stand
anywhere among them.  Options have a long name, and four of them a short one;
short options can be written together behind one hyphen.  One option asks for the
help text: when it is met, the arguments after it are not read.

Main definitions:

- `Options.parse`: read the arguments from left to right.
- `helpText`: the help on the command and its options.
-/

namespace DocComment
namespace Command

/-- The options of the command. -/
inductive OptionKey where
  | output
  | format
  | namedOnly
  | verbose
  | help
deriving Repr, DecidableEq

namespace OptionKey

/-- The option with a long name. -/
def ofLong? (name : Text) : Option OptionKey :=
  if name = "output".toList then some .output
  else if name = "format".toList then some .format
  else if name = "named-only".toList then some .namedOnly
  else if name = "verbose".toList then some .verbose
  else if name = "help".toList then some .help
  else none

/-- The option with a short name. -/
def ofShort? (letter : Char) : Option OptionKey :=
  if letter = 'o' then some .output
  else if letter = 'f' then some .format
  else if letter = 'v' then some .verbose
  else if letter = 'h' then some .help
  else none

/-- The option is followed by a value. -/
def takesValue : OptionKey → Bool
  | .output => true
  | .format => true
  | .namedOnly => false
  | .verbose => false
  | .help => false

end OptionKey

/-- What is wrong with the arguments. -/
inductive UsageError where
  | unknownOption (argument : Text)
  | missingValue (key : OptionKey)
  | emptyValue (key : OptionKey)
  | unexpectedValue (key : OptionKey)
  | repeated (key : OptionKey)
deriving Repr, DecidableEq

/-- Why the arguments are not read to their end. -/
inductive Interruption where
  /-- The help text is asked for. -/
  | help
  /-- An argument is wrong. -/
  | usage (error : UsageError)
deriving Repr, DecidableEq

/-- The help on the command and its options. -/
def helpText : Text :=
  ("Extract @param/@throws documentation records from JavaScript block comments\n\n" ++
    "Usage: build-docs [OPTIONS] [FILES]...\n\n" ++
    "Arguments:\n" ++
    "  [FILES]...  Input files (glob patterns and directories supported). " ++
    "If omitted, reads from stdin\n\n" ++
    "Options:\n" ++
    "  -o, --output <OUTPUT>  Output directory; one file per input. Defaults to stdout\n" ++
    "  -f, --format <FORMAT>  Output format: json (default), markdown [default: json]\n" ++
    "      --named-only       Drop records without a name\n" ++
    "  -v, --verbose          Log skipped annotations and per-file details to stderr\n" ++
    "  -h, --help             Print help\n").toList

/-- What the arguments ask for. -/
structure Options where
  files : List Text
  output : Option Text
  format : Option Text
  namedOnly : Bool
  verbose : Bool
deriving Repr, DecidableEq

namespace Options

/-- The options before the first argument. -/
def initial : Options := ⟨[], none, none, false, false⟩

/-- The name of the output format. -/
def formatName (options : Options) : Text :=
  options.format.getD "json".toList

/-- Give an option its value.  No option is given twice, and an output directory
has a name. -/
def setValue (options : Options) (key : OptionKey) (value : Text) : Except Interruption Options :=
  match key with
  | .output =>
    if options.output.isSome then .error (.usage (.repeated key))
    else if value.isEmpty then .error (.usage (.emptyValue key))
    else .ok { options with output := some value }
  | .format =>
    if options.format.isSome then .error (.usage (.repeated key))
    else .ok { options with format := some value }
  | .namedOnly => .error (.usage (.unexpectedValue key))
  | .verbose => .error (.usage (.unexpectedValue key))
  | .help => .error (.usage (.unexpectedValue key))

/-- Switch an option on.  The help text is asked for at once. -/
def setFlag (options : Options) (key : OptionKey) : Except Interruption Options :=
  match key with
  | .output => .error (.usage (.missingValue key))
  | .format => .error (.usage (.missingValue key))
  | .namedOnly =>
    if options.namedOnly then .error (.usage (.repeated key))
    else .ok { options with namedOnly := true }
  | .verbose =>
    if options.verbose then .error (.usage (.repeated key))
    else .ok { options with verbose := true }
  | .help => .error .help

/-- Add an input file. -/
def addFile (options : Options) (file : Text) : Options :=
  { options with files := options.files ++ [file] }

/-- Read the letters behind a single hyphen.  The first option with a value takes
the rest of the letters, less an equals sign in front of them; without a rest
its value is the next argument. -/
def readShort (options : Options) : Text → Except Interruption (Options × Option OptionKey)
  | [] => .ok (options, none)
  | letter :: rest =>
    match OptionKey.ofShort? letter with
    | none => .error (.usage (.unknownOption ['-', letter]))
    | some key =>
      if key.takesValue then
        match rest with
        | [] => .ok (options, some key)
        | '=' :: value => (options.setValue key value).map fun options => (options, none)
        | value => (options.setValue key value).map fun options => (options, none)
      else
        match options.setFlag key with
        | .error error => .error error
        | .ok options => options.readShort rest

/-- Read the text behind two hyphens: a long name, and a value after an equals
sign. -/
def readLong (options : Options) (text : Text) :
    Except Interruption (Options × Option OptionKey) :=
  match OptionKey.ofLong? (text.takeWhile (· != '=')) with
  | none => .error (.usage (.unknownOption ('-' :: '-' :: text)))
  | some key =>
    match text.dropWhile (· != '=') with
    | _ :: value => (options.setValue key value).map fun options => (options, none)
    | [] =>
      if key.takesValue then .ok (options, some key)
      else (options.setFlag key).map fun options => (options, none)

/-- Read one argument that is not the value of an option.  The result tells which
option takes the next argument as its value. -/
def readArgument (options : Options) (argument : Text) :
    Except Interruption (Options × Option OptionKey) :=
  match argument with
  | '-' :: '-' :: text => options.readLong text
  | '-' :: letter :: rest => options.readShort (letter :: rest)
  | file => .ok (options.addFile file, none)

/-- An argument that can be the value of the option before it: it does not look
like an option itself. -/
def isValue (argument : Text) : Bool :=
  argument == ['-'] || argument.head? != some '-'

/-- Read arguments, given the option that still lacks its value.  After two
hyphens that stand alone every argument is a file. -/
def readAll (options : Options) (pending : Option OptionKey) :
    List Text → Except Interruption Options
  | [] =>
    match pending with
    | some key => .error (.usage (.missingValue key))
    | none => .ok options
  | argument :: rest =>
    match pending with
    | some key =>
      if isValue argument then
        match options.setValue key argument with
        | .error error => .error error
        | .ok options => options.readAll none rest
      else .error (.usage (.missingValue key))
    | none =>
      if argument = ['-', '-'] then .ok { options with files := options.files ++ rest }
      else
        match options.readArgument argument with
        | .error error => .error error
        | .ok (options, pending) => options.readAll pending rest

/-- Read the arguments of the command. -/
def parse (arguments : List Text) : Except Interruption Options :=
  initial.readAll none arguments

end Options
end Command
end DocComment
