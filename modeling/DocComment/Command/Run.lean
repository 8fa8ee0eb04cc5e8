import DocComment.Command.Expansion
import DocComment.Command.Options
import DocComment.Output.Format

/-!
# A run of the command

A run reads one source from the standard input, or the files that its arguments
name, and writes the records of each source to the standard output or into an
output directory.  It is a function of its arguments, its input and the file
tree; what it does is collected in a session.

Main definitions:

- `runStdin`, `runFiles`: the two modes.
- `command`: the whole command.
-/

namespace DocComment
namespace Command

/-! ## Failures -/

/-- Why a run ends early. -/
inductive Failure where
  | stdin (error : FileTree.ReadError)
  | format (error : UnknownFormat)
  | outputDirectory (directory : Text) (error : OsError)
  | expansion (invalid : InvalidArgument)
  | write (path : Text) (error : OsError)
deriving Repr, DecidableEq

namespace Failure

/-- What failed. -/
def message : Failure → Text
  | .stdin _ => "failed to read stdin".toList
  | .format error => error.message
  | .outputDirectory directory _ => "failed to create output directory: ".toList ++ directory
  | .expansion ⟨argument, .directory _⟩ => "failed to read directory: ".toList ++ argument
  | .expansion ⟨argument, .pattern _⟩ => "invalid glob pattern: ".toList ++ argument
  | .write path _ => "failed to write ".toList ++ path

/-- Why it failed, if there is more to say. -/
def cause? : Failure → Option Text
  | .stdin error => some error.message
  | .format _ => none
  | .outputDirectory _ error => some error.message
  | .expansion invalid => some invalid.error.message
  | .write _ error => some error.message

/-- The report of a failure. -/
def report (failure : Failure) : Text :=
  "Error: ".toList ++ failure.message ++
    (match failure.cause? with
     | none => []
     | some cause => "\n\nCaused by:\n    ".toList ++ cause)

end Failure

/-! ## Sessions -/

/-- What a run has done so far. -/
structure Session where
  tree : FileTree
  stdout : Text
  events : List Event
deriving DecidableEq

namespace Session

/-- The session before anything is done. -/
def start (tree : FileTree) : Session := ⟨tree, [], []⟩

/-- Write to the standard output. -/
def print (session : Session) (text : Text) : Session :=
  { session with stdout := session.stdout ++ text }

/-- Tell events. -/
def tell (session : Session) (events : List Event) : Session :=
  { session with events := session.events ++ events }

@[simp]
theorem tree_print (session : Session) (text : Text) : (session.print text).tree = session.tree :=
  rfl

@[simp]
theorem tree_tell (session : Session) (events : List Event) :
    (session.tell events).tree = session.tree :=
  rfl

@[simp]
theorem stdout_tell (session : Session) (events : List Event) :
    (session.tell events).stdout = session.stdout :=
  rfl

end Session

/-! ## Sources -/

/-- The records of a source, those without a name left out on request. -/
def extract (namedOnly : Bool) (source : Text) : List Record :=
  (Record.ofSource source).filter fun record => !namedOnly || !record.name.isEmpty

/-- The events of reading a source. -/
def sourceEvents (source : Text) : List Event :=
  (Notice.ofSource source).map .notice

/-! ## Standard input -/

/-- Write the records of the source in the standard input to the standard
output. -/
def runStdin (options : Options) (stdin : ByteArray) (session : Session) :
    Session × Option Failure :=
  match FileTree.decode stdin with
  | .error error => (session, some (.stdin error))
  | .ok source =>
    match Format.ofName options.formatName with
    | .error error => (session, some (.format error))
    | .ok format =>
      ((session.tell (sourceEvents source)).print
        (format.render (extract options.namedOnly source)), none)

/-! ## Files -/

/-- The name of the output file of an input file. -/
def outputName (format : Format) (path : Text) : Text :=
  (PathName.stem? path).getD path ++ '.' :: format.extension

/-- Put the text of an input file's records where it belongs: into a file of the
output directory, or on the standard output. -/
def deliver (options : Options) (format : Format) (path text : Text) (session : Session) :
    Session × Option Failure :=
  match options.output with
  | none => (session.print text, none)
  | some directory =>
    let target := PathName.join directory (outputName format path)
    match session.tree.writeFile target (Text.encodeUtf8 text) with
    | .error error => (session, some (.write target error))
    | .ok tree => ({ session with tree }, none)

/-- Process one input file.  A file that cannot be read is passed over. -/
def processFile (options : Options) (format : Format) (session : Session) (path : Text) :
    Session × Option Failure :=
  match session.tree.readText path with
  | .error error => (session.tell [.skipped path error.message], none)
  | .ok source =>
    let records := extract options.namedOnly source
    let session := session.tell (sourceEvents source ++ [.extracted path records.length])
    deliver options format path (format.render records) session

/-- Process input files in order.  The first failure ends the run. -/
def processFiles (options : Options) (format : Format) (session : Session) :
    List Text → Session × Option Failure
  | [] => (session, none)
  | path :: rest =>
    match processFile options format session path with
    | (session, some failure) => (session, some failure)
    | (session, none) => processFiles options format session rest

/-- Make the output directory, if one is asked for. -/
def prepareOutput (options : Options) (session : Session) : Session × Option Failure :=
  match options.output with
  | none => (session, none)
  | some directory =>
    match session.tree.makeDirectories directory with
    | (tree, none) => ({ session with tree }, none)
    | (tree, some error) => ({ session with tree }, some (.outputDirectory directory error))

/-- Process the files that the arguments name.  All arguments are expanded before
the first file is read. -/
def runFiles (options : Options) (session : Session) : Session × Option Failure :=
  match Format.ofName options.formatName with
  | .error error => (session, some (.format error))
  | .ok format =>
    match prepareOutput options session with
    | (session, some failure) => (session, some failure)
    | (session, none) =>
      match inputFiles session.tree options.files with
      | (events, .error invalid) => (session.tell events, some (.expansion invalid))
      | (events, .ok files) => processFiles options format (session.tell events) files

/-- Run with the given options. -/
def run (options : Options) (stdin : ByteArray) (tree : FileTree) : Session × Option Failure :=
  if options.files.isEmpty then runStdin options stdin (Session.start tree)
  else runFiles options (Session.start tree)

/-! ## The command -/

/-- How the command ends. -/
inductive Outcome where
  /-- The help text is printed; nothing else is done. -/
  | help
  /-- The arguments cannot be understood; nothing is done. -/
  | usage (error : UsageError)
  /-- The run is over, with a failure or without one; the log holds the lines
  that its filter shows. -/
  | done (session : Session) (failure : Option Failure) (log : List Text)

/-- The exit code. -/
def Outcome.exitCode : Outcome → Nat
  | .help => 0
  | .usage _ => 2
  | .done _ (some _) _ => 1
  | .done _ none _ => 0

/-- What is printed on the standard output. -/
def Outcome.stdout : Outcome → Text
  | .help => helpText
  | .usage _ => []
  | .done session _ _ => session.stdout

/-- The command: its arguments, the log setting of the environment, the standard
input and the file tree decide everything. -/
def command (arguments : List Text) (logSetting : Option Text) (stdin : ByteArray)
    (tree : FileTree) : Outcome :=
  match Options.parse arguments with
  | .error .help => .help
  | .error (.usage error) => .usage error
  | .ok options =>
    let (session, failure) := run options stdin tree
    let filter := LogFilter.choose options.verbose logSetting
    .done session failure ((session.events.filter filter.shows).map Event.line)

end Command
end DocComment
