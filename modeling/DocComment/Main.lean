import DocComment.Command.Run

/-!
# The program

The thin layer between the command and the machine: it loads the tree of the
working directory, runs the command on it, and carries out what the command
decided.  Symbolic links are not followed, a directory that cannot be listed counts
as empty, and of the directories around the working directory only the way to it is
known.
-/

namespace DocComment
namespace Command

/-- The absolute path of a location. -/
def locationPath (location : Location) : String :=
  String.ofList ('/' :: ['/'].intercalate location)

/-- The result of an action, if it does not fail. -/
def attempt {α : Type} (action : IO α) : IO (Option α) := do
  try return some (← action) catch _ => return none

/-- Add what stands below a directory to a tree.  A file that cannot be read is
marked as such. -/
partial def loadBelow (tree : FileTree) (location : Location) : IO FileTree := do
  let mut tree := tree
  let items ← attempt ((← IO.currentDir) / locationPath location).readDir
  for item in items.getD #[] do
    let place := location ++ [item.fileName.toList]
    let kind := (← attempt item.path.symlinkMetadata).map fun metadata => metadata.type
    if kind == some .dir then
      tree ← loadBelow { tree with entries := tree.entries ++ [(place, .directory)] } place
    else if kind == some .file then
      match ← attempt (IO.FS.readBinFile item.path) with
      | some content =>
        tree := { tree with entries := tree.entries ++ [(place, .file content)] }
      | none =>
        tree :=
          { tree with
            entries := tree.entries ++ [(place, .file .empty)]
            unreadable := place :: tree.unreadable }
  return tree

/-- The tree that the command sees. -/
def loadTree : IO FileTree := do
  let cwd := PathName.names (← IO.currentDir).toString.toList
  loadBelow (FileTree.ofWorkingDirectory cwd) cwd

/-- The rest of the standard input. -/
partial def readStream (stream : IO.FS.Stream) (bytes : ByteArray) : IO ByteArray := do
  let chunk ← stream.read 65536
  if chunk.isEmpty then return bytes else readStream stream (bytes ++ chunk)

/-- What the command needs of the machine: the standard input when no input files
are named, and else the file tree. -/
def loadInput (arguments : List Text) : IO (ByteArray × FileTree) := do
  match Options.parse arguments with
  | .error _ => return (.empty, FileTree.ofWorkingDirectory [])
  | .ok options =>
    if options.files.isEmpty then
      return (← readStream (← IO.getStdin) .empty, FileTree.ofWorkingDirectory [])
    else return (.empty, ← loadTree)

/-- Make the changes that lead from one tree to another. -/
def carryOut (before after : FileTree) : IO Unit := do
  for location in FileTree.newDirectories before after do
    IO.FS.createDirAll (locationPath location)
  for (location, content) in FileTree.changedFiles before after do
    IO.FS.writeBinFile (locationPath location) content

/-- Run the command with the given arguments, and give its exit code. -/
def execute (arguments : List String) : IO UInt32 := do
  let arguments := arguments.map String.toList
  let setting ← IO.getEnv "RUST_LOG"
  let (stdin, tree) ← loadInput arguments
  let outcome := command arguments (setting.map String.toList) stdin tree
  match outcome with
  | .help => IO.print (String.ofList outcome.stdout)
  | .usage _ =>
    IO.eprintln "usage: [-o DIR] [-f json|markdown] [--named-only] [-v] [FILES]"
  | .done session failure log =>
    for line in log do
      IO.eprintln (String.ofList line)
    carryOut tree session.tree
    IO.print (String.ofList session.stdout)
    match failure with
    | some failure => IO.eprintln (String.ofList failure.report)
    | none => pure ()
  return outcome.exitCode.toUInt32

end Command
end DocComment

/-- Run the command with the arguments of the program. -/
def main (arguments : List String) : IO UInt32 :=
  DocComment.Command.execute arguments
