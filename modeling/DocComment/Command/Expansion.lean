import DocComment.Command.Glob
import DocComment.Command.Log

/-!
# Input files

A file argument is the path of a file, the path of a directory, or a glob
pattern.  A directory stands for the source files directly in it.
-/

namespace DocComment
namespace Command

/-- The extensions of source files. -/
def sourceExtensions : List Text :=
  ["js".toList, "mjs".toList, "cjs".toList, "jsx".toList, "ts".toList, "tsx".toList]

/-- The path of a source file, by its extension. -/
def isSourcePath (path : Text) : Bool :=
  match PathName.extension? path with
  | some extension => sourceExtensions.contains extension
  | none => false

/-- The source files directly in a directory. -/
def sourcesIn (tree : FileTree) (directory : Text) : Except OsError (List Text) :=
  (tree.readDirectory directory).map fun names =>
    (names.map (PathName.join directory)).filter fun path => tree.isFile path && isSourcePath path

/-- Why an argument cannot be expanded. -/
inductive ArgumentError where
  /-- It is a directory that cannot be listed. -/
  | directory (error : OsError)
  /-- It is no path of a file or a directory, and no valid pattern. -/
  | pattern (error : Glob.PatternError)
deriving Repr, DecidableEq

/-- The message for an argument that cannot be expanded. -/
def ArgumentError.message : ArgumentError → Text
  | .directory error => error.message
  | .pattern error => error.message

/-- The files of one argument. -/
def expandArgument (tree : FileTree) (argument : Text) : Except ArgumentError (List Text) :=
  if tree.isFile argument then .ok [argument]
  else if tree.isDirectory argument then (sourcesIn tree argument).mapError .directory
  else
    ((Glob.expand tree argument).mapError .pattern).map fun paths => paths.filter tree.isFile

/-- The events of an argument with the given files.  A pattern without a match is
worth telling, a directory without source files is not. -/
def argumentEvents (tree : FileTree) (argument : Text) (files : List Text) : List Event :=
  if files.isEmpty && !tree.isDirectory argument then [.noMatch argument] else []

/-- An argument that cannot be expanded. -/
structure InvalidArgument where
  argument : Text
  error : ArgumentError
deriving Repr, DecidableEq

/-- The files of all arguments in the order of the arguments, with the events on
the way.  The first invalid argument ends the expansion. -/
def expandArguments (tree : FileTree) :
    List Text → List Event × Except InvalidArgument (List Text)
  | [] => ([], .ok [])
  | argument :: rest =>
    match expandArgument tree argument with
    | .error error => ([], .error ⟨argument, error⟩)
    | .ok files =>
      let (events, result) := expandArguments tree rest
      (argumentEvents tree argument files ++ events, result.map (files ++ ·))

/-- The input files of a run: those of all arguments in ascending order, each
once. -/
def inputFiles (tree : FileTree) (arguments : List Text) :
    List Event × Except InvalidArgument (List Text) :=
  let (events, result) := expandArguments tree arguments
  (events, result.map PathName.sortDistinct)

end Command
end DocComment
