import DocComment.Tag.Basic
import DocComment.Comment.Heading
import DocComment.Comment.Lines
import DocComment.Comment.Sections
import DocComment.Param.Draft
import DocComment.Source.Bytes

/-!
# Documentation records

Every block comment gives exactly one record.  Tags that are malformed,
repeated or unknown leave it as it is; what was passed over is told in notices.

Main definitions:

- `Record.ofComment`: the record of one comment.
- `Record.ofSource`: the records of all block comments of a source.
- `Notice.ofComment`: the notices about one comment.
-/

namespace DocComment

/-- The documentation in one comment. -/
structure Record where
  /-- The name on the first line or in the first name tag, empty without either. -/
  name : Text
  description : Text
  /-- The top-level parameters in the order of their first mention. -/
  params : List Param
  throws : Option Throws
deriving Repr, BEq, Inhabited

/-- The first top-level parameter with a title. -/
def Record.param? (record : Record) (title : Text) : Option Param :=
  record.params.find? fun param => param.title == title

/-- Something worth telling about a comment. -/
inductive Notice where
  | malformed (line : Text)
  | repeatedThrows (line : Text)
  | unsupported (label : Text)
  | read (name : Text) (params : Nat)
deriving Repr, DecidableEq

/-! ## Assembly -/

/-- What the tags read so far have given. -/
structure Assembly where
  name : Option Text
  throws : Option Throws
  draft : Draft
  notices : List Notice
deriving Repr, DecidableEq

namespace Assembly

/-- The state before the first tag. -/
def start : Assembly := ⟨none, none, Draft.empty, []⟩

/-- Add a notice. -/
def notify (state : Assembly) (notice : Notice) : Assembly :=
  { state with notices := state.notices ++ [notice] }

/-- Take in one tag line.  The first name and the first documented error
count; every parameter entry does. -/
def step (state : Assembly) (line : Text) : Assembly :=
  match Tag.parse? line with
  | some (.name name) => { state with name := state.name.or (some name) }
  | some (.param entry) => { state with draft := state.draft.add entry }
  | some (.throws throws) =>
    match state.throws with
    | none => { state with throws := some throws }
    | some _ => state.notify (.repeatedThrows line)
  | some (.other label) => state.notify (.unsupported label)
  | none => state.notify (.malformed line)

/-- Take in all tag lines. -/
def run (tags : List Text) : Assembly :=
  tags.foldl step start

end Assembly

/-! ## Reading comments -/

/-- The record of the sections of a comment. -/
def Record.ofSections (sections : Comment.Sections) : Record :=
  let state := Assembly.run sections.tags
  let heading := Comment.Heading.ofProse sections.prose state.name
  { name := heading.name
    description := heading.description
    params := state.draft.forest
    throws := state.throws }

/-- The record of clean comment lines. -/
def Record.ofLines (lines : List Text) : Record :=
  Record.ofSections (Comment.Sections.ofLines lines)

/-- The record of a comment, with or without its delimiters. -/
def Record.ofComment (raw : Text) : Record :=
  Record.ofLines (Comment.lines raw)

/-- The records of all block comments of a source, in their order. -/
def Record.ofSource (source : Text) : List Record :=
  (Source.blockComments source).map Record.ofComment

/-- The notices about a comment in the order in which they arise, the last of
them about the record itself. -/
def Notice.ofComment (raw : Text) : List Notice :=
  let sections := Comment.Sections.ofLines (Comment.lines raw)
  let record := Record.ofSections sections
  (Assembly.run sections.tags).notices ++ [.read record.name record.params.length]

/-- The notices about all block comments of a source. -/
def Notice.ofSource (source : Text) : List Notice :=
  (Source.blockComments source).flatMap Notice.ofComment

end DocComment
