import DocComment.Command.FileTree

/-!
# Glob patterns

A pattern stands for the paths that match it.  Inside a name a question mark
matches one character, a star any run of characters, and a bracketed class one
character in it or not in it.  A name of two stars stands for any chain of
directories.

Main definitions:

- `Glob.parse`: the tokens of a pattern, or where and why it is invalid.
- `Glob.matchesName`: the names that tokens match.
- `Glob.expand`: the paths in a tree that match a pattern.
-/

namespace DocComment
namespace Command
namespace Glob

/-! ## Tokens -/

/-- One part of a bracketed class. -/
inductive ClassItem where
  | single (char : Char)
  | range (first last : Char)
deriving Repr, DecidableEq

/-- One part of a pattern. -/
inductive Token where
  | char (char : Char)
  | anyChar
  | anyRun
  /-- Two stars that form a whole name. -/
  | anyDirectories
  | oneOf (items : List ClassItem)
  | noneOf (items : List ClassItem)
deriving Repr, DecidableEq

/-- Why a pattern is invalid. -/
inductive Fault where
  | tooManyStars
  | starsInsideName
  | invalidClass
deriving Repr, DecidableEq

/-- Where and why a pattern is invalid. -/
structure PatternError where
  position : Nat
  fault : Fault
deriving Repr, DecidableEq

/-- The message for a fault. -/
def Fault.message : Fault → Text
  | .tooManyStars => "wildcards are either regular \x60*\x60 or recursive \x60**\x60".toList
  | .starsInsideName => "recursive wildcards must form a single path component".toList
  | .invalidClass => "invalid range pattern".toList

/-- The message for an invalid pattern. -/
def PatternError.message (error : PatternError) : Text :=
  "Pattern syntax error near position ".toList ++ Nat.toDigits 10 error.position ++
    ": ".toList ++ error.fault.message

/-! ## Reading patterns -/

/-- The items of a class.  A hyphen between two characters makes a range. -/
def classItems : Text → List ClassItem
  | first :: '-' :: last :: rest => .range first last :: classItems rest
  | char :: rest => .single char :: classItems rest
  | [] => []

/-- A class whose items come next: the text of the items and what follows the
closing bracket.  The first item may be a closing bracket itself. -/
def classText? : Text → Option (Text × Text)
  | [] => none
  | first :: rest =>
    match rest.dropWhile (· != ']') with
    | [] => none
    | _ :: after => some (first :: rest.takeWhile (· != ']'), after)

/-- The class after an opening bracket, and what follows it.  An exclamation mark
at the start negates the class. -/
def readClass? (text : Text) : Option (Token × Text) :=
  match text with
  | '!' :: rest => (classText? rest).map fun part => (.noneOf (classItems part.1), part.2)
  | text => (classText? text).map fun part => (.oneOf (classItems part.1), part.2)

/-- Reading the text of a class takes something from the pattern. -/
theorem length_classText?_lt {text : Text} {part : Text × Text} (h : classText? text = some part) :
    part.2.length < text.length := by
  unfold classText? at h
  split at h
  · contradiction
  · rename_i first rest
    split at h
    · contradiction
    · rename_i char after hafter
      have hsuffix := (List.dropWhile_suffix (l := rest) (· != ']')).length_le
      simp only [Option.some.injEq] at h
      subst h
      rw [hafter] at hsuffix
      simp only [List.length_cons] at hsuffix ⊢
      omega

/-- Reading a class takes something from the pattern. -/
theorem length_readClass?_lt {text : Text} {part : Token × Text} (h : readClass? text = some part) :
    part.2.length < text.length := by
  unfold readClass? at h
  split at h
  · rename_i rest
    obtain ⟨inner, hinner, rfl⟩ := Option.map_eq_some_iff.1 h
    have := length_classText?_lt hinner
    simp only [List.length_cons]
    omega
  · obtain ⟨inner, hinner, rfl⟩ := Option.map_eq_some_iff.1 h
    exact length_classText?_lt hinner

/-- Read the rest of a pattern that goes on at a position, given the character
before it.  Two stars stand between slashes or at an end of the pattern; the
slash after them belongs to them. -/
def parseFrom (position : Nat) (before : Option Char) :
    Text → Except PatternError (List Token)
  | [] => .ok []
  | '?' :: rest => (parseFrom (position + 1) (some '?') rest).map (.anyChar :: ·)
  | '*' :: '*' :: '*' :: _ => .error ⟨position + 2, .tooManyStars⟩
  | ['*', '*'] =>
    if before = none ∨ before = some '/' then .ok [.anyDirectories]
    else .error ⟨position - 1, .starsInsideName⟩
  | '*' :: '*' :: next :: rest =>
    if before = none ∨ before = some '/' then
      if next = '/' then (parseFrom (position + 3) (some '/') rest).map (.anyDirectories :: ·)
      else .error ⟨position + 2, .starsInsideName⟩
    else .error ⟨position - 1, .starsInsideName⟩
  | '*' :: rest => (parseFrom (position + 1) (some '*') rest).map (.anyRun :: ·)
  | '[' :: rest =>
    match h : readClass? rest with
    | none => .error ⟨position, .invalidClass⟩
    | some part =>
      have := length_readClass?_lt h
      (parseFrom (position + 1 + (rest.length - part.2.length)) (some ']') part.2).map
        (part.1 :: ·)
  | char :: rest => (parseFrom (position + 1) (some char) rest).map (.char char :: ·)
termination_by text => text.length

/-- The tokens of a pattern. -/
def parse (pattern : Text) : Except PatternError (List Token) :=
  parseFrom 0 none pattern

/-! ## Matching names -/

/-- A character belongs to an item of a class. -/
def ClassItem.covers (item : ClassItem) (c : Char) : Bool :=
  match item with
  | .single expected => expected == c
  | .range first last => decide (first.toNat ≤ c.toNat) && decide (c.toNat ≤ last.toNat)

/-- All ends of a text, the text itself first. -/
def suffixes : Text → List Text
  | [] => [[]]
  | c :: rest => (c :: rest) :: suffixes rest

/-- The token matches a single character. -/
def Token.covers (token : Token) (c : Char) : Bool :=
  match token with
  | .char expected => expected == c
  | .anyChar => true
  | .anyRun => false
  | .anyDirectories => false
  | .oneOf items => items.any (·.covers c)
  | .noneOf items => !items.any (·.covers c)

/-- Tokens match a name. -/
def matchesName : List Token → Text → Bool
  | [], name => name.isEmpty
  | .anyRun :: tokens, name => (suffixes name).any (matchesName tokens)
  | token :: tokens, name =>
    match name with
    | [] => false
    | c :: rest => token.covers c && matchesName tokens rest

/-! ## Parts of a pattern -/

/-- What one name of a pattern asks for. -/
inductive Part where
  /-- A name without wildcards. -/
  | literal (name : Text)
  /-- A name with wildcards. -/
  | wildcard (tokens : List Token)
  /-- Any chain of directories. -/
  | directories
deriving Repr, DecidableEq

/-- The text of tokens that are all plain characters. -/
def literalText? : List Token → Option Text
  | [] => some []
  | .char c :: rest => (literalText? rest).map (c :: ·)
  | _ :: _ => none

/-- The part with the given tokens. -/
def Part.ofTokens (tokens : List Token) : Part :=
  if tokens = [.anyDirectories] then .directories
  else
    match literalText? tokens with
    | some name => .literal name
    | none => .wildcard tokens

/-- A part matches a name in a directory. -/
def Part.matchesName (part : Part) (name : Text) : Bool :=
  match part with
  | .literal text => text == name
  | .wildcard tokens => Glob.matchesName tokens name
  | .directories => false

/-- The names of a pattern between its slashes.  A slash at the end closes the
last name, and the pattern without names has one empty name. -/
def partTexts (pattern : Text) : List Text :=
  let body := if PathName.isAbsolute pattern then pattern.drop 1 else pattern
  if body.isEmpty then [[]]
  else if PathName.endsWithSlash body then (body.splitOn '/').dropLast
  else body.splitOn '/'

/-- Read the parts of a pattern one by one. -/
def parseParts : List Text → Except PatternError (List Part)
  | [] => .ok []
  | text :: rest =>
    match parse text with
    | .error error => .error error
    | .ok tokens => (parseParts rest).map (Part.ofTokens tokens :: ·)

/-! ## Matching paths -/

/-- The path of a name in a directory.  The working directory is left out of the
path. -/
def childPath (directory name : Text) : Text :=
  if PathName.same directory ['.'] then name else PathName.join directory name

/-- The paths of all entries below a directory, down to the given depth. -/
def below (tree : FileTree) : (depth : Nat) → Text → List Text
  | 0, _ => []
  | depth + 1, directory =>
    (tree.namesIn directory).flatMap fun name =>
      childPath directory name :: below tree depth (childPath directory name)

/-- The dot names that wildcards match.  They are tried only when the pattern
starts with a dot. -/
def dotNames (tokens : List Token) : List Text :=
  if tokens.head? = some (.char '.') then
    [['.'], ['.', '.']].filter (matchesName tokens)
  else []

/-- The last name of a path matches a part. -/
def lastMatches (part : Part) (path : Text) : Bool :=
  match PathName.fileName? path with
  | some name => part.matchesName name
  | none => false

/-- The paths that match parts, starting from a path.  Literal names have only to
be there; wildcards go through the names of a directory; a chain of directories
goes through all entries below it, and at the end of the pattern it stands for
the directories among them. -/
def expandFrom (tree : FileTree) (path : Text) : List Part → List Text
  | [] => [path]
  | .literal name :: rest =>
    let next := childPath path name
    if name = ['.'] ∨ name = ['.', '.'] then
      if tree.isDirectory path then expandFrom tree next rest else []
    else if tree.pathExists next then expandFrom tree next rest else []
  | .wildcard tokens :: rest =>
    if tree.isDirectory path then
      ((tree.namesIn path).filter (matchesName tokens)).flatMap
          (fun name => expandFrom tree (childPath path name) rest) ++
        (dotNames tokens).flatMap fun name => expandFrom tree (PathName.join path name) rest
    else []
  | [.directories] => (below tree tree.entries.length path).filter tree.isDirectory
  | .directories :: .directories :: rest => expandFrom tree path (.directories :: rest)
  | .directories :: part :: rest =>
    ((below tree tree.entries.length path).filter (lastMatches part)).flatMap
      fun next => expandFrom tree next rest

/-- The paths in a tree that match a pattern.  A pattern that ends with a slash
matches directories only. -/
def expand (tree : FileTree) (pattern : Text) : Except PatternError (List Text) :=
  match parse pattern with
  | .error error => .error error
  | .ok _ =>
    match parseParts (partTexts pattern) with
    | .error error => .error error
    | .ok parts =>
      let start := if PathName.isAbsolute pattern then ['/'] else ['.']
      let paths := expandFrom tree start parts
      .ok (if PathName.endsWithSlash pattern then paths.filter tree.isDirectory else paths)

end Glob
end Command
end DocComment
