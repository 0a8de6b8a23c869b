import FieldTypes.FileTree

/-!
# Glob patterns

A pattern is a row of tokens that a text has to match as a whole. `?` is any character, `*` any
text, `[a-z]` one of the characters listed and `[!a-z]` any other one; all else stands for itself,
also braces. `**` is a whole segment of a path and stands for any number of directories. In a list
of characters, a closing bracket in the first place and a dash at either end stand for themselves.

A pattern is matched against a file tree segment by segment. A segment without wildcards is looked
up as it is; one with wildcards is compared with the names in the directory, in the order of their
characters. A name that begins with a dot is like any other, but `.` and `..` themselves match only
a segment that begins with a dot, and go first. A slash at the end of the pattern wants directories.

A directory that cannot be listed does not end the search: an error stands among the matches, in the
place of those in the directory. The inputs of a command have no use for such matches and fail with
the first error. How patterns are expanded is an argument there, and the search is what it is given
if nothing else is said.

**Main definitions.**
* `Glob.Pattern.ofChars`: the pattern of a text, or why it is none.
* `Glob.Pattern.covers`: whether a text has the form of a pattern.
* `FileTree.matching`: the paths that match a row of segments, and the errors among them.
* `FileTree.expandPattern`: the paths that match a pattern, `Expansion` all ways to find them.
* `FileTree.inputPaths`: the paths that the inputs of a command stand for.
-/

namespace FieldTypes
namespace Glob

/-- What a list of characters lists: the characters from one to another one. -/
structure CharRange where
  first : Char
  last : Char
deriving DecidableEq, Repr

/-- One token of a pattern. -/
inductive Token where
  | char (c : Char)
  | anyChar
  | anyText
  /-- Any number of directories. -/
  | anyDirectories
  | oneOf (ranges : List CharRange)
  | noneOf (ranges : List CharRange)
deriving DecidableEq, Repr

/-- What is wrong with a pattern. -/
inductive PatternFlaw where
  | wildcards
  | recursiveWildcards
  | invalidRange
deriving DecidableEq, Repr

/-- The text of a flaw. -/
def PatternFlaw.message : PatternFlaw → String
  | wildcards => "wildcards are either regular `*` or recursive `**`"
  | recursiveWildcards => "recursive wildcards must form a single path component"
  | invalidRange => "invalid range pattern"

/-- A flaw and the number of characters in front of it. -/
structure PatternError where
  position : Nat
  flaw : PatternFlaw
deriving DecidableEq, Repr

/-- The text of a pattern error. -/
def PatternError.message (e : PatternError) : String :=
  "Pattern syntax error near position " ++ toString e.position ++ ": " ++ e.flaw.message

/-- A pattern. -/
abbrev Pattern := List Token

namespace Pattern

/-- The characters that a list names: three with a dash in the middle are a range. -/
def charRanges : List Char → List CharRange
  | a :: '-' :: b :: rest => ⟨a, b⟩ :: charRanges rest
  | a :: rest => ⟨a, a⟩ :: charRanges rest
  | [] => []

/-- Splits at the closing bracket of a list, given what stands behind its first character. The
first character counts as listed, whatever it is. -/
def closeList (first : Char) (cs : List Char) : Option (List Char × List Char) :=
  match cs.dropWhile (· ≠ ']') with
  | _ :: rest => some (first :: cs.takeWhile (· ≠ ']'), rest)
  | [] => none

/-- Reads a list of characters, from behind its opening bracket. -/
def charList : List Char → Option (Token × List Char)
  | '!' :: first :: cs => (closeList first cs).map fun (l, rest) => (.noneOf (charRanges l), rest)
  | ['!'] => none
  | first :: cs => (closeList first cs).map fun (l, rest) => (.oneOf (charRanges l), rest)
  | [] => none

/-- Reads the tokens of a text. `position` characters went before it and `before` is the last one
of them. Every token takes a character at least, so the length of the text is enough for `n`. -/
def tokensFrom (n position : Nat) (before : Option Char) (cs : List Char) :
    Except PatternError Pattern :=
  match n, cs with
  | _, [] => .ok []
  | 0, _ => .ok []
  | n + 1, c :: rest =>
    if c = '?' then
      (tokensFrom n (position + 1) (some c) rest).map (.anyChar :: ·)
    else if c = '*' then
      let others := rest.dropWhile (· == '*')
      let count := 1 + (rest.takeWhile (· == '*')).length
      if count > 2 then .error ⟨position + 2, .wildcards⟩
      else if count = 1 then
        (tokensFrom n (position + 1) (some c) rest).map (.anyText :: ·)
      else if before ≠ none ∧ before ≠ some '/' then
        .error ⟨position - 1, .recursiveWildcards⟩
      else
        match others with
        | [] => .ok [.anyDirectories]
        | d :: others =>
          if d = '/' then
            (tokensFrom n (position + 3) (some d) others).map (.anyDirectories :: ·)
          else .error ⟨position + 2, .recursiveWildcards⟩
    else if c = '[' then
      match charList rest with
      | some (token, others) =>
        (tokensFrom n (position + (cs.length - others.length)) (some ']') others).map (token :: ·)
      | none => .error ⟨position, .invalidRange⟩
    else (tokensFrom n (position + 1) (some c) rest).map (.char c :: ·)

/-- The pattern of a text. -/
def ofChars (cs : List Char) : Except PatternError Pattern :=
  tokensFrom cs.length 0 none cs

/-- Whether the character is one of those listed. -/
def isListed (ranges : List CharRange) (c : Char) : Bool :=
  ranges.any fun r => r.first ≤ c && c ≤ r.last

/-- Whether a token that stands for one character stands for this one. -/
def fits (c : Char) : Token → Bool
  | .char d => c == d
  | .anyChar => true
  | .oneOf ranges => isListed ranges c
  | .noneOf ranges => !isListed ranges c
  | .anyText => false
  | .anyDirectories => false

/-- Whether the tokens match one of the texts that remain when characters are left out in front. -/
def coversLater (rest : List Char → Bool) : List Char → Bool
  | [] => rest []
  | c :: cs => rest (c :: cs) || coversLater rest cs

/-- Whether a text has the form of a pattern. -/
def covers : Pattern → List Char → Bool
  | [], cs => cs.isEmpty
  | .anyText :: tokens, cs => coversLater (Pattern.covers tokens) cs
  | .anyDirectories :: tokens, cs => coversLater (Pattern.covers tokens) cs
  | _ :: _, [] => false
  | token :: tokens, c :: cs => fits c token && Pattern.covers tokens cs

/-- The text that a pattern without wildcards stands for. -/
def literal? : Pattern → Option (List Char)
  | [] => some []
  | .char c :: tokens => (literal? tokens).map (c :: ·)
  | _ :: _ => none

/-- Whether the pattern stands for any number of directories. -/
def isRecursive (p : Pattern) : Bool :=
  p == [.anyDirectories]

end Pattern
end Glob

/-- A directory that could not be listed, and why. -/
structure ListingError where
  path : Path
  error : FileError
deriving DecidableEq, Repr

/-- The text of a listing error. -/
def ListingError.message (e : ListingError) : String :=
  "attempting to read `" ++ e.path.text ++ "` resulted in an error: " ++ e.error.message

/-- Why inputs stand for no paths. -/
inductive InputError where
  | badPattern (error : Glob.PatternError)
  | unlistable (error : ListingError)
  | noMatch (pattern : String)
deriving DecidableEq, Repr

/-- The text of an input error. -/
def InputError.message : InputError → String
  | badPattern error => error.message
  | unlistable error => error.message
  | noMatch pattern => "glob pattern matched no files: " ++ pattern

namespace Path

/-- Whether a path is the working directory as `.` or a spelling of it. -/
def isHere (p : Path) : Bool :=
  p.components == [.here]

/-- The path of a name in the directory at a path. In the working directory the name is enough. -/
def entry (p : Path) (name : String) : Path :=
  if p.isHere then ⟨name⟩ else p.join ⟨name⟩

end Path

/-- A path that the search has come to. Whether it is a directory was told by a listing, also where
the path itself is too long to be followed, or found out by following it. -/
structure Candidate where
  path : Path
  isDirectory : Bool
deriving DecidableEq, Repr

/-- How a pattern is expanded in a file tree: to its matches in order, with an error for each
directory that could not be listed, or else what is wrong with it. -/
abbrev Expansion :=
  FileTree → String → Except Glob.PatternError (List (Except ListingError Path))

namespace FileTree

open Glob

/-- The candidate at a path, which is followed. -/
def candidate (t : FileTree) (p : Path) : Candidate :=
  { path := p, isDirectory := t.hasDirectory p }

/-- The candidates in the directory that a candidate is. -/
def entries (t : FileTree) (c : Candidate) : Except ListingError (List Candidate) :=
  match t.listing c.path with
  | .ok listed => .ok (listed.map fun e => ⟨c.path.entry e.name, e.isDirectory⟩)
  | .error e => .error ⟨c.path, e⟩

/-- The candidates below a candidate, each before those below itself, down to the depth `n`. -/
def descendants (t : FileTree) : (n : Nat) → Candidate → List (Except ListingError Candidate)
  | 0, _ => []
  | n + 1, c =>
    if c.isDirectory then
      match t.entries c with
      | .ok found => found.flatMap fun d => .ok d :: t.descendants n d
      | .error e => [.error e]
    else []

/-- Whether a segment is `.` or `..`. -/
def isSpecial (segment : String) : Bool :=
  segment == "." || segment == ".."

/-- Whether a pattern covers the name that a path ends with. -/
def coversName (pattern : Pattern) (p : Path) : Bool :=
  match p.fileName? with
  | some name => pattern.covers name.toList
  | none => false

/-- Those of `.` and `..` that a pattern covers. It has to begin with a dot itself. -/
def specials (pattern : Pattern) : List String :=
  match pattern with
  | .char '.' :: _ => ["..", "."].filter fun s => pattern.covers s.toList
  | _ => []

section Matching

variable (t : FileTree) (directoriesOnly : Bool)

mutual

/-- The paths below the candidate that match the segments. No candidate lies deeper than there are
nodes, and one step more lists the deepest one. -/
def matching : List Pattern → Candidate → List (Except ListingError Path)
  | [], c => if directoriesOnly && !c.isDirectory then [] else [.ok c.path]
  | pattern :: patterns, c =>
    match pattern.literal? with
    | some segment =>
      let name := String.ofList segment
      let q := c.path.entry name
      if if isSpecial name then c.isDirectory else t.has q then
        matching patterns (t.candidate q)
      else []
    | none =>
      if !c.isDirectory then []
      else if pattern.isRecursive then
        (t.descendants (t.nodes.length + 1) c).flatMap fun
          | .ok d => matchingAt patterns d
          | .error e => [.error e]
      else
        match t.entries c with
        | .error e => [.error e]
        | .ok found =>
          (specials pattern).flatMap
              (fun name => matching patterns (t.candidate (c.path.join ⟨name⟩))) ++
            (found.filter fun d => coversName pattern d.path).flatMap (matching patterns)

/-- The paths at or below the candidate that match the segments behind any number of directories,
where the candidate itself stands for the first of these segments. With no segments left,
directories match. -/
def matchingAt : List Pattern → Candidate → List (Except ListingError Path)
  | [], c => if c.isDirectory then [.ok c.path] else []
  | pattern :: patterns, c =>
    if pattern.isRecursive then matchingAt patterns c
    else if coversName pattern c.path then matching patterns c
    else []

end

end Matching

/-- The segments of a pattern behind the root, with no segment for a slash at the end. -/
def patternSegments (cs : List Char) : List (List Char) :=
  let segments := (if cs.head? = some '/' then cs.drop 1 else cs).splitOn '/'
  if segments.getLast? = some [] then segments.dropLast else segments

/-- The paths that match a pattern, and the directories that could not be listed. The text has to be
a pattern as a whole and in each segment. -/
def expandPattern : Expansion := fun t pattern => do
  let cs := pattern.toList
  let _ ← Pattern.ofChars cs
  let patterns ← (patternSegments cs).mapM Pattern.ofChars
  let start : Path := if cs.head? = some '/' then ⟨"/"⟩ else ⟨"."⟩
  .ok (t.matching (cs.getLast? = some '/') patterns (t.candidate start))

/-- Whether an input is a pattern and no path. -/
def isPattern (input : String) : Bool :=
  input.toList.any fun c => c == '*' || c == '?' || c == '[' || c == '{'

/-- The paths that one input stands for. A pattern has to match something, and there may be no error
among its matches. -/
def inputPath (t : FileTree) (input : String) (expand : Expansion := expandPattern) :
    Except InputError (List Path) :=
  if isPattern input then
    match expand t input with
    | .error e => .error (.badPattern e)
    | .ok [] => .error (.noMatch input)
    | .ok found => (found.mapM id).mapError .unlistable
  else .ok [⟨input⟩]

/-- The paths that inputs stand for, in order. -/
def inputPaths (t : FileTree) (inputs : List String) (expand : Expansion := expandPattern) :
    Except InputError (List Path) :=
  (inputs.mapM fun input => t.inputPath input expand).map List.flatten

end FileTree
end FieldTypes
