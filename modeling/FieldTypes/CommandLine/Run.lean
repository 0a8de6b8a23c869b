import FieldTypes.CommandLine.Parser
import FieldTypes.Glob
import FieldTypes.Report

/-!
# Running a command

A command reads from a file tree, and prints its output or writes it to a file. All of the output
is made before any of it goes out, so a command that fails on its inputs leaves nothing behind. How
the patterns among its inputs are expanded is an argument of the run.

A file tree that is read from a disk bit by bit has to know which paths matter. A command looks at
its inputs, at the documents that it loads, which depend on what earlier ones say, and at its
output file; a pattern is compared with what lies below the segments in front of its wildcards.

**Main definitions.**
* `Command.run`: what a command does.
* `Run.exitCode`, `Run.errorOutput`: what the program tells of it.
* `Command.consulted`: the paths that a command looks at, as far as the tree lets it go on.
* `Command.patternBases`: the directories that it searches, and how deep.
* `FileTree.changesTo`: the nodes that make one tree into another one.
-/

namespace FieldTypes

/-- Why a command fails. -/
inductive CommandError where
  | inputs (error : InputError)
  | document (error : LoadError)
  | createDirectory (path : Path) (error : FileError)
  | writeFile (path : Path) (error : FileError)
deriving DecidableEq, Repr

/-- The text of a failure. -/
def CommandError.message : CommandError → String
  | inputs error => "failed to resolve input file paths: " ++ error.message
  | document error => error.message
  | createDirectory path error => "failed to create " ++ path.text ++ ": " ++ error.message
  | writeFile path error => "failed to write " ++ path.text ++ ": " ++ error.message

/-- How a command that did its work ended. -/
inductive Outcome where
  | clean
  /-- At least one field of the reports has no type. -/
  | fieldErrors
deriving DecidableEq, Repr

/-- What a command does. -/
structure Run where
  result : Except CommandError Outcome
  /-- What it prints. -/
  output : String := ""
  /-- The file tree that it leaves behind. -/
  tree : FileTree
  warnings : List Warning := []

/-- A text with a newline at its end. -/
def withNewline (s : String) : String :=
  if s.toList.getLast? = some '\n' then s else s ++ "\n"

/-- Puts the contents out: to a file, whose directory is made where it lacks, or printed. -/
def deliver (t : FileTree) (out : Option Path) (contents : String) (outcome : Outcome)
    (warnings : List Warning) : Run :=
  match out with
  | none => { result := .ok outcome, output := withNewline contents, tree := t, warnings }
  | some file =>
    match file.parent? with
    | none => writeTo t file
    | some directory =>
      match t.makeDirectories directory with
      | (.ok (), t) => writeTo t file
      | (.error e, t) => { result := .error (.createDirectory directory e), tree := t, warnings }
where
  /-- Writes the contents to the file. -/
  writeTo (t : FileTree) (file : Path) : Run :=
    match t.write file contents.toUTF8 with
    | .ok t => { result := .ok outcome, tree := t, warnings }
    | .error e => { result := .error (.writeFile file e), tree := t, warnings }

/-- The mark of errors in lines that go to a file, or are printed with colors or without. -/
def markFor (color : Bool) (out : Option Path) : ErrorMark :=
  if out.isSome then .brackets else if color then .red else .plain

/-- The text of reports in a format. -/
def reportText (format : OutputFormat) (mark : ErrorMark) (ms : List ModelReport) : String :=
  match format with
  | .json => (Json.array (ms.map ModelReport.toJson)).pretty
  | .text => reportLines mark ms

/-- The outcome of reports. -/
def outcomeOf (ms : List ModelReport) : Outcome :=
  if ms.all ModelReport.isComplete then .clean else .fieldErrors

/-- The table of a language as JSON. -/
def Language.toJson (l : Language) : Json :=
  .object (BaseType.all.map fun b => (b.token, .string (l.spelling b).text))

/-- The tables of all languages as JSON. -/
def Language.tables : Json :=
  .object (Language.all.map fun l => (l.token, l.toJson))

namespace Command

/-- Reports models. -/
def runResolve (t : FileTree) (color : Bool) (inputs : List String) (l : Language) (follow : Bool)
    (format : OutputFormat) (out : Option Path)
    (expand : Expansion := FileTree.expandPattern) : Run :=
  match t.inputPaths inputs expand with
  | .error e => { result := .error (.inputs e), tree := t }
  | .ok roots =>
    match reportModels t.documents roots l follow {} with
    | (.error e, j) => { result := .error (.document e), tree := t, warnings := j.warnings }
    | (.ok ms, j) =>
      deliver t out (reportText format (markFor color out) ms) (outcomeOf ms) j.warnings

/-- Describes models. Each is loaded by itself, as its path is written. -/
def runDescribe (t : FileTree) (inputs : List String) (out : Option Path)
    (expand : Expansion := FileTree.expandPattern) : Run :=
  match t.inputPaths inputs expand with
  | .error e => { result := .error (.inputs e), tree := t }
  | .ok paths =>
    match paths.mapM t.load with
    | .error e => { result := .error (.document e), tree := t }
    | .ok ds => deliver t out (Json.array (ds.map Document.toJson)).pretty .clean []

/-- Runs a command on a file tree, for a terminal with colors or without, with patterns expanded by
`expand`. -/
def run (t : FileTree) (color : Bool) (c : Command)
    (expand : Expansion := FileTree.expandPattern) : Run :=
  match c with
  | resolve inputs l follow format out => runResolve t color inputs l follow format out expand
  | describe inputs out => runDescribe t inputs out expand
  | languages => deliver t none Language.tables.pretty .clean []

end Command

namespace Run

/-- The exit code of the program. -/
def exitCode (r : Run) : Nat :=
  match r.result with
  | .ok .clean => 0
  | .ok .fieldErrors => 1
  | .error _ => 2

/-- What the program prints of a failure. -/
def errorOutput (color : Bool) (r : Run) : String :=
  match r.result with
  | .ok _ => ""
  | .error e =>
    (if color then "\x1b[1;31merror:\x1b[0m " else "error: ") ++ e.message ++ "\n"

end Run

namespace Command

/-- The inputs of a command. -/
def inputs : Command → List String
  | resolve inputs _ _ _ _ => inputs
  | describe inputs _ => inputs
  | languages => []

/-- The output file of a command. -/
def out? : Command → Option Path
  | resolve _ _ _ _ out => out
  | describe _ out => out
  | languages => none

/-- The paths of the documents that a command loads. -/
def loaded (t : FileTree) (c : Command) (paths : List Path) : List Path :=
  match c with
  | resolve _ l follow _ _ => (reportModels t.documents paths l follow {}).2.cache.keys
  | _ => paths

/-- The paths that a command looks at in a tree. -/
def consulted (t : FileTree) (c : Command) : List Path :=
  let paths := match t.inputPaths c.inputs with
    | .ok paths => c.loaded t paths
    | .error _ => []
  paths ++ c.out?.toList

/-- Where a pattern is compared with names: the segments in front of its first wildcard, and the
number of segments behind them, without a bound where one stands for any number of directories. -/
def patternBase (input : String) : Path × Nat :=
  let segments := input.toList.splitOn '/'
  let isLiteral := fun s : List Char => !FileTree.isPattern (String.ofList s)
  let base := segments.takeWhile isLiteral
  let others := segments.dropWhile isLiteral
  let base := if base = [[]] then "/" else String.ofList (['/'].intercalate base)
  (⟨if base = "" then "." else base⟩,
    if others.contains ['*', '*'] then pathLimit else others.length)

/-- The directories that a command searches, each with the depth of the search. -/
def patternBases (c : Command) : List (Path × Nat) :=
  (c.inputs.filter FileTree.isPattern).map patternBase

end Command

/-- The nodes of `u` that `t` has not. -/
def FileTree.changesTo (t u : FileTree) : List (Place × Node) :=
  u.nodes.filter fun n =>
    match t.nodeAt n.1 with
    | some old => !old.same n.2
    | none => true

end FieldTypes
