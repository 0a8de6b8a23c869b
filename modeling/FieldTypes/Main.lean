import FieldTypes.CommandLine.Run

/-!
# The program

Reads the command line, takes from the disk what the command looks at, runs the command on it, and
puts its output, its changes of files, its warnings and its exit code in place.
-/

namespace FieldTypes

/-- The text of the path of a place. -/
def placeText (place : Place) : String :=
  "/" ++ "/".intercalate place

/-- The tree with the nodes on the way of a path, as they are on the disk. -/
def graft (t : FileTree) (p : Path) : IO FileTree := do
  let root ← IO.currentDir
  let mut tree := t
  let mut place := tree.start p
  for segment in p.segments do
    if segment = ['.', '.'] then
      place := place.dropLast
    else if segment ≠ [] ∧ segment ≠ ['.'] then
      place := place ++ [String.ofList segment]
      let file := root / placeText place
      if ← file.isDir then
        tree := tree.put place .directory
      else if ← file.pathExists then
        tree := tree.put place (.file (← IO.FS.readBinFile file))
  return tree

/-- The tree with the names below a place, down to a depth. Files stay empty until a path leads to
them. -/
def graftBelow (t : FileTree) (place : Place) : (depth : Nat) → IO FileTree
  | 0 => return t
  | depth + 1 => do
    let directory := (← IO.currentDir) / placeText place
    let mut tree := t
    if ← directory.isDir then
      for e in ← directory.readDir do
        let inner := place ++ [e.fileName]
        if ← e.path.isDir then
          tree ← graftBelow (tree.put inner .directory) inner depth
        else
          tree := tree.put inner (.file .empty)
    return tree

/-- The tree that a command works on: what it looks at is taken from the disk until it looks at
nothing new. -/
partial def survey (c : Command) (t : FileTree) (seen : List Path) : IO FileTree := do
  match (c.consulted t).filter fun p => p ∉ seen with
  | [] => return t
  | fresh =>
    let mut tree := t
    for p in fresh do
      tree ← graft tree p
    survey c tree (seen ++ fresh)

/-- The tree of the disk as far as a command looks at it. -/
def snapshot (c : Command) : IO FileTree := do
  let here := (← IO.currentDir).toString
  let place := (here.splitOn "/").filter (· ≠ "")
  let mut tree ← graft { workingDirectory := place, nodes := [] } ⟨here⟩
  for (base, depth) in c.patternBases do
    tree ← graft tree base
    match tree.follow base with
    | .ok place => tree ← graftBelow tree place depth
    | .error _ => pure ()
  survey c tree []

/-- Makes the changes of a run on the disk. -/
def applyChanges (changes : List (Place × Node)) : IO Unit := do
  for (place, node) in changes do
    match node with
    | .directory => IO.FS.createDirAll (placeText place)
    | .file bytes => IO.FS.writeBinFile (placeText place) bytes

/-- How the program is used. -/
def usageText : String :=
  "Usage: resolve -i <INPUT>... -l <LANG> [--follow-refs] [--format <json|text>] [-o <OUT>]\n" ++
  "       describe -i <INPUT>... [-o <OUT>]\n" ++
  "       languages\n"

/-- The number of this version. -/
def versionText : String := "0.1.0\n"

/-- Runs the program with the arguments behind its name. -/
def runProgram (args : List String) : IO UInt32 := do
  match Command.ofWords args with
  | .error .help => IO.print usageText; return 0
  | .error .version => IO.print versionText; return 0
  | .error usage => IO.eprint usageText; return UInt32.ofNat usage.exitCode
  | .ok command =>
    let color ← (← IO.getStdout).isTty
    let tree ← snapshot command
    let run := command.run tree color
    applyChanges (tree.changesTo run.tree)
    for w in run.warnings do
      IO.eprintln ("WARN " ++ w.message)
    IO.print run.output
    IO.eprint (run.errorOutput color)
    return UInt32.ofNat run.exitCode

end FieldTypes

/-- The program. -/
def main (args : List String) : IO UInt32 :=
  FieldTypes.runProgram args
