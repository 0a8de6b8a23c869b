import FieldTypes.Path

/-!
# File trees

A file tree is what the file system holds: at each place, a list of names from the root, a file
with its bytes or a directory, and one directory in which the program works. There are no links.
Names are UTF-8 text, as paths are; a name of other bytes has no place here.

A path is followed one segment at a time. Every place on the way must be a directory, also for a
`.` or an empty segment, so a slash behind a file's name leads nowhere; `..` leaves the directory
that was reached, and the root leads to itself.

To make a directory or to write a file, a path is followed up to its last segment; what happens
there is up to the operation.

**Main definitions.**
* `FileTree.follow`: the place that a path leads to.
* `FileTree.read`: the text of the file at a path.
* `FileTree.listing`: the names in a directory, and what they name.
* `FileError`: why one of them fails.
* `FileTree.makeDirectory`: one directory, in a directory that is there.
* `FileTree.makeDirectories`: a directory and all that it lies in.
* `FileTree.write`: the whole contents of a file, new or not.
* `FileTree.remove`: a file, or a directory with all below it.
-/

namespace FieldTypes

/-- Why an operation on the file tree fails. -/
inductive FileError where
  | notFound
  | alreadyExists
  | notADirectory
  | isADirectory
  | nameTooLong
  | nulInPath
  | notUtf8
deriving DecidableEq, Repr

/-- The text of a file error, with the number that the operating system gives it. -/
def FileError.message : FileError → String
  | notFound => "No such file or directory (os error 2)"
  | alreadyExists => "File exists (os error 17)"
  | notADirectory => "Not a directory (os error 20)"
  | isADirectory => "Is a directory (os error 21)"
  | nameTooLong => "File name too long (os error 36)"
  | nulInPath => "file name contained an unexpected NUL byte"
  | notUtf8 => "stream did not contain valid UTF-8"

/-- A place: the names on the way from the root. -/
abbrev Place := List String

/-- What stands at a place. -/
inductive Node where
  | file (bytes : ByteArray)
  | directory

/-- Whether the node is a directory. -/
def Node.isDirectory : Node → Bool
  | file _ => false
  | directory => true

/-- Whether two nodes are the same, bytes included. -/
def Node.same : Node → Node → Bool
  | file a, file b => a.data == b.data
  | directory, directory => true
  | _, _ => false

/-- The nodes of a file system and the directory in which the program works. The root is always
there and is not listed. -/
structure FileTree where
  workingDirectory : Place
  nodes : List (Place × Node)

/-- The number of bytes that one name may have. -/
def nameLimit : Nat := 255

namespace FileTree

/-- What stands at a place. -/
def nodeAt (t : FileTree) (place : Place) : Option Node :=
  if place = [] then some .directory else t.nodes.lookup place

/-- The place that one more segment leads to. -/
def step (t : FileTree) (place : Place) (segment : List Char) : Except FileError Place :=
  match t.nodeAt place with
  | none => .error .notFound
  | some (.file _) => .error .notADirectory
  | some .directory =>
    if segment = [] ∨ segment = ['.'] then .ok place
    else if segment = ['.', '.'] then .ok place.dropLast
    else
      let name := String.ofList segment
      if name.utf8ByteSize > nameLimit then .error .nameTooLong
      else if (t.nodeAt (place ++ [name])).isSome then .ok (place ++ [name])
      else .error .notFound

/-- What the operating system refuses before it looks at any place. -/
def vet (p : Path) : Except FileError Unit :=
  if p.text.toList.contains '\x00' then .error .nulInPath
  else if p.text.utf8ByteSize ≥ pathLimit then .error .nameTooLong
  else if p.text = "" then .error .notFound
  else .ok ()

/-- Where the segments of a path begin to be followed. -/
def start (t : FileTree) (p : Path) : Place :=
  if p.isAbsolute then [] else t.workingDirectory

/-- The place that a path leads to. -/
def follow (t : FileTree) (p : Path) : Except FileError Place := do
  vet p
  p.segments.foldlM t.step (t.start p)

/-- The node that a path leads to. -/
def node (t : FileTree) (p : Path) : Except FileError Node := do
  match t.nodeAt (← t.follow p) with
  | some n => .ok n
  | none => .error .notFound

/-- Whether a path leads anywhere. -/
def has (t : FileTree) (p : Path) : Bool :=
  match t.node p with
  | .ok _ => true
  | .error _ => false

/-- Whether a path leads to a directory. -/
def hasDirectory (t : FileTree) (p : Path) : Bool :=
  match t.node p with
  | .ok .directory => true
  | _ => false

/-- The text of the file at a path. -/
def read (t : FileTree) (p : Path) : Except FileError String := do
  match ← t.node p with
  | .directory => .error .isADirectory
  | .file bytes =>
    match String.fromUTF8? bytes with
    | some s => .ok s
    | none => .error .notUtf8

/-- What a listing says of one node: its name, and whether it is a directory. -/
structure Listed where
  name : String
  isDirectory : Bool
deriving DecidableEq, Repr

/-- What the listing of `directory` says of the node at a place, if it lies there. -/
def listed? (directory place : Place) (n : Node) : Option Listed :=
  match place.getLast? with
  | some name => if place.dropLast = directory then some ⟨name, n.isDirectory⟩ else none
  | none => none

/-- What lies in the directory at a path, in the order of the names' characters. A directory that
no path leads to, since all of them are too long, cannot be listed. -/
def listing (t : FileTree) (p : Path) : Except FileError (List Listed) := do
  let place ← t.follow p
  match t.nodeAt place with
  | some .directory =>
    .ok ((t.nodes.filterMap fun (q, n) => listed? place q n).mergeSort fun a b =>
      decide (a.name ≤ b.name))
  | some (.file _) => .error .notADirectory
  | none => .error .notFound

/-- The last segment of a path and the ones before it. -/
structure Entry where
  /-- The segments that lead to the directory the entry lies in. -/
  way : List (List Char)
  /-- The last segment that is not empty, and none in the root's own path. -/
  last : Option (List Char)
  /-- Whether slashes stand behind the last segment. -/
  slashed : Bool

/-- Splits a path before its last segment, where slashes at the end do not count as one. -/
def entryOf (p : Path) : Entry :=
  let reversed := p.segments.reverse
  match reversed.dropWhile (· == []) with
  | [] => { way := [], last := none, slashed := true }
  | s :: outer =>
    { way := outer.reverse, last := some s, slashed := reversed.head? == some [] }

/-- The tree with a node at a place, instead of the one that was there. -/
def put (t : FileTree) (place : Place) (n : Node) : FileTree :=
  if (t.nodes.lookup place).isSome then
    { t with nodes := t.nodes.map fun e => if e.1 = place then (place, n) else e }
  else { t with nodes := t.nodes ++ [(place, n)] }

/-- The directory that an entry lies in. -/
def parentPlace (t : FileTree) (p : Path) (e : Entry) : Except FileError Place := do
  let place ← e.way.foldlM t.step (t.start p)
  match t.nodeAt place with
  | some .directory => .ok place
  | some (.file _) => .error .notADirectory
  | none => .error .notFound

/-- Whether a segment names the directory itself or the one around it. -/
def isDots (segment : List Char) : Bool :=
  segment == ['.'] || segment == ['.', '.']

/-- Makes the directory at a path. -/
def makeDirectory (t : FileTree) (p : Path) : Except FileError FileTree := do
  vet p
  let e := entryOf p
  let place ← t.parentPlace p e
  match e.last with
  | none => .error .alreadyExists
  | some s =>
    if isDots s then .error .alreadyExists
    else
      let name := String.ofList s
      if name.utf8ByteSize > nameLimit then .error .nameTooLong
      else if (t.nodeAt (place ++ [name])).isSome then .error .alreadyExists
      else .ok (t.put (place ++ [name]) .directory)

/-- Makes the first directory of the list. One that lacks its surroundings has them made first,
and one that is there already will do. What was made stays also where a later one fails. -/
def makeEach (t : FileTree) : List Path → Except FileError Unit × FileTree
  | [] => (.ok (), t)
  | p :: outer =>
    if p.text = "" then (.ok (), t)
    else
      match t.makeDirectory p with
      | .ok made => (.ok (), made)
      | .error .notFound =>
        match makeEach t outer with
        | (.error e, t) => (.error e, t)
        | (.ok (), t) =>
          match t.makeDirectory p with
          | .ok made => (.ok (), made)
          | .error e => (if t.hasDirectory p then .ok () else .error e, t)
      | .error e => (if t.hasDirectory p then .ok () else .error e, t)

/-- Makes the directory at a path and every one that it lies in, as the path is written: for
`a/../b` that is `a` too. -/
def makeDirectories (t : FileTree) (p : Path) : Except FileError Unit × FileTree :=
  t.makeEach p.ancestors

/-- Gives the file at a path its contents. -/
def write (t : FileTree) (p : Path) (bytes : ByteArray) : Except FileError FileTree := do
  vet p
  let e := entryOf p
  let place ← t.parentPlace p e
  match e.last with
  | none => .error .isADirectory
  | some s =>
    if isDots s || e.slashed then .error .isADirectory
    else
      let name := String.ofList s
      if name.utf8ByteSize > nameLimit then .error .nameTooLong
      else
        match t.nodeAt (place ++ [name]) with
        | some .directory => .error .isADirectory
        | _ => .ok (t.put (place ++ [name]) (.file bytes))

/-- The tree without the node at a path and all below it. -/
def remove (t : FileTree) (p : Path) : Except FileError FileTree := do
  let place ← t.follow p
  .ok { t with nodes := t.nodes.filter fun e => !place.isPrefixOf e.1 }

end FileTree
end FieldTypes
