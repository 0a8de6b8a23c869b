import FieldTypes.Resolution

/-!
# Reports

A report says for each field of a model which type it has in a language, or why it has none. A
field that fails does not touch the others.

As text a report has a line for each field, with the model's name, the field's name and the type. A
model without a name goes by its path, a field without one by a question mark. In a file, angle
brackets tell why a field has no type from a type; on a terminal it is red, where the terminal has
colors.

Several models are reported at once. The documents to start from must all load; each counts once,
whatever spelling of its path is given. On demand the walk goes on to every document that a visited
one refers to, breadth first, and passes over those that cannot be loaded, with a warning.

**Main definitions.**
* `Document.report`: the report of a document.
* `ModelReport.toJson`: a report as JSON.
* `reportLines`: the text of a list of reports.
* `loadRoots`: the documents to start from.
* `discover`: the documents that one document adds to those that are known.
* `closure`: the documents reached from others.
* `reportModels`: the reports of all of them.
-/

namespace FieldTypes

/-- What is reported of a field. -/
structure FieldReport where
  name : Option String
  /-- The key of the field in the data. -/
  wireKey : Option String
  isOptional : Bool
  isMutable : Bool
  description : Option String
  /-- The type, or why there is none. -/
  type : Except TypeError String
deriving Repr

/-- What is reported of a model. -/
structure ModelReport where
  title : Option String
  typeName : String
  path : Path
  language : Language
  fields : List FieldReport
deriving Repr

namespace FieldReport

/-- The report of a property, given its type. -/
def ofProperty (p : Property) (type : Except TypeError String) : FieldReport where
  name := p.name
  wireKey := p.wireKey?
  isOptional := p.isOptional
  isMutable := p.isMutable
  description := p.description
  type

/-- Whether the field has no type. -/
def isFailed (f : FieldReport) : Bool :=
  match f.type with
  | .ok _ => false
  | .error _ => true

/-- A field's report as JSON. A description and an error appear only where there is one. -/
def toJson (f : FieldReport) : Json :=
  .object <|
    [("name", .ofString? f.name), ("jsonKey", .ofString? f.wireKey),
      ("optional", .bool f.isOptional), ("mutable", .bool f.isMutable)] ++
    (f.description.map fun d => ("description", Json.string d)).toList ++
    match f.type with
    | .ok type => [("type", .string type)]
    | .error e => [("type", .null), ("error", .string e.message)]

end FieldReport

namespace ModelReport

/-- The fields without a type. -/
def failures (m : ModelReport) : List FieldReport :=
  m.fields.filter FieldReport.isFailed

/-- Whether every field has a type. -/
def isComplete (m : ModelReport) : Bool :=
  m.failures.isEmpty

/-- A model's report as JSON. -/
def toJson (m : ModelReport) : Json :=
  .object [
    ("title", .ofString? m.title),
    ("typeName", .string m.typeName),
    ("path", .string m.path.text),
    ("language", .string m.language.token),
    ("fields", .array (m.fields.map FieldReport.toJson))]

end ModelReport

/-- The report of a property in the document at a path. -/
def Property.report (s : Source) (l : Language) (document : Path) (p : Property) :
    Resolving FieldReport := fun j =>
  match resolveType s l document p j with
  | (type, j) => (.ofProperty p type, j)

/-- The report of a document: one field for each property, in order. -/
def Document.report (s : Source) (l : Language) (d : Document) : Resolving ModelReport := fun j =>
  match Resolving.each (Property.report s l d.path) d.properties j with
  | (fields, j) =>
    ({ title := d.title, typeName := d.typeName, path := d.path, language := l, fields }, j)

/-- How the lines tell an error from a type. -/
inductive ErrorMark where
  | brackets
  | red
  | plain
deriving DecidableEq, Repr

/-- What switches a terminal to red. -/
def redCode : List Char := ['\x1b', '[', '3', '1', 'm']

/-- What switches a terminal back. -/
def resetCode : List Char := ['\x1b', '[', '0', 'm']

/-- A text in which red goes on after every switch back. -/
def redAgain : List Char → List Char
  | '\x1b' :: '[' :: '0' :: 'm' :: rest => resetCode ++ redCode ++ redAgain rest
  | c :: rest => c :: redAgain rest
  | [] => []

/-- A text in red. -/
def inRed (s : String) : String :=
  String.ofList (redCode ++ redAgain s.toList ++ resetCode)

/-- The text of an error, marked. -/
def ErrorMark.text : ErrorMark → String → String
  | brackets, s => "<" ++ s ++ ">"
  | red, s => inRed s
  | plain, s => s

/-- The name that a model goes by. -/
def ModelReport.owner (m : ModelReport) : String :=
  if m.typeName = "" then m.path.text else m.typeName

/-- What a field's line says of its type. -/
def FieldReport.typeText (mark : ErrorMark) (f : FieldReport) : String :=
  match f.type with
  | .ok type => type
  | .error e => mark.text e.message

/-- The line of a field. -/
def FieldReport.line (mark : ErrorMark) (owner : String) (f : FieldReport) : String :=
  owner ++ "." ++ f.name.getD "?" ++ ": " ++ f.typeText mark ++ "\n"

/-- The lines of a model. -/
def ModelReport.lines (mark : ErrorMark) (m : ModelReport) : String :=
  String.join (m.fields.map (FieldReport.line mark m.owner))

/-- The lines of all models. -/
def reportLines (mark : ErrorMark) (ms : List ModelReport) : String :=
  String.join (ms.map (ModelReport.lines mark))

/-- The documents at the paths, each once, behind the `found` ones; or why one does not load. -/
def loadRoots (s : Source) (found : List Document) :
    List Path → Resolving (Except LoadError (List Document))
  | [], j => (.ok found, j)
  | root :: roots, j =>
    if root.normalize ∈ found.map (·.path) then loadRoots s found roots j
    else
      match Resolving.load s root.normalize j with
      | (.error e, j) => (.error e, j)
      | (.ok d, j) => loadRoots s (found ++ [d]) roots j

/-- The documents at the paths that are not `known` and can be loaded. -/
def discover (s : Source) (known : List Path) : List Path → Resolving (List Document)
  | [], j => ([], j)
  | target :: targets, j =>
    if target ∈ known then discover s known targets j
    else
      match Resolving.load s target j with
      | (.ok d, j) =>
        match discover s (target :: known) targets j with
        | (ds, j) => (d :: ds, j)
      | (.error e, j) =>
        match Resolving.warn (.skippedModel e) j with
        | ((), j) => discover s known targets j

/-- Goes on from the queued documents, where the `done` ones had their turn: each document in the
queue has the ones it adds put at the end. Each step has another document done, so `n` is enough
where it exceeds the number of documents that can be loaded. -/
def expand (s : Source) (n : Nat) (done queue : List Document) : Resolving (List Document) :=
  fun j =>
    match n, queue with
    | 0, _ => (done ++ queue, j)
    | _ + 1, [] => (done, j)
    | n + 1, d :: queue =>
      match discover s ((done ++ d :: queue).map (·.path)) d.referenced j with
      | (fresh, j) => expand s n (done ++ [d]) (queue ++ fresh) j

/-- The documents reached from the `roots`, in the order in which they are discovered. -/
def closure (s : Source) (roots : List Document) : Resolving (List Document) := fun j =>
  expand s (roots.length + j.cache.size + s.capacity + 1) [] roots j

/-- The reports of the models at the paths and, where `follow` says so, of all they refer to. -/
def reportModels (s : Source) (roots : List Path) (l : Language) (follow : Bool) :
    Resolving (Except LoadError (List ModelReport)) := fun j =>
  match loadRoots s [] roots j with
  | (.error e, j) => (.error e, j)
  | (.ok found, j) =>
    match (if follow then closure s found j else (found, j)) with
    | (ds, j) =>
      match Resolving.each (Document.report s l) ds j with
      | (reports, j) => (.ok reports, j)

end FieldTypes
