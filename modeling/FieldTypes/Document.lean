import FieldTypes.FileTree
import FieldTypes.Json.Parser
import FieldTypes.Property
import FieldTypes.Text.UpperCase

/-!
# Schema documents

A schema document describes one model: its title, the properties of its fields, and at the top
level perhaps a reference, which makes a document without a title stand for another one. Reading a
document from a JSON value never fails; what has the wrong kind is absent.

The properties are a list, or an object whose keys name the properties that give no name of their
own. Such a key stays the key of the field in the data where it is no identifier itself.

A document is loaded from the text of a file. That fails where the file cannot be read or its text
is no JSON document; any JSON value makes a document. A source answers for every path with a
document or with the reason why there is none. A document knows the path it was asked for by, and
only finitely many paths have one: that is what bounds a walk along references. A file tree is a
source, since the operating system follows short paths alone.

A cache asks its source for each path once and keeps the answer, also where there is no document.
The key of an answer is the normal form of the path, so two spellings with one normal form share
an answer. Nothing is ever taken out or changed, whatever becomes of the source.

**Main definitions.**
* `Document.ofJson`: the document of a value.
* `Document.typeName`: the name of the type that the document describes.
* `Document.referenced`: the documents that this one refers to.
* `LoadError`: why loading fails, with the path that was loaded.
* `FileTree.load`: the document at a path of a file tree.
* `Source`: the sources, `FileTree.documents` a file tree as one.
* `Cache.load`: the answer for a path, and the cache that holds it.
* `Cache.view`: the answer that loading a path would give.
-/

namespace FieldTypes

/-- A schema document. -/
structure Document where
  /-- Where the document was found. Its references are relative to this. -/
  path : Path
  title : Option String
  description : Option String
  reference : Option String
  properties : List Property
deriving DecidableEq, Inhabited, Repr

/-- The elements of a list, each where it first occurs. -/
def distinct {α : Type} [DecidableEq α] (xs : List α) : List α :=
  xs.foldl (fun kept x => if x ∈ kept then kept else kept ++ [x]) []

namespace Property

/-- The property under a key of an object of properties. -/
def named (key : String) (p : Property) : Property :=
  match p.name with
  | some _ => p
  | none =>
    let name := identifier key
    let jsonKey := if p.jsonKey.isNone && name ≠ key then some key else p.jsonKey
    { p with name := some name, jsonKey }

mutual

/-- The references in a property, at any depth. Beside a reference nothing else counts. -/
def references : Property → List String
  | { reference, items, values, .. } =>
    match reference with
    | some r => [r]
    | none => referencesInside items ++ referencesInside values

/-- The references in a property that lies inside another one. -/
def referencesInside : Option Property → List String
  | some p => references p
  | none => []

end

end Property

namespace Document

/-- The properties that the value of the key `properties` lists. -/
def propertiesOf : Option Json → List Property
  | some (.array items) => items.map Property.ofJson
  | some (.object members) => members.map fun m => (Property.ofJson m.2).named m.1
  | _ => []

/-- The document that a value stands for. -/
def ofJson (path : Path) (value : Json) : Document where
  path
  title := (value.member? "title").bind Json.string?
  description := (value.member? "description").bind Json.string?
  reference := (value.member? "$ref").bind Json.string?
  properties := propertiesOf (value.member? "properties")

/-- The directory that references are relative to. -/
def directory (d : Document) : Path :=
  d.path.directory

/-- The name of the type that the document describes: its title in upper case at the front, and
empty where it has none. -/
def typeName (d : Document) : String :=
  match d.title with
  | some t => Text.capitalizeFirst t
  | none => ""

/-- The paths that the document refers to, each once: those in its properties in their order, and
last the one at the top level. -/
def referenced (d : Document) : List Path :=
  distinct ((d.properties.flatMap Property.references ++ d.reference.toList).map d.path.locate)

/-- The value that describes a document: its path, its title and all that its properties say. -/
def toJson (d : Document) : Json :=
  .object [
    ("path", .string d.path.text),
    ("title", .ofString? d.title),
    ("properties", .array (d.properties.map Property.toJson))]

end Document

/-- Why the document at a path cannot be loaded. -/
inductive LoadError where
  | unreadable (path : Path) (cause : FileError)
  | malformed (path : Path) (fault : Json.Fault)
deriving DecidableEq, Repr

namespace LoadError

/-- The path that was to be loaded. -/
def path : LoadError → Path
  | unreadable p _ => p
  | malformed p _ => p

/-- The text of a failure to load. -/
def message : LoadError → String
  | unreadable p cause => "failed to read schema document " ++ p.text ++ ": " ++ cause.message
  | malformed p fault => "failed to parse schema document " ++ p.text ++ ": " ++ fault.message

end LoadError

/-- The value of a text found at a path. -/
def Json.parseAt (path : Path) (source : String) : Except LoadError Json :=
  match Json.parse source with
  | .ok value => .ok value
  | .error fault => .error (.malformed path fault)

/-- The property of a text found at a path. -/
def Property.parse (path : Path) (source : String) : Except LoadError Property :=
  (Json.parseAt path source).map Property.ofJson

/-- The document of a text found at a path. -/
def Document.parse (path : Path) (source : String) : Except LoadError Document :=
  (Json.parseAt path source).map (Document.ofJson path)

/-- The document in the file at a path, which is followed as it is written. -/
def FileTree.load (t : FileTree) (path : Path) : Except LoadError Document :=
  match t.read path with
  | .ok source => Document.parse path source
  | .error cause => .error (.unreadable path cause)

/-- Where documents come from. -/
structure Source where
  /-- What the source has at a path. -/
  fetch : Path → Except LoadError Document
  /-- A bound on the number of paths with a document. -/
  capacity : Nat
  path_of_fetch : ∀ {p d}, fetch p = .ok d → d.path = p
  length_le_capacity : ∀ {paths : List Path}, paths.Nodup →
    (∀ p ∈ paths, ∃ d, fetch p = .ok d) → paths.length ≤ capacity

namespace FileTree

theorem vet_of_long {p : Path} (h : pathLimit ≤ p.text.utf8ByteSize) : ∃ e, vet p = .error e := by
  by_cases hnul : p.text.toList.contains '\x00'
  · exact ⟨.nulInPath, if_pos hnul⟩
  · exact ⟨.nameTooLong, by rw [vet, if_neg hnul, if_pos h]⟩

theorem short_of_read {t : FileTree} {p : Path} {s : String} (h : t.read p = .ok s) :
    p.text.utf8ByteSize < pathLimit := by
  by_cases hshort : p.text.utf8ByteSize < pathLimit
  · exact hshort
  · obtain ⟨e, he⟩ := vet_of_long (Nat.not_lt.1 hshort)
    simp [read, node, follow, he, bind, Except.bind] at h

theorem load_eq_ok_iff {t : FileTree} {p : Path} {d : Document} :
    t.load p = .ok d ↔
      ∃ s v, t.read p = .ok s ∧ Json.parse s = .ok v ∧ d = Document.ofJson p v := by
  simp only [load, Document.parse, Json.parseAt]
  cases hr : t.read p with
  | error e => simp
  | ok s =>
    cases hv : Json.parse s with
    | error e => simp [Except.map, hv]
    | ok v => simp [Except.map, hv, eq_comm]

/-- A file tree as a source of documents. -/
def documents (t : FileTree) : Source where
  fetch := t.load
  capacity := Path.shortCount
  path_of_fetch := by
    intro p d h
    obtain ⟨_, _, _, _, rfl⟩ := load_eq_ok_iff.1 h
    rfl
  length_le_capacity := by
    intro paths distinct loads
    refine Path.length_le_shortCount distinct ?_
    intro p hp
    obtain ⟨d, hd⟩ := loads p hp
    obtain ⟨s, _, hs, _⟩ := load_eq_ok_iff.1 hd
    exact short_of_read hs

end FileTree

/-- The answers that were given so far, oldest first. -/
structure Cache where
  entries : List (Path × Except LoadError Document) := []
deriving Inhabited

namespace Cache

/-- The number of answers. -/
def size (c : Cache) : Nat :=
  c.entries.length

/-- The paths that answers are kept for. -/
def keys (c : Cache) : List Path :=
  c.entries.map (·.1)

/-- The answer that is kept for a path in normal form. -/
def find? (c : Cache) (key : Path) : Option (Except LoadError Document) :=
  c.entries.lookup key

/-- Whether an answer is kept for a path. -/
def holds (c : Cache) (p : Path) : Bool :=
  (c.find? p.normalize).isSome

/-- The position of the entry for a path, and the number of entries where there is none. -/
def position (c : Cache) (p : Path) : Nat :=
  c.keys.idxOf p.normalize

/-- The answer for a path in normal form: the one that is kept, and else the source's. -/
def view (s : Source) (c : Cache) (key : Path) : Except LoadError Document :=
  (c.find? key).getD (s.fetch key)

/-- The answer for a path, and the cache that keeps it. -/
def load (s : Source) (c : Cache) (p : Path) : Except LoadError Document × Cache :=
  let key := p.normalize
  match c.find? key with
  | some answer => (answer, c)
  | none => (s.fetch key, { entries := c.entries ++ [(key, s.fetch key)] })

theorem load_fst (s : Source) (c : Cache) (p : Path) :
    (c.load s p).1 = c.view s p.normalize := by
  unfold load view
  cases h : c.find? p.normalize <;> simp [h]

end Cache
end FieldTypes
