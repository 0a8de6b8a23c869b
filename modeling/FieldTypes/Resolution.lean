import FieldTypes.Document
import FieldTypes.Language

/-!
# Resolution of types

The type of a property is its reference's, where it has one, and else comes from the type it
declares: containers wrap the type of what lies inside them. A reference resolves to the name of
the type that the document at its end describes. A document without a title that has a reference
itself is an alias: the walk goes on from that document's own directory.

A reference whose document cannot be loaded resolves to the empty name, with a warning. A chain of
aliases that comes back to itself is an error of the property.

**Main definitions.**
* `followReference`: the end of a reference, or why it has none.
* `resolveReference`: the name that a reference stands for.
* `resolveType`: the type of a property.
-/

namespace FieldTypes

/-- Why a reference has no end. -/
inductive ReferenceError where
  /-- The chain of aliases comes back to the path. -/
  | cyclic (path : Path)
  /-- A document of the chain cannot be loaded. -/
  | unloadable (error : LoadError)
deriving DecidableEq, Repr

/-- Why a property has no type. -/
inductive TypeError where
  /-- It has neither a type nor a reference. -/
  | missingType
  /-- Its type is none of the vocabulary. -/
  | unknownType (token : String)
  /-- It is an array without a property of its elements. -/
  | missingItems
  /-- It is an object without a property of its values. -/
  | missingValues
  /-- Its reference leads into a cycle of aliases. -/
  | cyclicReference (path : Path)
deriving DecidableEq, Repr

/-- The text of a chain of aliases that comes back to a path. -/
def cyclicMessage (path : Path) : String :=
  "cyclic `$ref` chain re-enters " ++ path.text

/-- The text of a reference's failure. -/
def ReferenceError.message : ReferenceError → String
  | cyclic path => cyclicMessage path
  | unloadable error => error.message

/-- The text of a property's failure. -/
def TypeError.message : TypeError → String
  | missingType => "property declares neither `type` nor `$ref`"
  | unknownType token => "invalid schema type '" ++ token ++ "'"
  | missingItems => "array property is missing `items`"
  | missingValues => "object property is missing `additionalProperties`"
  | cyclicReference path => cyclicMessage path

/-- What is passed over with a warning. -/
inductive Warning where
  /-- A reference resolves to the empty name, since a document cannot be loaded. -/
  | unloadedReference (reference : String) (document : Path) (error : LoadError)
  /-- A model that another one refers to is left out, since it cannot be loaded. -/
  | skippedModel (error : LoadError)
deriving DecidableEq, Repr

/-- The text of a warning. -/
def Warning.message : Warning → String
  | unloadedReference reference document error =>
    "referenced schema could not be loaded; using an empty type name | reference=" ++ reference ++
      " | from=" ++ document.text ++ " | error=" ++ error.message
  | skippedModel error => "skipping referenced model | error=" ++ error.message

/-- One use of the cache. -/
structure Lookup where
  /-- The path that was asked for. -/
  path : Path
  answer : Except LoadError Document
  /-- The position of the entry that the answer was taken from. -/
  entry : Nat
  /-- Whether the entry was made on this occasion, from the source. -/
  isRead : Bool

/-- What a resolution leaves behind: the cache, and the warnings and the uses of the cache, both in
the order in which they came. -/
structure Journal where
  cache : Cache := {}
  warnings : List Warning := []
  lookups : List Lookup := []
deriving Inhabited

/-- A computation that may load documents and give warnings. -/
abbrev Resolving (α : Type) := Journal → α × Journal

namespace Resolving

/-- The answer for a path, through the cache. -/
def load (s : Source) (p : Path) : Resolving (Except LoadError Document) := fun j =>
  match j.cache.load s p with
  | (answer, cache) =>
    let lookup : Lookup :=
      { path := p, answer, entry := cache.position p, isRead := !j.cache.holds p }
    (answer, { j with cache, lookups := j.lookups ++ [lookup] })

/-- Gives a warning. -/
def warn (w : Warning) : Resolving Unit := fun j =>
  ((), { j with warnings := j.warnings ++ [w] })

/-- One computation for each element, in order. -/
def each {α β : Type} (f : α → Resolving β) : List α → Resolving (List β)
  | [], j => ([], j)
  | a :: as, j =>
    match f a j with
    | (b, j) =>
      match each f as j with
      | (bs, j) => (b :: bs, j)

end Resolving

/-- Follows aliases from `target` on, where `visited` was passed on the way. Each step visits
another document, so `n` is enough where it exceeds the number of documents that can be loaded. -/
def followAliases (s : Source) (n : Nat) (visited : List Path) (target : Path) :
    Resolving (Except ReferenceError String) := fun j =>
  match n with
  | 0 => (.error (.cyclic target), j)
  | n + 1 =>
    if target ∈ visited then (.error (.cyclic target), j)
    else
      match Resolving.load s target j with
      | (.error e, j) => (.error (.unloadable e), j)
      | (.ok d, j) =>
        match d.title, d.reference with
        | some _, _ => (.ok d.typeName, j)
        | none, none => (.ok "", j)
        | none, some next => followAliases s n (target :: visited) (d.path.locate next) j

/-- The name at the end of a reference in the document at a path, or why it has no end. What is
kept in the cache and what the source has bounds the documents on the way. -/
def followReference (s : Source) (reference : String) (document : Path) :
    Resolving (Except ReferenceError String) := fun j =>
  followAliases s (j.cache.size + s.capacity + 1) [] (document.locate reference) j

/-- The name that a reference in the document at a path stands for. -/
def resolveReference (s : Source) (reference : String) (document : Path) :
    Resolving (Except TypeError String) := fun j =>
  match followReference s reference document j with
  | (.ok name, j) => (.ok name, j)
  | (.error (.cyclic path), j) => (.error (.cyclicReference path), j)
  | (.error (.unloadable error), j) =>
    match Resolving.warn (.unloadedReference reference document error) j with
    | ((), j) => (.ok "", j)

/-- The type of a property in the document at a path, in a language. -/
def resolveType (s : Source) (l : Language) (document : Path) :
    Property → Resolving (Except TypeError String)
  | { reference, declaredType, format, items, values, .. }, j =>
    match reference, declaredType with
    | some r, _ => resolveReference s r document j
    | none, none => (.error .missingType, j)
    | none, some token =>
      match DeclaredType.ofToken? token with
      | none => (.error (.unknownType token), j)
      | some .object =>
        match values with
        | none => (.error .missingValues, j)
        | some p =>
          match resolveType s l document p j with
          | (r, j) => (r.map l.dictionaryOf, j)
      | some .array =>
        match items with
        | none => (.error .missingItems, j)
        | some p =>
          match resolveType s l document p j with
          | (r, j) => (r.map l.arrayOf, j)
      | some .string => (.ok (l.scalar (StringFormat.baseTypeOf format)), j)
      | some .integer => (.ok (l.scalar .integer), j)
      | some .number => (.ok (l.scalar .float), j)
      | some .boolean => (.ok (l.scalar .boolean), j)

end FieldTypes
