/-!
# Types and how languages spell them

The closed vocabularies of the schema format: the types that a property may declare, the string
formats that change a property's type, and the base types, which are what a property means before
any target language spells it. A token is matched exactly, with its case.

Each target language has a table that spells all base types. A spelling may have holes, written as
a pair of braces. The spellings of the two containers have one, which takes the spelling of the type
inside, those of the others none.

Generic containers of Objective-C take objects alone, so there a bare number or truth value goes
into a container as `NSNumber *`. Which inner types these are is decided by their text.

**Main definitions.**
* `Spelling.holes`: the number of holes.
* `Spelling.fill`: the spelling with its first hole filled.
* `Language.spelling`: the table of a language.
* `Language.arrayOf`, `Language.dictionaryOf`: the containers of a spelled type.

**Results.**
* `DeclaredType.ofToken?_eq_some_iff`: a token is read as a declared type exactly when it is that
  type's token.
-/

namespace FieldTypes

/-- What a property means, independent of the target language. -/
inductive BaseType where
  | string
  | integer
  | float
  | boolean
  | date
  | uri
  /-- A container, made from the type of its elements. -/
  | array
  /-- A container, made from the type of its values. -/
  | dictionary
deriving DecidableEq, Repr, Inhabited

namespace BaseType

/-- All base types, in the order in which they are listed. -/
def all : List BaseType :=
  [string, integer, float, boolean, date, uri, array, dictionary]

/-- Whether the base type is made from another type. -/
def isContainer : BaseType → Bool
  | array | dictionary => true
  | _ => false

/-- The name of a base type. -/
def token : BaseType → String
  | string => "string"
  | integer => "integer"
  | float => "float"
  | boolean => "boolean"
  | date => "date"
  | uri => "uri"
  | array => "array"
  | dictionary => "dictionary"

end BaseType

/-- The types that a property may declare. An object is always a dictionary, whose values have
one type. -/
inductive DeclaredType where
  | object
  | array
  | string
  | integer
  | number
  | boolean
deriving DecidableEq, Repr, Inhabited

namespace DeclaredType

/-- The token of a declared type. -/
def token : DeclaredType → String
  | object => "object"
  | array => "array"
  | string => "string"
  | integer => "integer"
  | number => "number"
  | boolean => "boolean"

/-- The declared type that has the token. -/
def ofToken? (s : String) : Option DeclaredType :=
  [object, array, string, integer, number, boolean].find? (·.token == s)

theorem ofToken?_eq_some_iff {s : String} {t : DeclaredType} :
    ofToken? s = some t ↔ s = t.token := by
  constructor
  · intro h
    have := List.find?_some h
    simp only [beq_iff_eq] at this
    exact this.symm
  · rintro rfl
    cases t <;> decide

end DeclaredType

/-- The string formats that change the type of a property. -/
inductive StringFormat where
  /-- A date and time. -/
  | date
  /-- A resource identifier. -/
  | uri
deriving DecidableEq, Repr, Inhabited

namespace StringFormat

/-- The token of a format. -/
def token : StringFormat → String
  | date => "date"
  | uri => "uri"

/-- The format that has the token. -/
def ofToken? (s : String) : Option StringFormat :=
  [date, uri].find? (·.token == s)

/-- The base type of strings with the format. -/
def baseType : StringFormat → BaseType
  | date => .date
  | uri => .uri

/-- The base type of a string property, given what it says of its format. Another format than
the known ones says nothing. -/
def baseTypeOf (format : Option String) : BaseType :=
  match format.bind ofToken? with
  | some f => f.baseType
  | none => .string

end StringFormat

/-- The text of a type, with a hole for each type that is left open. -/
structure Spelling where
  text : String
deriving DecidableEq, Repr, Inhabited

namespace Spelling

/-- The number of holes in a text. -/
def countHoles : List Char → Nat
  | [] => 0
  | '{' :: '}' :: rest => countHoles rest + 1
  | _ :: rest => countHoles rest

/-- The text with `inner` in the place of its first hole. What is filled in is not looked at
again, so holes in `inner` stay holes. -/
def fillFirst (inner : List Char) : List Char → List Char
  | [] => []
  | '{' :: '}' :: rest => inner ++ rest
  | c :: rest => c :: fillFirst inner rest

/-- The number of holes of a spelling. -/
def holes (s : Spelling) : Nat :=
  countHoles s.text.toList

/-- The spelling with `inner` in its first hole. -/
def fill (s : Spelling) (inner : String) : String :=
  String.ofList (fillFirst inner.toList s.text.toList)

end Spelling

/-- A target language. -/
inductive Language where
  | swift
  | objc
  | rust
  | typescript
deriving DecidableEq, Repr, Inhabited

namespace Language

/-- All languages, in the order in which they are listed. -/
def all : List Language :=
  [swift, objc, rust, typescript]

/-- The name of a language. -/
def token : Language → String
  | swift => "swift"
  | objc => "objc"
  | rust => "rust"
  | typescript => "typescript"

/-- The text of a base type in a language, before it is taken as a spelling. -/
def spellingText : Language → BaseType → String
  | swift, .string => "String"
  | swift, .integer => "Int"
  | swift, .float => "Float"
  | swift, .boolean => "Bool"
  | swift, .date => "Date"
  | swift, .uri => "URL"
  | swift, .array => "[\x7b\x7d]"
  | swift, .dictionary => "[String: \x7b\x7d]"
  | objc, .string => "NSString *"
  | objc, .integer => "NSInteger"
  | objc, .float => "double"
  | objc, .boolean => "BOOL"
  | objc, .date => "NSDate *"
  | objc, .uri => "NSURL *"
  | objc, .array => "NSArray<\x7b\x7d> *"
  | objc, .dictionary => "NSDictionary<NSString *, \x7b\x7d> *"
  | rust, .string => "String"
  | rust, .integer => "i64"
  | rust, .float => "f64"
  | rust, .boolean => "bool"
  | rust, .date => "chrono::DateTime<chrono::Utc>"
  | rust, .uri => "url::Url"
  | rust, .array => "Vec<\x7b\x7d>"
  | rust, .dictionary => "std::collections::HashMap<String, \x7b\x7d>"
  | typescript, .string => "string"
  | typescript, .integer => "number"
  | typescript, .float => "number"
  | typescript, .boolean => "boolean"
  | typescript, .date => "Date"
  | typescript, .uri => "string"
  | typescript, .array => "Array<\x7b\x7d>"
  | typescript, .dictionary => "Record<string, \x7b\x7d>"

/-- The spelling of a base type in a language. -/
def spelling (l : Language) (b : BaseType) : Spelling :=
  ⟨l.spellingText b⟩

/-- The spelling of a base type that is no container. -/
def scalar (l : Language) (b : BaseType) : String :=
  (l.spelling b).text

/-- The object that holds a bare number or truth value. -/
def boxed : String := "NSNumber *"

/-- The text that stands for `inner` inside a container. -/
def element : Language → String → String
  | objc, inner =>
    if [BaseType.integer, .float, .boolean].any fun b => objc.scalar b == inner then boxed
    else inner
  | _, inner => inner

/-- The type of arrays with elements of the type `inner`. -/
def arrayOf (l : Language) (inner : String) : String :=
  (l.spelling .array).fill (l.element inner)

/-- The type of dictionaries with values of the type `inner`. -/
def dictionaryOf (l : Language) (inner : String) : String :=
  (l.spelling .dictionary).fill (l.element inner)

end Language
end FieldTypes
