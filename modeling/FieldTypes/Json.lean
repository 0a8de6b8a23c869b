/-!
# JSON values

A JSON value as a document gives it. The members of an object keep the order in which their keys
first appear, and a key that appears again changes the value in its old place. A number is kept
as the text it was written with.

A value is written without any blanks, or over several lines: each element and member then has a
line of its own, two blanks further in than the brackets around it, and a blank follows each
colon. Empty arrays and objects are two characters in both layouts. In a string, a quote, a
backslash and the characters below the space are escaped, with the short escape where there is one,
and every other character stands for itself.

**Main definitions.**
* `Json`: the values.
* `Json.member?`: the value of a key, where the value is an object that has it.
* `Json.ofMembers`: the object of a sequence of members.
* `Json.quoted`: a text between quotes.
* `Json.compact`, `Json.pretty`: the text of a value in the two layouts.
-/

namespace FieldTypes

/-- A JSON value. -/
inductive Json where
  | null
  | bool (value : Bool)
  | number (literal : String)
  | string (text : String)
  | array (items : List Json)
  | object (members : List (String × Json))
deriving Inhabited, Repr

namespace Json

/-- The value of a key in an object. -/
def member? (key : String) : Json → Option Json
  | object members => members.lookup key
  | _ => none

/-- The text of a string. -/
def string? : Json → Option String
  | string s => some s
  | _ => none

/-- The value of a truth value. -/
def bool? : Json → Option Bool
  | bool b => some b
  | _ => none

/-- The members with `key` bound to `value`: in the place of the key, or at the end. -/
def bindKey (key : String) (value : Json) : List (String × Json) → List (String × Json)
  | [] => [(key, value)]
  | (k, v) :: ms => if k = key then (k, value) :: ms else (k, v) :: bindKey key value ms

/-- The object of a sequence of members, in which a later one takes precedence. -/
def ofMembers (members : List (String × Json)) : Json :=
  object (members.foldl (fun ms m => bindKey m.1 m.2 ms) [])

/-- A text, or `null` for none. -/
def ofString? : Option String → Json
  | some s => string s
  | none => null

/-- The hexadecimal digit of a number below 16, in lower case. -/
def hexDigit (n : Nat) : Char :=
  if n < 10 then Char.ofNat ('0'.toNat + n) else Char.ofNat ('a'.toNat + (n - 10))

/-- A character as it is written between quotes. -/
def escaped (c : Char) : List Char :=
  if c = '"' then ['\\', '"']
  else if c = '\\' then ['\\', '\\']
  else if c = '\x08' then ['\\', 'b']
  else if c = '\x0c' then ['\\', 'f']
  else if c = '\n' then ['\\', 'n']
  else if c = '\r' then ['\\', 'r']
  else if c = '\t' then ['\\', 't']
  else if c.toNat < 0x20 then
    ['\\', 'u', '0', '0', hexDigit (c.toNat / 16), hexDigit (c.toNat % 16)]
  else [c]

/-- A text between quotes. -/
def quoted (cs : List Char) : List Char :=
  '"' :: cs.flatMap escaped ++ ['"']

/-- How a value is laid out. -/
inductive Layout where
  | compact
  | pretty
deriving DecidableEq, Repr

namespace Layout

/-- What stands in front of an element at the depth given. -/
def lineStart : Layout → Nat → List Char
  | compact, _ => []
  | pretty, depth => '\n' :: List.replicate (2 * depth) ' '

/-- What stands between a key and its value. -/
def colon : Layout → List Char
  | compact => [':']
  | pretty => [':', ' ']

end Layout

mutual

/-- The text of a value that stands at the depth given. -/
def write (l : Layout) (depth : Nat) : Json → List Char
  | null => ['n', 'u', 'l', 'l']
  | bool true => ['t', 'r', 'u', 'e']
  | bool false => ['f', 'a', 'l', 's', 'e']
  | number literal => literal.toList
  | string s => quoted s.toList
  | array [] => ['[', ']']
  | array (v :: vs) => '[' :: writeItems l (depth + 1) (v :: vs) ++ l.lineStart depth ++ [']']
  | object [] => ['\x7b', '\x7d']
  | object (m :: ms) =>
    '\x7b' :: writeMembers l (depth + 1) (m :: ms) ++ l.lineStart depth ++ ['\x7d']

/-- The elements of an array, with commas between them. -/
def writeItems (l : Layout) (depth : Nat) : List Json → List Char
  | [] => []
  | [v] => l.lineStart depth ++ write l depth v
  | v :: w :: vs =>
    l.lineStart depth ++ write l depth v ++ ',' :: writeItems l depth (w :: vs)

/-- The members of an object, with commas between them. -/
def writeMembers (l : Layout) (depth : Nat) : List (String × Json) → List Char
  | [] => []
  | [(k, v)] => l.lineStart depth ++ quoted k.toList ++ l.colon ++ write l depth v
  | (k, v) :: m :: ms =>
    l.lineStart depth ++ quoted k.toList ++ l.colon ++ write l depth v ++
      ',' :: writeMembers l depth (m :: ms)

end

/-- The text of a value in a layout. -/
def render (l : Layout) (v : Json) : String :=
  String.ofList (write l 0 v)

/-- The text of a value without blanks. -/
def compact (v : Json) : String := v.render .compact

/-- The text of a value over several lines. -/
def pretty (v : Json) : String := v.render .pretty

end Json
end FieldTypes
