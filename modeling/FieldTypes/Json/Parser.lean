import FieldTypes.Json

/-!
# Reading JSON texts

A text is one value with blanks around it. Values may be nested to a depth of 127 arrays and
objects; the reader of a value takes the reader of the values one level below as an argument, so
the recursion is on the depth.

A reader works through the characters of a text and knows only what is left of it, so a `Stop`
holds the number of bytes left; the `Fault` of the whole text has the line and the column instead,
and the elements and members inside which reading stopped. Lines count from one. The column is the
number of bytes since the line began, so it is zero after a newline that was read.

A number with a point, an exponent or more digits than a 64-bit word holds stands for a double, and
one too large for a double is refused. The double is taken from the leading digits as far as they
fit into a word and from the decimal exponent of what they leave out. In a string, any character but
a quote, a backslash and those below the space may also be given by one escape of four hexadecimal
digits, or by two that are a surrogate pair.

**Main definitions.**
* `Stop`: where a reader gives up.
* `Fault`, `Fault.message`: what is reported of it.
* `roundToDouble`: the double nearest to a natural number.
* `exceedsDouble`: whether digits and exponent are beyond all doubles.
* `scanNumber`: the rest of a text behind its number.
* `unquoted`: the text up to the closing quote, and the rest behind it.
* `Json.valueOf`: reads a value, given the reader of the values inside it.
* `Json.parse`: the value of a text, or the first fault in it.
-/

namespace FieldTypes
namespace Json

/-- Why a text is no JSON document. -/
inductive Cause where
  | endInValue
  | endInString
  | endInList
  | endInObject
  | expectedValue
  | expectedWord
  | expectedCommaInList
  | expectedCommaInObject
  | expectedColon
  | keyNotString
  | trailingComma
  | controlCharacter
  | invalidEscape
  | loneSurrogate
  | endOfHexEscape
  | invalidNumber
  | numberOutOfRange
  | tooDeep
  | trailingCharacters
deriving DecidableEq, Repr

/-- The text of a cause. -/
def Cause.message : Cause → String
  | endInValue => "EOF while parsing a value"
  | endInString => "EOF while parsing a string"
  | endInList => "EOF while parsing a list"
  | endInObject => "EOF while parsing an object"
  | expectedValue => "expected value"
  | expectedWord => "expected ident"
  | expectedCommaInList => "expected `,` or `]`"
  | expectedCommaInObject => "expected `,` or `\x7d`"
  | expectedColon => "expected `:`"
  | keyNotString => "key must be a string"
  | trailingComma => "trailing comma"
  | controlCharacter => "control character (\\u0000-\\u001F) found while parsing a string"
  | invalidEscape => "invalid escape"
  | loneSurrogate => "lone leading surrogate in hex escape"
  | endOfHexEscape => "unexpected end of hex escape"
  | invalidNumber => "invalid number"
  | numberOutOfRange => "number out of range"
  | tooDeep => "recursion limit exceeded"
  | trailingCharacters => "trailing characters"

/-- One step on the way from a document to a value inside it. -/
inductive Step where
  | index (i : Nat)
  | key (k : String)
  /-- A member whose key is not known, since reading stopped before its end. -/
  | unknownKey
deriving DecidableEq, Repr

/-- The text of a step. -/
def Step.text : Step → String
  | index i => "[" ++ toString i ++ "]"
  | key k => k
  | unknownKey => "?"

/-- Whether a point stands between a step and the ones before it. -/
def Step.isPointed : Step → Bool
  | index _ => false
  | _ => true

/-- The text of a way, outermost step first: a lone point for the document itself. -/
def wayText : List Step → String
  | [] => "."
  | s :: ss => ss.foldl (fun t s => t ++ (if s.isPointed then "." else "") ++ s.text) s.text

/-- The number of bytes of a text. -/
def byteCount : List Char → Nat
  | [] => 0
  | c :: cs => c.utf8Size + byteCount cs

/-- Where a reader gives up: with `left` bytes of the text behind it, inside `way`. -/
structure Stop where
  cause : Cause
  left : Nat
  way : List Step := []
deriving DecidableEq, Repr

namespace Stop

/-- Giving up in front of `rest`, all before it being read. -/
def before (cause : Cause) (rest : List Char) : Stop :=
  { cause, left := byteCount rest }

/-- Giving up at the first byte of `rest`, which counts as read; at the end there is none. -/
def upon (cause : Cause) (rest : List Char) : Stop :=
  { cause, left := byteCount rest - 1 }

/-- The same stop, seen from around the step. -/
def under (step : Step) (s : Stop) : Stop :=
  { s with way := step :: s.way }

end Stop

/-- A line and a column of a text. -/
structure Position where
  line : Nat
  column : Nat
deriving DecidableEq, Repr

/-- The position `n` bytes further into a text that begins at `p`. -/
def Position.advance (p : Position) : Nat → List Char → Position
  | _, [] => p
  | n, c :: cs =>
    if n < c.utf8Size then { p with column := p.column + n }
    else if c = '\n' then advance { line := p.line + 1, column := 0 } (n - c.utf8Size) cs
    else advance { p with column := p.column + c.utf8Size } (n - c.utf8Size) cs

/-- Why a text is no JSON document, and where. -/
structure Fault where
  cause : Cause
  position : Position
  way : List Step
deriving DecidableEq, Repr

/-- The fault of a text at which a reader gives up. -/
def Stop.fault (s : Stop) (text : List Char) : Fault :=
  { cause := s.cause
    position := Position.advance ⟨1, 0⟩ (byteCount text - s.left) text
    way := s.way }

/-- The text of a fault. What stands behind a document is inside no value of it. -/
def Fault.message (f : Fault) : String :=
  let line := toString f.position.line
  let column := toString f.position.column
  let place :=
    if f.cause = .trailingCharacters then "trailing data" else "at JSON path " ++ wayText f.way
  place ++ " (line " ++ line ++ ", column " ++ column ++ ") → " ++ f.cause.message ++
    " at line " ++ line ++ " column " ++ column

/-- Whether the character is a decimal digit. -/
def isDigit (c : Char) : Bool :=
  '0' ≤ c && c ≤ '9'

/-- The value of a decimal digit. -/
def digitValue (c : Char) : Nat :=
  c.toNat - '0'.toNat

/-- The nearest natural number with at most 53 significant bits, ties to the even one. -/
def roundToDouble (n : Nat) : Nat :=
  if n < Nat.pow 2 53 then n
  else
    let unit := Nat.pow 2 (n.log2 - 52)
    let q := n / unit
    let r := n % unit
    if 2 * r > unit || (2 * r == unit && q % 2 == 1) then (q + 1) * unit else q * unit

/-- The largest decimal exponent of a double. -/
def maxExponent : Nat := 308

/-- Whether `digits · 10 ^ exponent` is too large for a double. The digits and the power are
rounded before they are multiplied. -/
def exceedsDouble (digits : Nat) (exponent : Int) : Bool :=
  if exponent < 0 || digits == 0 then false
  else if exponent > maxExponent then true
  else
    let power := Nat.pow 10 exponent.toNat
    roundToDouble (roundToDouble digits * roundToDouble power) ≥ Nat.pow 2 1024

/-- The digits of a text that still fit: the number they extend `n` to, how many there are, and
the rest of the text. -/
def fittingDigits (limit n : Nat) : List Char → Nat × Nat × List Char
  | [] => (n, 0, [])
  | c :: cs =>
    if isDigit c && n * 10 + digitValue c ≤ limit then
      match fittingDigits limit (n * 10 + digitValue c) cs with
      | (m, k, rest) => (m, k + 1, rest)
    else (n, 0, c :: cs)

/-- The largest number of 64 bits. -/
def maxWord : Nat := 0xFFFFFFFFFFFFFFFF

/-- The largest exponent that is counted exactly. -/
def maxCounted : Nat := 0x7FFFFFFF

/-- The rest behind a number that stands for a double. -/
def doubleEnd (digits : Nat) (exponent : Int) (rest : List Char) : Except Stop (List Char) :=
  if exceedsDouble digits exponent then .error (.before .numberOutOfRange rest) else .ok rest

/-- Reads the digits of an exponent. One that is not counted exactly is too large for every
number but zero, or so small that the number is zero. -/
def exponentDigits (digits : Nat) (exponent : Int) (negative : Bool) (cs : List Char) :
    Except Stop (List Char) :=
  match cs with
  | [] => .error (.before .endInValue [])
  | c :: _ =>
    if !isDigit c then .error (.upon .invalidNumber cs)
    else
      match fittingDigits maxCounted 0 cs with
      | (e, _, rest) =>
        match rest with
        | d :: beyond =>
          if isDigit d then
            if digits ≠ 0 && !negative then .error (.before .numberOutOfRange beyond)
            else .ok (beyond.dropWhile isDigit)
          else doubleEnd digits (if negative then exponent - e else exponent + e) rest
        | [] => doubleEnd digits (if negative then exponent - e else exponent + e) []

/-- Reads what stands behind the `e` of an exponent. -/
def exponentPart (digits : Nat) (exponent : Int) : List Char → Except Stop (List Char)
  | '+' :: cs => exponentDigits digits exponent false cs
  | '-' :: cs => exponentDigits digits exponent true cs
  | cs => exponentDigits digits exponent false cs

/-- Reads what stands behind the decimal point. Digits that no longer fit change nothing. -/
def fraction (digits : Nat) (exponent : Int) (cs : List Char) : Except Stop (List Char) :=
  match cs with
  | [] => .error (.upon .endInValue [])
  | c :: _ =>
    if !isDigit c then .error (.upon .invalidNumber cs)
    else
      match fittingDigits maxWord digits cs with
      | (digits, places, rest) =>
        match rest.dropWhile isDigit with
        | 'e' :: r => exponentPart digits (exponent - places) r
        | 'E' :: r => exponentPart digits (exponent - places) r
        | r => doubleEnd digits (exponent - places) r

/-- Reads what stands behind the integer part. Digits of it that did not fit raise the exponent,
and make the number a double. -/
def integerEnd (digits : Nat) (rest : List Char) : Except Stop (List Char) :=
  let excess := (rest.takeWhile isDigit).length
  match rest.dropWhile isDigit with
  | '.' :: r => fraction digits excess r
  | 'e' :: r => exponentPart digits excess r
  | 'E' :: r => exponentPart digits excess r
  | r => if excess = 0 then .ok r else doubleEnd digits excess r

/-- Reads a number without its sign. -/
def unsigned (cs : List Char) : Except Stop (List Char) :=
  match cs with
  | [] => .error (.before .endInValue [])
  | '0' :: rest =>
    match rest with
    | d :: _ => if isDigit d then .error (.upon .invalidNumber rest) else integerEnd 0 rest
    | [] => .ok []
  | c :: _ =>
    if isDigit c then
      match fittingDigits maxWord 0 cs with
      | (digits, _, rest) => integerEnd digits rest
    else .error (.upon .invalidNumber cs)

/-- The rest of a text behind the number that it begins with. -/
def scanNumber : List Char → Except Stop (List Char)
  | '-' :: cs => unsigned cs
  | cs => unsigned cs

/-- The value of a hexadecimal digit of either case. -/
def hexValue? (c : Char) : Option Nat :=
  if '0' ≤ c && c ≤ '9' then some (c.toNat - '0'.toNat)
  else if 'a' ≤ c && c ≤ 'f' then some (c.toNat - 'a'.toNat + 10)
  else if 'A' ≤ c && c ≤ 'F' then some (c.toNat - 'A'.toNat + 10)
  else none

/-- The character of a short escape, given the character behind the backslash. -/
def shortEscape? (c : Char) : Option Char :=
  if c = '"' then some '"'
  else if c = '\\' then some '\\'
  else if c = '/' then some '/'
  else if c = 'b' then some '\x08'
  else if c = 'f' then some '\x0c'
  else if c = 'n' then some '\n'
  else if c = 'r' then some '\r'
  else if c = 't' then some '\t'
  else none

/-- The number of four hexadecimal digits. -/
def hexNumber? (a b c d : Char) : Option Nat :=
  match hexValue? a, hexValue? b, hexValue? c, hexValue? d with
  | some a, some b, some c, some d => some (((a * 16 + b) * 16 + c) * 16 + d)
  | _, _, _, _ => none

/-- Why `cs`, behind the `u` of an escape, does not begin with four hexadecimal digits: the text
ends within four bytes, or the four bytes there are other ones. -/
def hexStop (cs : List Char) : Stop :=
  if byteCount cs < 4 then .before .endInString []
  else { cause := .invalidEscape, left := byteCount cs - 4 }

/-- Whether the number is the first half of a surrogate pair. -/
def isLeading (n : Nat) : Bool := 0xD800 ≤ n && n ≤ 0xDBFF

/-- Whether the number is the second half of a surrogate pair. -/
def isTrailing (n : Nat) : Bool := 0xDC00 ≤ n && n ≤ 0xDFFF

/-- The character of a surrogate pair. -/
def pairChar (leading trailing : Nat) : Char :=
  Char.ofNat ((leading - 0xD800) * 0x400 + (trailing - 0xDC00) + 0x10000)

/-- Why `cs`, behind the first half of a surrogate pair, does not begin with an escape. -/
def pairStop : List Char → Stop
  | [] => .before .endInString []
  | ['\\'] => .before .endInString []
  | '\\' :: cs => .upon .endOfHexEscape cs
  | cs => .upon .endOfHexEscape cs

/-- A character in front of a text that was read. -/
def put (c : Char) (r : Except Stop (List Char × List Char)) :
    Except Stop (List Char × List Char) :=
  r.map fun (cs, rest) => (c :: cs, rest)

/-- Reads up to the closing quote: the text, and the rest behind the quote. -/
def unquoted : List Char → Except Stop (List Char × List Char)
  | [] => .error (.before .endInString [])
  | c :: cs =>
    if c = '"' then .ok ([], cs)
    else if c = '\\' then
      match cs with
      | [] => .error (.before .endInString [])
      | e :: cs =>
        if e = 'u' then
          match cs with
          | h₁ :: h₂ :: h₃ :: h₄ :: rest =>
            match hexNumber? h₁ h₂ h₃ h₄ with
            | none => .error (hexStop cs)
            | some n =>
              if isTrailing n then .error (.before .loneSurrogate rest)
              else if isLeading n then
                match rest with
                | '\\' :: 'u' :: low =>
                  match low with
                  | l₁ :: l₂ :: l₃ :: l₄ :: rest =>
                    match hexNumber? l₁ l₂ l₃ l₄ with
                    | none => .error (hexStop low)
                    | some m =>
                      if isTrailing m then put (pairChar n m) (unquoted rest)
                      else .error (.before .loneSurrogate rest)
                  | low => .error (hexStop low)
                | rest => .error (pairStop rest)
              else put (Char.ofNat n) (unquoted rest)
          | cs => .error (hexStop cs)
        else
          match shortEscape? e with
          | some s => put s (unquoted cs)
          | none => .error (.upon .invalidEscape (e :: cs))
    else if c.toNat < 0x20 then .error (.before .controlCharacter cs)
    else put c (unquoted cs)

/-- Reads from the front of a text: what was read, and the rest. -/
abbrev Reader (α : Type) := List Char → Except Stop (α × List Char)

/-- The depth to which arrays and objects may be nested. -/
def maxDepth : Nat := 127

/-- The characters that may stand between any two parts of a text. -/
def isBlank (c : Char) : Bool :=
  c == ' ' || c == '\n' || c == '\r' || c == '\t'

/-- A text without the blanks in front of it. -/
def skipBlanks (cs : List Char) : List Char :=
  cs.dropWhile isBlank

/-- What was read inside the step: where reading gives up, the step becomes part of the way. -/
def inside {α : Type} (step : Step) : Except Stop α → Except Stop α
  | .ok a => .ok a
  | .error s => .error (s.under step)

/-- Reads the characters of a word. -/
def word (value : Json) : (expected : List Char) → Reader Json
  | [], cs => .ok (value, cs)
  | _ :: _, [] => .error (.before .endInValue [])
  | w :: ws, c :: cs =>
    if c = w then word value ws cs else .error (.upon .expectedWord (c :: cs))

/-- The characters of numbers. In a document none of them may follow a number. -/
def isNumberChar (c : Char) : Bool :=
  isDigit c || c == '-' || c == '+' || c == '.' || c == 'e' || c == 'E'

/-- Reads a number and keeps its text. -/
def numberValue : Reader Json := fun cs => do
  let rest ← scanNumber cs
  .ok (.number (String.ofList (cs.takeWhile isNumberChar)), rest)

/-- Reads a string, from behind its opening quote. -/
def text : Reader String := fun cs => do
  let (s, rest) ← unquoted cs
  .ok (String.ofList s, rest)

section Containers

variable (value : Reader Json)

/-- Reads the elements of an array behind the first `i` ones, with their commas, and its end.
Each takes up a character at least, so `n` is enough where it exceeds the length of the text. -/
def moreElements (n i : Nat) : Reader (List Json) := fun cs =>
  match n with
  | 0 => .error (.upon .endInList cs)
  | n + 1 =>
    match skipBlanks cs with
    | [] => .error (.upon .endInList [])
    | ']' :: rest => .ok ([], rest)
    | ',' :: rest =>
      match skipBlanks rest with
      | [] => .error (.upon .endInValue [])
      | ']' :: rest => .error (.upon .trailingComma (']' :: rest))
      | rest => do
        let (v, rest) ← inside (.index i) (value rest)
        let (vs, rest) ← moreElements n (i + 1) rest
        .ok (v :: vs, rest)
    | rest => .error (.upon .expectedCommaInList rest)

/-- Reads an array, from behind its opening bracket. -/
def arrayBody (n : Nat) : Reader (List Json) := fun cs =>
  match skipBlanks cs with
  | [] => .error (.upon .endInList [])
  | ']' :: rest => .ok ([], rest)
  | rest => do
    let (v, rest) ← inside (.index 0) (value rest)
    let (vs, rest) ← moreElements value n 1 rest
    .ok (v :: vs, rest)

/-- Reads a member, from behind the opening quote of its key. -/
def member : Reader (String × Json) := fun cs => do
  let (k, rest) ← inside .unknownKey (text cs)
  match skipBlanks rest with
  | [] => .error (.upon .endInObject [])
  | ':' :: rest =>
    let (v, rest) ← inside (.key k) (value rest)
    .ok ((k, v), rest)
  | rest => .error (.upon .expectedColon rest)

/-- Reads the members of an object behind the first one, with their commas, and its end. As for
arrays, `n` is enough where it exceeds the length of the text. -/
def moreMembers (n : Nat) : Reader (List (String × Json)) := fun cs =>
  match n with
  | 0 => .error (.upon .endInObject cs)
  | n + 1 =>
    match skipBlanks cs with
    | [] => inside .unknownKey (.error (.upon .endInObject []))
    | '\x7d' :: rest => .ok ([], rest)
    | ',' :: rest =>
      match skipBlanks rest with
      | [] => inside .unknownKey (.error (.upon .endInValue []))
      | '"' :: rest => do
        let (m, rest) ← member value rest
        let (ms, rest) ← moreMembers n rest
        .ok (m :: ms, rest)
      | '\x7d' :: rest => inside .unknownKey (.error (.upon .trailingComma ('\x7d' :: rest)))
      | rest => inside .unknownKey (.error (.upon .keyNotString rest))
    | rest => inside .unknownKey (.error (.upon .expectedCommaInObject rest))

/-- Reads an object, from behind its opening brace. -/
def objectBody (n : Nat) : Reader (List (String × Json)) := fun cs =>
  match skipBlanks cs with
  | [] => inside .unknownKey (.error (.upon .endInObject []))
  | '\x7d' :: rest => .ok ([], rest)
  | '"' :: rest => do
    let (m, rest) ← member value rest
    let (ms, rest) ← moreMembers value n rest
    .ok (m :: ms, rest)
  | rest => inside .unknownKey (.error (.upon .keyNotString rest))

end Containers

/-- Reads a value with the blanks in front of it. The reader of the values inside it is absent
where the depth is used up, and `n` exceeds the length of the text. -/
def valueOf (n : Nat) (inner : Option (Reader Json)) : Reader Json := fun cs =>
  match skipBlanks cs with
  | [] => .error (.upon .endInValue [])
  | 'n' :: rest => word .null ['u', 'l', 'l'] rest
  | 't' :: rest => word (.bool true) ['r', 'u', 'e'] rest
  | 'f' :: rest => word (.bool false) ['a', 'l', 's', 'e'] rest
  | '"' :: rest => do
    let (s, rest) ← text rest
    .ok (.string s, rest)
  | '[' :: rest =>
    match inner with
    | none => .error (.upon .tooDeep ('[' :: rest))
    | some value => do
      let (vs, rest) ← arrayBody value n rest
      .ok (.array vs, rest)
  | '\x7b' :: rest =>
    match inner with
    | none => .error (.upon .tooDeep ('\x7b' :: rest))
    | some value => do
      let (ms, rest) ← objectBody value n rest
      .ok (.ofMembers ms, rest)
  | c :: rest =>
    if c = '-' || isDigit c then numberValue (c :: rest)
    else .error (.upon .expectedValue (c :: rest))

/-- Reads a value in which arrays and objects are nested to a depth of at most `depth`, from a
text with fewer than `n` characters. -/
def valueWithin (n : Nat) : (depth : Nat) → Reader Json
  | 0 => valueOf n none
  | depth + 1 => valueOf n (some (valueWithin n depth))

/-- Reads a document: one value, and blanks up to the end. -/
def document (cs : List Char) : Except Stop Json := do
  let (v, rest) ← valueWithin (cs.length + 1) maxDepth cs
  match skipBlanks rest with
  | [] => .ok v
  | rest => .error (.upon .trailingCharacters rest)

/-- The value of a text, or the first fault in it. -/
def parse (source : String) : Except Fault Json :=
  match document source.toList with
  | .ok v => .ok v
  | .error s => .error (s.fault source.toList)

end Json
end FieldTypes
