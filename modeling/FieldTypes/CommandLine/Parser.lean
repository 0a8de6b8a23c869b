import FieldTypes.Language
import FieldTypes.Path

/-!
# Commands and how they are given

The commands of the program, the switches that each of them knows, and what a switch makes of its
values.

A command line is a verb and then switches with their values. A switch is a word with two dashes
and a long name, or a dash and short names; a value stands behind an equals sign, directly behind
a short name, or in the words that follow. The words that follow are values up to the next switch,
but a switch that takes one value takes one word.

A switch is settled, and its values are looked at, when the next known switch comes or the words
end. An unknown word is therefore an error before the values of the switch in front of it are.

**Main definitions.**
* `Command`: a command with all its arguments.
* `Usage`: what the arguments ask for or do wrong when no command is run.
* `Given.settle`: what has been given, with one more use of a switch.
* `Scan.words`: reads the words behind a verb.
* `Command.ofWords`: the command of a command line.
-/

namespace FieldTypes

/-- Why no command is run. -/
inductive Usage where
  /-- Help is asked for. -/
  | help
  /-- The version is asked for. -/
  | version
  /-- There are no arguments at all. -/
  | helpOnMissing
  | unknownCommand
  | unknownArgument
  /-- A switch without values is given one. -/
  | tooManyValues
  /-- A switch has no value, or one that it does not take. -/
  | invalidValue
  /-- A switch is given again. -/
  | conflict
  | missingArgument
deriving DecidableEq, Repr

/-- The exit code of the program. -/
def Usage.exitCode : Usage → Nat
  | help | version => 0
  | _ => 2

/-- The form in which reports are printed. -/
inductive OutputFormat where
  | json
  | text
deriving DecidableEq, Repr

/-- A command with its arguments. -/
inductive Command where
  /-- Reports of the models, and of those they refer to where `follow` says so. -/
  | resolve (inputs : List String) (language : Language) (follow : Bool) (format : OutputFormat)
      (out : Option Path)
  /-- The properties of the models in their normal form. -/
  | describe (inputs : List String) (out : Option Path)
  /-- The tables of all languages. -/
  | languages
deriving DecidableEq, Repr

/-- A switch of a command. -/
inductive Switch where
  | help
  | input
  | language
  | follow
  | format
  | out
deriving DecidableEq, Repr

/-- How many values a switch takes. -/
inductive Arity where
  | none
  | one
  | many
deriving DecidableEq, Repr

namespace Switch

/-- The long name of a switch. -/
def longName : Switch → String
  | help => "help"
  | input => "input"
  | language => "lang"
  | follow => "follow-refs"
  | format => "format"
  | out => "out"

/-- The short name of a switch, if it has one. -/
def shortName? : Switch → Option Char
  | help => some 'h'
  | input => some 'i'
  | language => some 'l'
  | out => some 'o'
  | follow | format => none

/-- How many values a switch takes. -/
def arity : Switch → Arity
  | help | follow => .none
  | input => .many
  | language | format | out => .one

end Switch

/-- What a command line names first. -/
inductive Verb where
  | resolve
  | describe
  | languages
deriving DecidableEq, Repr

namespace Verb

/-- The verb of a word. -/
def ofWord? (word : String) : Option Verb :=
  if word = "resolve" then some resolve
  else if word = "describe" then some describe
  else if word = "languages" then some languages
  else none

/-- The switches that a verb knows. -/
def switches : Verb → List Switch
  | resolve => [.help, .input, .language, .follow, .format, .out]
  | describe => [.help, .input, .out]
  | languages => [.help]

end Verb

/-- The language of a word. One of them has a short name too. -/
def Language.ofWord? (word : String) : Option Language :=
  if word = "ts" then some .typescript else Language.all.find? (·.token == word)

/-- The output format of a word. -/
def OutputFormat.ofWord? (word : String) : Option OutputFormat :=
  if word = "json" then some json else if word = "text" then some text else none

/-- What the switches read so far have given. -/
structure Given where
  inputs : Option (List String) := none
  language : Option Language := none
  follow : Bool := false
  format : Option OutputFormat := none
  out : Option Path := none
deriving Inhabited

namespace Given

/-- The only value that a switch with one value may be given, once. -/
def single {α : Type} (old : Option α) (read : String → Option α) :
    List String → Except Usage (Option α)
  | [] => .error .invalidValue
  | word :: _ =>
    if old.isSome then .error .conflict
    else
      match read word with
      | some a => .ok (some a)
      | none => .error .invalidValue

/-- What is given once a switch is used with its values. Inputs add up. An output file needs a
path that is not empty. -/
def settle (g : Given) (switch : Switch) (values : List String) : Except Usage Given :=
  match switch with
  | .help => .error .help
  | .follow => if g.follow then .error .conflict else .ok { g with follow := true }
  | .input =>
    if values.isEmpty then .error .invalidValue
    else .ok { g with inputs := some (g.inputs.getD [] ++ values) }
  | .language => do .ok { g with language := ← single g.language Language.ofWord? values }
  | .format => do .ok { g with format := ← single g.format OutputFormat.ofWord? values }
  | .out => do
    let read := fun word => if word = "" then none else some (Path.mk word)
    .ok { g with out := ← single g.out read values }

/-- The command of a verb, if all that it needs is given. -/
def command (g : Given) : Verb → Except Usage Command
  | .resolve =>
    match g.inputs, g.language with
    | some inputs, some language =>
      .ok (.resolve inputs language g.follow (g.format.getD .json) g.out)
    | _, _ => .error .missingArgument
  | .describe =>
    match g.inputs with
    | some inputs => .ok (.describe inputs g.out)
    | none => .error .missingArgument
  | .languages => .ok .languages

end Given

/-- The state of reading switches: what is given, and the switch that waits to be settled, with
the values it has and whether it takes more. -/
structure Scan where
  given : Given := {}
  pending : Option (Switch × List String) := none
  takesMore : Bool := false
deriving Inhabited

/-- What a word looks like. -/
inductive WordForm where
  /-- Two dashes alone: no switch stands behind them. -/
  | separator
  /-- A long name, and the value behind its equals sign. -/
  | long (name : String) (value : Option String)
  /-- Short names, the last of them perhaps with a value. -/
  | short (names : List Char)
  /-- No switch. -/
  | plain
deriving DecidableEq, Repr

/-- What a word looks like. A lone dash is no switch. -/
def WordForm.ofWord (word : String) : WordForm :=
  match word.toList with
  | ['-', '-'] => .separator
  | '-' :: '-' :: cs =>
    let name := String.ofList (cs.takeWhile (· ≠ '='))
    match cs.dropWhile (· ≠ '=') with
    | _ :: value => .long name (some (String.ofList value))
    | [] => .long name none
  | ['-'] => .plain
  | '-' :: cs => .short cs
  | _ => .plain

namespace Scan

/-- Settles the switch that waits. -/
def settled (s : Scan) : Except Usage Given :=
  match s.pending with
  | none => .ok s.given
  | some (switch, values) => s.given.settle switch values

/-- Uses a switch, with a value that is attached to it or with those that follow. -/
def use (s : Scan) (switch : Switch) (attached : Option String) : Except Usage Scan := do
  let given ← s.settled
  match switch.arity, attached with
  | .none, _ => .ok { given := ← given.settle switch [] }
  | _, some value => .ok { given := ← given.settle switch [value] }
  | _, none => .ok { given, pending := some (switch, []), takesMore := true }

/-- Reads short names that share a dash. -/
def shorts (known : List Switch) (s : Scan) : List Char → Except Usage Scan
  | [] => .ok s
  | c :: cs =>
    match known.find? (·.shortName? == some c) with
    | none => .error .unknownArgument
    | some switch =>
      if switch.arity = .none then do shorts known (← s.use switch none) cs
      else
        match cs with
        | [] => s.use switch none
        | '=' :: value => s.use switch (some (String.ofList value))
        | value => s.use switch (some (String.ofList value))

/-- Reads one word that is no separator. -/
def word (known : List Switch) (s : Scan) (text : String) : Except Usage Scan :=
  match WordForm.ofWord text with
  | .long name value =>
    match known.find? (·.longName == name) with
    | none => .error .unknownArgument
    | some switch =>
      if switch.arity = .none && value.isSome then .error .tooManyValues else s.use switch value
  | .short names => shorts known s names
  | .separator | .plain =>
    match s.pending with
    | some (switch, values) =>
      if s.takesMore then
        .ok { s with
          pending := some (switch, values ++ [text])
          takesMore := switch.arity = .many }
      else .error .unknownArgument
    | none => .error .unknownArgument

/-- Reads the words behind a verb. Behind a separator none may follow. -/
def words (known : List Switch) (s : Scan) : List String → Except Usage Given
  | [] => s.settled
  | text :: texts =>
    if WordForm.ofWord text = .separator then
      if texts.isEmpty then s.settled else .error .unknownArgument
    else do words known (← s.word known text) texts

end Scan

/-- Whether a word names a command, or the help on commands. -/
def isCommandWord (word : String) : Bool :=
  (Verb.ofWord? word).isSome || word == "help"

/-- What the words behind `help` ask for: help on everything or on one command. -/
def helpOn : List String → Usage
  | [] => .help
  | [word] => if isCommandWord word then .help else .unknownCommand
  | _ => .unknownCommand

/-- What is wrong with a command line whose first word is no command, or what it asks for. -/
def usageOf (word : String) (others : List String) : Usage :=
  match WordForm.ofWord word with
  | .separator =>
    match others with
    | [] => .helpOnMissing
    | next :: _ => if isCommandWord next then .unknownArgument else .unknownCommand
  | .long name value =>
    if name = "help" ∨ name = "version" then
      if value.isSome then .tooManyValues else if name = "help" then .help else .version
    else .unknownArgument
  | .short ('h' :: _) => .help
  | .short ('V' :: _) => .version
  | .short _ => .unknownArgument
  | .plain => .unknownCommand

/-- The command of a command line, given without the name of the program. -/
def Command.ofWords : List String → Except Usage Command
  | [] => .error .helpOnMissing
  | word :: words =>
    match Verb.ofWord? word with
    | some verb => do ((← Scan.words verb.switches {} words).command verb)
    | none => if word = "help" then .error (helpOn words) else .error (usageOf word words)

end FieldTypes
