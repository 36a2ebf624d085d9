import SyntaxDrawing.CommandLine.Flag
import SyntaxDrawing.Text.Terminal

/-!
# Reading the command line

Words are taken one by one. A flag's value, and the name of the file to be read, are settled only
when the next flag or name has been recognised, or at the end: so an unknown flag is reported in
front of a bad value that precedes it. A value that is attached to its flag with `=` is settled at
once.
-/

namespace SyntaxDrawing.CommandLine

open Text.Terminal (shown)

inductive Word
  | separator
  | long (name : String) (value : Option String)
  | short (letter : Char)
  | plain (text : String)
  deriving DecidableEq

/-- A lone hyphen is a plain word. -/
def Word.ofString (s : String) : Word :=
  match s.toList with
  | ['-', '-'] => .separator
  | '-' :: '-' :: rest =>
    let name := String.ofList (rest.takeWhile (· != '='))
    match rest.dropWhile (· != '=') with
    | [] => .long name none
    | _ :: value => .long name (some (String.ofList value))
  | '-' :: letter :: _ => .short letter
  | _ => .plain s

inductive UsageFailure
  | nothingGiven
  | missingSubcommand
  | unknownSubcommand (word : String)
  | unexpectedArgument (word : String)
  | unexpectedValue (value : String) (flag : Flag)
  | missingValue (flag : Flag)
  | missingInput
  | repeated (flag : Flag)
  | invalidLength (value : String) (flag : Flag) (failure : LengthFailure)
  deriving DecidableEq

def programName : String := "astgraph-cli"

def programPurpose : String := "Syntax tree graph CLI"

def inputText : String := "[INPUT]"

/-- What the user has written stands in a message as a terminal would show it. -/
def UsageFailure.text : UsageFailure → String
  | .nothingGiven => programPurpose
  | .missingSubcommand =>
    "error: '" ++ programName ++ "' requires a subcommand but one was not provided"
  | .unknownSubcommand word => "error: unrecognized subcommand '" ++ shown word ++ "'"
  | .unexpectedArgument word => "error: unexpected argument '" ++ shown word ++ "' found"
  | .unexpectedValue value flag =>
    "error: unexpected value '" ++ shown value ++ "' for '" ++ flag.text ++
      "' found; no more were expected"
  | .missingValue flag =>
    "error: a value is required for '" ++ flag.text ++ "' but none was supplied"
  | .missingInput => "error: a value is required for '" ++ inputText ++ "' but none was supplied"
  | .repeated flag => "error: the argument '" ++ flag.text ++ "' cannot be used multiple times"
  | .invalidLength value flag failure =>
    "error: invalid value '" ++ shown value ++ "' for '" ++ flag.text ++ "': " ++
      shown failure.message

def firstLine (s : String) : String :=
  let line := s.toList.takeWhile (· != '\n')
  String.ofList (if line.getLast? = some '\r' then line.dropLast else line)

/-- The first line of what is written about the failure: a value may hold line breaks. -/
def UsageFailure.message (f : UsageFailure) : String :=
  firstLine f.text

/-- Why nothing is run: help was asked for, or the command line is wrong. -/
inductive Refusal
  | help (scope : Scope)
  | usage (failure : UsageFailure)
  deriving DecidableEq

structure Arguments where
  baseUrl : Option String
  skipUntyped : Bool
  lengths : List (Dimension × Float)
  input : Option String

def Arguments.none : Arguments :=
  ⟨.none, false, [], .none⟩

inductive Pending
  | value (flag : Flag) (given : Option String)
  | input (path : String)
  deriving DecidableEq

/-- A command line of which some words have been read. `awaiting` says that the next plain word is
the value of the pending flag, `closed` that a separator has been passed. -/
structure Reading where
  arguments : Arguments
  pending : Option Pending
  awaiting : Bool
  closed : Bool

def Reading.start : Reading :=
  ⟨.none, .none, false, false⟩

namespace Arguments

def setFlag (a : Arguments) : Flag → Except Refusal Arguments
  | .skipUntyped =>
    if a.skipUntyped then .error (.usage (.repeated .skipUntyped))
    else .ok { a with skipUntyped := true }
  | _ => .ok a

/-- Settles the value of a flag. That there is a value comes first, that the flag is new second. -/
def setValue (a : Arguments) (flag : Flag) (given : Option String) : Except Refusal Arguments :=
  match given with
  | .none => .error (.usage (.missingValue flag))
  | some text =>
    match flag with
    | .baseUrl =>
      if a.baseUrl.isSome then .error (.usage (.repeated flag))
      else .ok { a with baseUrl := some text }
    | .dimension d =>
      if (a.lengths.lookup d).isSome then .error (.usage (.repeated flag))
      else
        match readLength text with
        | .error failure => .error (.usage (.invalidLength text flag failure))
        | .ok length => .ok { a with lengths := (d, length) :: a.lengths }
    | _ => .ok a

def settle (a : Arguments) : Option Pending → Except Refusal Arguments
  | .none => .ok a
  | some (.value flag given) => a.setValue flag given
  | some (.input path) =>
    if path.isEmpty then .error (.usage .missingInput) else .ok { a with input := some path }

end Arguments

namespace Reading

def settled (r : Reading) : Except Refusal Reading :=
  match r.arguments.settle r.pending with
  | .error refusal => .error refusal
  | .ok arguments => .ok { r with arguments, pending := .none, awaiting := false }

def settledThen (r : Reading) (change : Arguments → Except Refusal Arguments) :
    Except Refusal Reading :=
  match r.settled with
  | .error refusal => .error refusal
  | .ok r =>
    match change r.arguments with
    | .error refusal => .error refusal
    | .ok arguments => .ok { r with arguments }

def settledBut (r : Reading) (pending : Pending) (awaiting : Bool) : Except Refusal Reading :=
  match r.settled with
  | .error refusal => .error refusal
  | .ok r => .ok { r with pending := some pending, awaiting }

def takeHelp (r : Reading) (scope : Scope) : Except Refusal Reading :=
  r.settledThen fun _ => .error (.help scope)

def takeLong (r : Reading) (scope : Scope) (name : String) (value : Option String) :
    Except Refusal Reading :=
  match scope.flag? name with
  | .none => .error (.usage (.unexpectedArgument ("--" ++ name)))
  | some flag =>
    match flag.takesValue, value with
    | true, some value => r.settledThen fun a => a.setValue flag (some value)
    | true, .none => r.settledBut (.value flag .none) true
    | false, some value => .error (.usage (.unexpectedValue value flag))
    | false, .none =>
      if flag = .help then r.takeHelp scope else r.settledThen fun a => a.setFlag flag

def takeShort (r : Reading) (scope : Scope) (letter : Char) : Except Refusal Reading :=
  if letter = 'h' then r.takeHelp scope
  else .error (.usage (.unexpectedArgument (String.ofList ['-', letter])))

def hasInput (r : Reading) : Bool :=
  r.arguments.input.isSome ||
    match r.pending with
    | some (.input _) => true
    | _ => false

def takePlace (r : Reading) (scope : Scope) (text : String) : Except Refusal Reading :=
  if scope = .general then .error (.usage (.unknownSubcommand text))
  else if scope.takesInput && !r.hasInput then r.settledBut (.input text) false
  else .error (.usage (.unexpectedArgument text))

def takePlain (r : Reading) (scope : Scope) (text : String) : Except Refusal Reading :=
  match r.awaiting, r.pending with
  | true, some (.value flag _) =>
    .ok { r with pending := some (.value flag (some text)), awaiting := false }
  | _, _ => r.takePlace scope text

def take (r : Reading) (scope : Scope) (word : String) : Except Refusal Reading :=
  if r.closed then r.takePlace scope word
  else
    match Word.ofString word with
    | .separator => .ok { r with closed := true }
    | .long name value => r.takeLong scope name value
    | .short letter => r.takeShort scope letter
    | .plain text => r.takePlain scope text

def takeAll (r : Reading) (scope : Scope) : List String → Except Refusal Reading
  | [] => .ok r
  | word :: words =>
    match r.take scope word with
    | .error refusal => .error refusal
    | .ok r => r.takeAll scope words

end Reading

def readBehind (c : Subcommand) (words : List String) : Except Refusal Arguments :=
  match Reading.start.takeAll (.behind c) words with
  | .error refusal => .error refusal
  | .ok r => r.arguments.settle r.pending

structure Invocation where
  baseUrl : Option String
  subcommand : Subcommand
  arguments : Arguments

def helpWord : String := "help"

def helpOn : List String → Refusal
  | [] => .help .general
  | word :: words =>
    if word = helpWord ∧ words = [] then .help .general
    else
      match Subcommand.ofName? word, words with
      | some c, [] => .help (.behind c)
      | some _, word :: _ => .usage (.unknownSubcommand word)
      | .none, _ => .usage (.unknownSubcommand word)

/-- A name of a subcommand behind the separator is refused as an argument. -/
def refusePlace (refusal : Refusal) (word : String) : Refusal :=
  if word = helpWord ∨ (Subcommand.ofName? word).isSome then .usage (.unexpectedArgument word)
  else refusal

/-- Reads up to the subcommand, and from there on. What is pending in front of the subcommand is
settled last. -/
def readGeneral (r : Reading) :
    List String → Except Refusal (Reading × Option (Subcommand × Arguments))
  | [] =>
    match r.settled with
    | .error refusal => .error refusal
    | .ok r => .ok (r, .none)
  | word :: words =>
    let next : Except Refusal (Reading × Option (Subcommand × Arguments)) :=
      match r.take .general word with
      | .error refusal => .error (if r.closed then refusePlace refusal word else refusal)
      | .ok r => readGeneral r words
    if r.closed || r.awaiting then next
    else if word = helpWord then .error (helpOn words)
    else
      match Subcommand.ofName? word with
      | .none => next
      | some c =>
        match readBehind c words with
        | .error refusal => .error refusal
        | .ok arguments =>
          match r.settled with
          | .error refusal => .error refusal
          | .ok r => .ok (r, some (c, arguments))

/-- Reads the words behind the program's name. A base URL set in the environment counts as an
argument when there is no other. -/
def interpret (environmentUrl : Option String) (words : List String) : Except Refusal Invocation :=
  match readGeneral .start words with
  | .error refusal => .error refusal
  | .ok (r, some (subcommand, arguments)) =>
    .ok { baseUrl := r.arguments.baseUrl.or environmentUrl, subcommand, arguments }
  | .ok (r, .none) =>
    if (r.arguments.baseUrl.or environmentUrl).isSome then .error (.usage .missingSubcommand)
    else .error (.usage .nothingGiven)

end SyntaxDrawing.CommandLine
