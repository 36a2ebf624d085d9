import SyntaxDrawing.Decimal.Text
import SyntaxDrawing.Graph.Build
import SyntaxDrawing.Layout.Geometry
import SyntaxDrawing.Text.Utf8

/-!
# Settings from the environment

Every setting has a default. Numbers that cannot be read or used are replaced by it; only an empty
parser command and an unknown policy are refused. `readLength` is how lengths are read where a bad
one is an error.
-/

namespace SyntaxDrawing

-- Powers mean those of the core library, whatever else is imported beside it.
attribute [local instance (high)] instPowNat

/-- How the external parser is called. The file's name is put behind the arguments. -/
structure ParserSettings where
  command : String
  args : List String
  fileSuffix : String
  timeoutMillis : Nat
  deriving DecidableEq

def ParserSettings.standard : ParserSettings :=
  { command := "stree", args := ["json"], fileSuffix := ".rb", timeoutMillis := 10 * 1000 }

structure Settings where
  port : Nat
  parser : ParserSettings
  geometry : Layout.Geometry Float
  policy : Policy

def Settings.standard : Settings :=
  { port := 4000, parser := .standard, geometry := .standard, policy := .emit }

inductive SettingsFailure
  | unknownPolicy (name : String)
  | emptyParserCommand
  deriving DecidableEq

def SettingsFailure.message : SettingsFailure → String
  | .unknownPolicy name =>
    "unsupported GRAPH_UNTYPED_MAPPINGS '" ++ name ++ "' (expected 'emit' or 'skip')"
  | .emptyParserCommand => "PARSER_COMMAND must not be empty"

/-- The bytes of each variable that is set. -/
abbrev Environment : Type :=
  String → Option (List UInt8)

/-- A variable's text. Bytes that are not UTF-8 count as if the variable were not set. -/
def Environment.text? (env : Environment) (name : String) : Option String :=
  (env name).bind Text.Utf8.decode?

inductive LengthFailure
  | unreadable (fault : Decimal.FloatFault)
  | notPositive (text : String)
  deriving DecidableEq

def LengthFailure.message : LengthFailure → String
  | .unreadable fault => fault.message
  | .notPositive text => "expected a finite number greater than zero, got " ++ text

/-- Reads a length between blanks: a finite number greater than zero. -/
def readLength (text : String) : Except LengthFailure Float :=
  match Decimal.readFloat (Text.trim text) with
  | .error fault => .error (.unreadable fault)
  | .ok x => if Decimal.isPositive x then .ok x else .error (.notPositive text)

namespace Settings

def naturalOf (env : Environment) (name : String) (bound default : Nat) : Nat :=
  match env.text? name with
  | none => default
  | some text => (Decimal.readNatural bound (Text.trim text)).getD default

def numberOf (env : Environment) (name : String) (default : Float) : Float :=
  match env.text? name with
  | none => default
  | some text =>
    match Decimal.readFloat (Text.trim text) with
    | .ok x => x
    | .error _ => default

def lengthOf (env : Environment) (name : String) (default : Float) : Float :=
  let x := numberOf env name default
  if Decimal.isPositive x then x else default

def parserOf (env : Environment) (command : String) : ParserSettings :=
  let standard := ParserSettings.standard
  { command
    args := ((env.text? "PARSER_ARGS").map Text.words).getD standard.args
    fileSuffix := (env.text? "PARSER_FILE_SUFFIX").getD standard.fileSuffix
    timeoutMillis :=
      1000 * naturalOf env "PARSER_TIMEOUT_SECS" (2 ^ (64 : Nat)) (standard.timeoutMillis / 1000) }

def geometryOf (env : Environment) : Layout.Geometry Float :=
  let standard : Layout.Geometry Float := .standard
  { nodeWidth := lengthOf env "LAYOUT_NODE_WIDTH" standard.nodeWidth
    nodeHeight := lengthOf env "LAYOUT_NODE_HEIGHT" standard.nodeHeight
    horizontalGap := lengthOf env "LAYOUT_HORIZONTAL_GAP" standard.horizontalGap
    verticalGap := lengthOf env "LAYOUT_VERTICAL_GAP" standard.verticalGap
    originX := standard.originX }

def ofEnvironment (env : Environment) : Except SettingsFailure Settings :=
  let command := (env.text? "PARSER_COMMAND").getD ParserSettings.standard.command
  if Text.isAllBlank command then .error .emptyParserCommand
  else
    let name := (env.text? "GRAPH_UNTYPED_MAPPINGS").getD Policy.emit.name
    match Policy.ofName? name with
    | none => .error (.unknownPolicy name)
    | some policy =>
      .ok
        { port := naturalOf env "PORT" (2 ^ (16 : Nat)) standard.port
          parser := parserOf env command
          geometry := geometryOf env
          policy }

end Settings

end SyntaxDrawing
