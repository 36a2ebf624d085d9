import SyntaxDrawing.Layout.Geometry
import SyntaxDrawing.Settings

/-!
# Flags of the command line

A flag takes one value or none. Which flags there are, and whether a file may be named, depends on
where on the command line one stands.
-/

namespace SyntaxDrawing.CommandLine

inductive Dimension
  | nodeWidth
  | nodeHeight
  | horizontalGap
  | verticalGap
  deriving DecidableEq

inductive Flag
  | baseUrl
  | dimension (d : Dimension)
  | skipUntyped
  | help
  deriving DecidableEq

def Flag.name : Flag → String
  | .baseUrl => "base-url"
  | .dimension .nodeWidth => "node-width"
  | .dimension .nodeHeight => "node-height"
  | .dimension .horizontalGap => "horizontal-gap"
  | .dimension .verticalGap => "vertical-gap"
  | .skipUntyped => "skip-untyped"
  | .help => "help"

def Flag.takesValue : Flag → Bool
  | .baseUrl | .dimension _ => true
  | .skipUntyped | .help => false

/-- The word that stands for the value of a flag: its name in capitals. -/
def Flag.placeholder (f : Flag) : String :=
  String.ofList (f.name.toList.map fun c => if c == '-' then '_' else c.toUpper)

def Flag.text (f : Flag) : String :=
  "--" ++ f.name ++ if f.takesValue then " <" ++ f.placeholder ++ ">" else ""

inductive Subcommand
  | ping
  | parse
  | graph
  | layout
  deriving DecidableEq

def Subcommand.name : Subcommand → String
  | .ping => "ping"
  | .parse => "parse"
  | .graph => "graph"
  | .layout => "layout"

def Subcommand.all : List Subcommand :=
  [.ping, .parse, .graph, .layout]

def Subcommand.ofName? (name : String) : Option Subcommand :=
  all.find? fun c => c.name == name

/-- Where on the command line one stands: in front of the subcommand, or behind it. -/
inductive Scope
  | general
  | behind (c : Subcommand)
  deriving DecidableEq

def Scope.flags : Scope → List Flag
  | .general => [.baseUrl, .help]
  | .behind .layout =>
    [.skipUntyped, .dimension .nodeWidth, .dimension .nodeHeight, .dimension .horizontalGap,
      .dimension .verticalGap, .help]
  | .behind _ => [.help]

def Scope.flag? (s : Scope) (name : String) : Option Flag :=
  s.flags.find? fun f => f.name == name

def Scope.takesInput : Scope → Bool
  | .general | .behind .ping => false
  | .behind _ => true

def Dimension.assign (d : Dimension) (length : Float) (g : Layout.Geometry Float) :
    Layout.Geometry Float :=
  match d with
  | .nodeWidth => { g with nodeWidth := length }
  | .nodeHeight => { g with nodeHeight := length }
  | .horizontalGap => { g with horizontalGap := length }
  | .verticalGap => { g with verticalGap := length }

end SyntaxDrawing.CommandLine
