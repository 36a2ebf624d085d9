import SyntaxDrawing.CommandLine.Arguments

/-!
# Help

What a scope offers, one line each: its purpose, how it is called, its flags and subcommands.
-/

namespace SyntaxDrawing.CommandLine

def Subcommand.purpose : Subcommand → String
  | .ping => "Check that the server is up"
  | .parse => "Parse a source file on the server and print its syntax tree"
  | .graph => "Parse a source file on the server and print its positioned graph"
  | .layout => "Lay out a syntax tree JSON file locally, without a server"

def Flag.purpose : Flag → String
  | .baseUrl => "The server's address [env: ASTGRAPH_BASE_URL] [default: http://127.0.0.1:4000]"
  | .dimension .nodeWidth => "[default: 120]"
  | .dimension .nodeHeight => "[default: 40]"
  | .dimension .horizontalGap => "[default: 50]"
  | .dimension .verticalGap => "[default: 80]"
  | .skipUntyped => "Descend into untyped mappings without emitting nodes for them"
  | .help => "Print help"

def Scope.purpose : Scope → String
  | .general => programPurpose
  | .behind c => c.purpose

def Scope.usage (s : Scope) : String :=
  match s with
  | .general => "Usage: " ++ programName ++ " [OPTIONS] <COMMAND>"
  | .behind c =>
    "Usage: " ++ programName ++ " " ++ c.name ++ " [OPTIONS]" ++
      if s.takesInput then " " ++ inputText else ""

def Scope.help (s : Scope) : List String :=
  let flags := s.flags.map fun f => "  " ++ f.text ++ "  " ++ f.purpose
  let subcommands :=
    match s with
    | .general =>
      ["", "Commands:"] ++ Subcommand.all.map fun c => "  " ++ c.name ++ "  " ++ c.purpose
    | .behind _ => []
  [s.purpose, "", s.usage] ++ subcommands ++ ["", "Options:"] ++ flags

end SyntaxDrawing.CommandLine
