import SyntaxDrawing.CommandLine.Execution

/-!
# The program

Reads what the command line names, runs it and exits with its status. Requests need a transport,
and none is built in: they stay unanswered.
-/

namespace SyntaxDrawing

def reasonOf : IO.Error → String
  | .noFileOrDirectory _ code details => details ++ " (os error " ++ toString code ++ ")"
  | .permissionDenied _ code details => details ++ " (os error " ++ toString code ++ ")"
  | .inappropriateType _ code details => details ++ " (os error " ++ toString code ++ ")"
  | fault => toString fault

def readInput (path : String) : IO (Except String (List UInt8)) := do
  try
    let bytes ←
      if path = CommandLine.standardInput then (← IO.getStdin).readBinToEnd
      else IO.FS.readBinFile path
    return .ok bytes.toList
  catch fault => return .error (reasonOf fault)

def report (outcome : CommandLine.Outcome) : IO UInt32 := do
  match outcome with
  | .printed text => IO.print text
  | .failed failure => IO.eprintln ("Error: " ++ failure.message)
  | .refused failure => IO.eprintln failure.message
  return UInt32.ofNat outcome.status

end SyntaxDrawing

open SyntaxDrawing CommandLine in
def main (words : List String) : IO UInt32 := do
  match interpret (← IO.getEnv "ASTGRAPH_BASE_URL") words with
  | .error refusal => report (.ofRefusal refusal)
  | .ok i =>
    let contents ← if i.subcommand = .ping then pure (.ok []) else readInput i.input
    report (.ofResult (i.run contents fun _ _ => none))
