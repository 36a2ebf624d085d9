import SyntaxDrawing.Json.Nesting
import SyntaxDrawing.Json.Reader

/-!
# Documents of bounded depth

A document is measured before it is read. One that nests deeper than `levelLimit` is refused for
that, whatever else may be wrong with it.
-/

namespace SyntaxDrawing

def levelLimit : Nat := 512

inductive DocumentFailure
  | tooDeep (depth : Nat)
  | malformed (failure : Json.Failure)
  deriving DecidableEq

def DocumentFailure.message : DocumentFailure → String
  | .tooDeep depth =>
    "tree nests " ++ Nat.repr depth ++ " levels deep (limit " ++ Nat.repr levelLimit ++ ")"
  | .malformed failure => "invalid JSON: " ++ failure.message

def readDocument (text : List UInt8) : Except DocumentFailure Json.Value :=
  let depth := Json.nestingDepth text
  if levelLimit < depth then .error (.tooDeep depth)
  else
    match Json.read text with
    | .error failure => .error (.malformed failure)
    | .ok v => .ok v

end SyntaxDrawing
