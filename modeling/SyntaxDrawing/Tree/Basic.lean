import SyntaxDrawing.Json.Printer

/-!
# Syntax trees

A syntax tree is a typed view of a JSON document. An object whose `type` is a string is a node of
that kind; every other object is a mapping. A node's `location`, if it is a list of four line and
column numbers, is its span. Kind and span are no fields of a node.
-/

namespace SyntaxDrawing

inductive Scalar
  | null
  | bool (b : Bool)
  | number (n : Json.Number)
  | string (s : String)

/-- The text of a scalar; a string stands for itself, without quotes. -/
def Scalar.text : Scalar → String
  | .null => "null"
  | .bool b => if b then "true" else "false"
  | .number n => n.text
  | .string s => s

def Scalar.same : Scalar → Scalar → Bool
  | .null, .null => true
  | .bool a, .bool b => a == b
  | .number m, .number n => m.same n
  | .string s, .string t => s == t
  | _, _ => false

structure Span where
  startLine : Nat
  startColumn : Nat
  endLine : Nat
  endColumn : Nat
  deriving DecidableEq

def Span.numbers (s : Span) : List Nat :=
  [s.startLine, s.startColumn, s.endLine, s.endColumn]

inductive Tree
  | scalar (s : Scalar)
  | sequence (items : List Tree)
  | node (kind : String) (span : Option Span) (fields : List (String × Tree))
  | mapping (fields : List (String × Tree))

instance : Inhabited Tree := ⟨.scalar .null⟩

namespace Tree

def isComposite : Tree → Bool
  | scalar _ => false
  | _ => true

def isMapping : Tree → Bool
  | mapping _ => true
  | _ => false

def kind? : Tree → Option String
  | node kind _ _ => some kind
  | _ => none

def span? : Tree → Option Span
  | node _ span _ => span
  | _ => none

def children : Tree → List Tree
  | scalar _ => []
  | sequence items => items
  | node _ _ fields => fields.map (·.2)
  | mapping fields => fields.map (·.2)

def valueField : String := "value"

def stringValue? : Tree → Option String
  | node _ _ fields =>
    match Json.lookup? valueField fields with
    | some (scalar (.string s)) => some s
    | _ => none
  | _ => none

mutual
/-- Equality of trees, with numbers compared by value. -/
def same : Tree → Tree → Bool
  | scalar s, scalar t => s.same t
  | sequence items, sequence items' => sameItems items items'
  | node kind span fields, node kind' span' fields' =>
    kind == kind' && span == span' && sameFields fields fields'
  | mapping fields, mapping fields' => sameFields fields fields'
  | _, _ => false

def sameItems : List Tree → List Tree → Bool
  | [], [] => true
  | t :: rest, t' :: rest' => t.same t' && sameItems rest rest'
  | _, _ => false

def sameFields : List (String × Tree) → List (String × Tree) → Bool
  | [], [] => true
  | (key, t) :: rest, (key', t') :: rest' => key == key' && t.same t' && sameFields rest rest'
  | _, _ => false
end

end Tree

end SyntaxDrawing
