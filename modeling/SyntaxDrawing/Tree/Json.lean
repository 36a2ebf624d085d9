import SyntaxDrawing.Tree.Basic

/-!
# Syntax trees and JSON documents

`Tree.ofJson` never fails. `Tree.toJson` writes a node's kind first, then its span, then its
fields, and everything else where it stood.
-/

namespace SyntaxDrawing

open Json (Value)

-- Powers mean those of the core library, whatever else is imported beside it.
attribute [local instance (high)] instPowNat

def kindKey : String := "type"

def spanKey : String := "location"

/-- A line or column number: an integer of 64 bits that is not negative. -/
def coordinate? : Value → Option Nat
  | .number (.integer i) => if 0 ≤ i ∧ i < 2 ^ (64 : Nat) then some i.toNat else none
  | _ => none

def Span.ofJson? : Value → Option Span
  | .array [a, b, c, d] =>
    match coordinate? a, coordinate? b, coordinate? c, coordinate? d with
    | some a, some b, some c, some d => some ⟨a, b, c, d⟩
    | _, _, _, _ => none
  | _ => none

def Span.toJson (s : Span) : Value :=
  .array (s.numbers.map fun (n : Nat) => .number (.integer n))

/-- The kind of an object: its `type`, if that is a string. -/
def kindOf? (fields : List (String × Value)) : Option String :=
  match Json.lookup? kindKey fields with
  | some (.string kind) => some kind
  | _ => none

/-- The span of an object: its `location`, if that is well formed. -/
def spanOf? (fields : List (String × Value)) : Option Span :=
  (Json.lookup? spanKey fields).bind Span.ofJson?

/-- Whether a key of a node stays a field: a well-formed span and the kind do not. -/
def isField (hasSpan : Bool) (key : String) : Bool :=
  key != kindKey && !(hasSpan && key == spanKey)

namespace Tree

mutual
def ofJson : Value → Tree
  | .null => scalar .null
  | .bool b => scalar (.bool b)
  | .number n => scalar (.number n)
  | .string s => scalar (.string s)
  | .array items => sequence (ofItems items)
  | .object fields =>
    match kindOf? fields with
    | none => mapping (ofFields fields)
    | some kind =>
      let span := spanOf? fields
      node kind span ((ofFields fields).filter fun field => isField span.isSome field.1)

def ofItems : List Value → List Tree
  | [] => []
  | item :: rest => ofJson item :: ofItems rest

def ofFields : List (String × Value) → List (String × Tree)
  | [] => []
  | (key, value) :: rest => (key, ofJson value) :: ofFields rest
end

theorem ofItems_eq_map (items : List Value) : ofItems items = items.map ofJson := by
  induction items with
  | nil => rfl
  | cons item rest ih => simp [ofItems, ih]

theorem ofFields_eq_map (fields : List (String × Value)) :
    ofFields fields = fields.map fun field => (field.1, ofJson field.2) := by
  induction fields with
  | nil => rfl
  | cons field rest ih => simp [ofFields, ih]

end Tree

def Scalar.toJson : Scalar → Value
  | .null => .null
  | .bool b => .bool b
  | .number n => .number n
  | .string s => .string s

def liftedMembers (kind : String) (span : Option Span) : List (String × Value) :=
  (kindKey, .string kind) :: (span.map fun s => (spanKey, s.toJson)).toList

namespace Tree

mutual
def toJson : Tree → Value
  | scalar s => s.toJson
  | sequence items => .array (toItems items)
  | node kind span fields => .object (Json.collect (liftedMembers kind span ++ toFields fields))
  | mapping fields => .object (Json.collect (toFields fields))

def toItems : List Tree → List Value
  | [] => []
  | item :: rest => item.toJson :: toItems rest

def toFields : List (String × Tree) → List (String × Value)
  | [] => []
  | (key, tree) :: rest => (key, tree.toJson) :: toFields rest
end

theorem toItems_eq_map (items : List Tree) : toItems items = items.map toJson := by
  induction items with
  | nil => rfl
  | cons item rest ih => simp [toItems, ih]

theorem toFields_eq_map (fields : List (String × Tree)) :
    toFields fields = fields.map fun field => (field.1, field.2.toJson) := by
  induction fields with
  | nil => rfl
  | cons field rest ih => simp [toFields, ih]

end Tree

end SyntaxDrawing
