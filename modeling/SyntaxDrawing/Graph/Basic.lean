import SyntaxDrawing.Layout.Coordinate
import SyntaxDrawing.Tree.Json

/-!
# Graphs of labelled nodes

A graph is a list of nodes and a list of edges. Edges name their ends and may name what is no node.
A node keeps the tree it was made from, whose span leads back to the source text.
-/

namespace SyntaxDrawing

open Json (Value)

structure Position (α : Type) where
  x : α
  y : α

def Position.origin {α : Type} [Coordinate α] : Position α :=
  ⟨Coordinate.ofCount 0, Coordinate.ofCount 0⟩

structure Node (α : Type) where
  id : String
  label : String
  position : Position α
  span : Option Span
  source : Tree

def Node.ofSource {α : Type} [Coordinate α] (id label : String) (source : Tree) : Node α :=
  ⟨id, label, .origin, source.span?, source⟩

def Node.moveTo {α : Type} (n : Node α) (p : Position α) : Node α :=
  { n with position := p }

structure Edge where
  id : String
  source : String
  target : String
  deriving DecidableEq

def Edge.between (source target : String) : Edge :=
  ⟨source ++ "->" ++ target, source, target⟩

structure Graph (α : Type) where
  nodes : List (Node α)
  edges : List Edge

def Graph.empty {α : Type} : Graph α :=
  ⟨[], []⟩

def Position.toJson (p : Position Float) : Value :=
  .object [("x", .number (.real p.x)), ("y", .number (.real p.y))]

/-- A node without its source; the span is left out where there is none. -/
def Node.toJson (n : Node Float) : Value :=
  .object ([("id", .string n.id), ("kind", .string n.label), ("position", n.position.toJson)] ++
    (n.span.map fun s => (spanKey, s.toJson)).toList)

def Edge.toJson (e : Edge) : Value :=
  .object [("id", .string e.id), ("source", .string e.source), ("target", .string e.target)]

def Graph.toJson (g : Graph Float) : Value :=
  .object [("nodes", .array (g.nodes.map Node.toJson)), ("edges", .array (g.edges.map Edge.toJson))]

end SyntaxDrawing
