import SyntaxDrawing.Graph.Basic
import Std.Data.TreeMap.Basic

/-!
# From a tree to a graph

The tree is walked depth first. Each composite value becomes a node, unless it is an untyped
mapping and the policy skips those; its edge comes from the nearest enclosing value that became
one. Scalars become no nodes of their own, except when the whole tree is one.
-/

namespace SyntaxDrawing

/-- Whether a mapping becomes a node or leaves its children to what encloses it. -/
inductive Policy
  | emit
  | skip
  deriving DecidableEq

def Policy.name : Policy → String
  | .emit => "emit"
  | .skip => "skip"

def Policy.ofName? : String → Option Policy
  | "emit" => some .emit
  | "skip" => some .skip
  | _ => none

def unnamedTag : String := "unnamed"

def sequenceLabel : String := "[...]"

namespace Tree

def tag (t : Tree) : String :=
  t.kind?.getD unnamedTag

def mappingLabel (fields : List (String × Tree)) : String :=
  if fields.isEmpty then "\x7b\x7d"
  else String.intercalate ", " (fields.map fun field => field.1 ++ ": " ++ field.2.toJson.compact)

def label : Tree → String
  | scalar s => s.text
  | sequence _ => sequenceLabel
  | node kind span fields =>
    match (node kind span fields).stringValue? with
    | some text => kind ++ ": \"" ++ text ++ "\""
    | none => kind
  | mapping fields => mappingLabel fields

end Tree

/-- A graph in the making, with the number of nodes of each tag so far. -/
structure Draft (α : Type) where
  counts : Std.TreeMap String Nat
  nodes : Array (Node α)
  edges : Array Edge

namespace Draft

variable {α : Type}

def empty : Draft α :=
  ⟨∅, #[], #[]⟩

def next (d : Draft α) (tag : String) : Nat :=
  d.counts.getD tag 0 + 1

def idOf (tag : String) (n : Nat) : String :=
  tag ++ "_" ++ Nat.repr n

def emit [Coordinate α] (d : Draft α) (parent : Option String) (t : Tree) : String × Draft α :=
  let n := d.next t.tag
  let id := idOf t.tag n
  (id,
    { counts := d.counts.insert t.tag n
      nodes := d.nodes.push (.ofSource id t.label t)
      edges :=
        match parent with
        | none => d.edges
        | some p => d.edges.push (.between p id) })

mutual
def visit [Coordinate α] (policy : Policy) (parent : Option String) (d : Draft α) : Tree → Draft α
  | .scalar s => (d.emit parent (.scalar s)).2
  | .sequence items =>
    let (id, d) := d.emit parent (.sequence items)
    visitItems policy (some id) d items
  | .node kind span fields =>
    let (id, d) := d.emit parent (.node kind span fields)
    visitFields policy (some id) d fields
  | .mapping fields =>
    match policy with
    | .emit =>
      let (id, d) := d.emit parent (.mapping fields)
      visitFields policy (some id) d fields
    | .skip => visitFields policy parent d fields

def visitItems [Coordinate α] (policy : Policy) (parent : Option String) (d : Draft α) :
    List Tree → Draft α
  | [] => d
  | t :: rest =>
    visitItems policy parent (if t.isComposite then visit policy parent d t else d) rest

def visitFields [Coordinate α] (policy : Policy) (parent : Option String) (d : Draft α) :
    List (String × Tree) → Draft α
  | [] => d
  | (_, t) :: rest =>
    visitFields policy parent (if t.isComposite then visit policy parent d t else d) rest
end

def graph (d : Draft α) : Graph α :=
  ⟨d.nodes.toList, d.edges.toList⟩

end Draft

namespace Graph

variable {α : Type} [Coordinate α]

/-- The graph of a tree. Numbers start afresh for every graph. -/
def build (policy : Policy) (t : Tree) : Graph α :=
  (Draft.visit policy none .empty t).graph

/-- The graph of a tree with an edge from `parent` to whatever has no parent in it. -/
def buildUnder (policy : Policy) (parent : String) (t : Tree) : Graph α :=
  (Draft.visit policy (some parent) .empty t).graph

end Graph

end SyntaxDrawing
