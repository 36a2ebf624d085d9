import SyntaxDrawing.Layout.Geometry

/-!
# Laying out a graph

A layout needs exactly one node that is the target of no edge. Otherwise it says what is wrong and
moves nothing; with it, every node that the walk from this root reaches is moved and no other.
-/

namespace SyntaxDrawing.Layout

inductive LayoutFailure
  | empty
  | noRoot
  | manyRoots (count : Nat)
  deriving DecidableEq

def LayoutFailure.message : LayoutFailure → String
  | .empty => "no nodes to lay out"
  | .noRoot => "every node has an incoming edge"
  | .manyRoots count => Nat.repr count ++ " nodes have no incoming edge"

/-- What a layout has drawn: its root, the number of nodes moved, the deepest level and the
width. -/
structure Summary (α : Type) where
  root : String
  nodeCount : Nat
  depth : Nat
  width : α

def soleRoot {n : Nat} (links : List (Link n)) : Except LayoutFailure (Fin n) :=
  if n = 0 then .error .empty
  else
    match roots links with
    | [] => .error .noRoot
    | [root] => .ok root
    | many => .error (.manyRoots many.length)

/-- The tree that a layout draws: the root and the visits of the walk from it. -/
structure SpanningTree (n : Nat) where
  root : Fin n
  visits : List (Visit n)

/-- The tree that the edges between nodes with these ids span from the only root. -/
def spanningTree {n : Nat} (ids : Vector String n) (edges : List Edge) :
    Except LayoutFailure (SpanningTree n) :=
  let links := resolve ids edges
  match soleRoot links with
  | .error f => .error f
  | .ok root =>
    let table := childTable links
    .ok ⟨root, visits table.get root⟩

section

variable {α : Type} [Coordinate α]

def nodeIds (nodes : List (Node α)) : Vector String nodes.length :=
  ⟨(nodes.map Node.id).toArray, by simp⟩

/-- Lays out the nodes; returns a summary and the nodes in their places. -/
def arrange (g : Geometry α) (nodes : List (Node α)) (edges : List Edge) :
    Except LayoutFailure (Summary α × List (Node α)) :=
  let ids := nodeIds nodes
  match spanningTree ids edges with
  | .error f => .error f
  | .ok tree =>
    let widths := subtreeWidths g tree.visits
    let placed := positions g (centres g widths tree.visits) tree.visits
    let summary : Summary α :=
      { root := ids.get tree.root
        nodeCount := tree.visits.length
        depth := tree.visits.foldl (fun deepest v => max deepest v.depth) 0
        width := widths.get tree.root }
    .ok (summary, List.zipWith (fun node place => place.elim node node.moveTo) nodes placed.toList)

/-- The nodes in their places, or as they are where no layout is possible. -/
def layout (g : Geometry α) (nodes : List (Node α)) (edges : List Edge) : List (Node α) :=
  match arrange g nodes edges with
  | .ok (_, placed) => placed
  | .error _ => nodes

end

end SyntaxDrawing.Layout
