import SyntaxDrawing.Graph.Build
import SyntaxDrawing.Layout.Basic

/-!
# Drawing a tree

A drawing is the graph of a tree with its nodes laid out. A graph without a single root is drawn
with all its nodes at the origin.
-/

namespace SyntaxDrawing

variable {α : Type} [Coordinate α]

def Graph.layout (g : Layout.Geometry α) (graph : Graph α) : Graph α :=
  { graph with nodes := Layout.layout g graph.nodes graph.edges }

def draw (policy : Policy) (g : Layout.Geometry α) (t : Tree) : Graph α :=
  (Graph.build policy t).layout g

def drawJson (policy : Policy) (g : Layout.Geometry α) (document : Json.Value) : Graph α :=
  draw policy g (Tree.ofJson document)

end SyntaxDrawing
