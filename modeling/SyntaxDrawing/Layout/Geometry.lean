import SyntaxDrawing.Layout.Walk

/-!
# Widths and centres

Two passes over the visits of a walk. Backwards, every subtree claims the larger of a node's width
and the row of its children; forwards, every row is centred below its parent and its members stand
side by side, each in the middle of the width it claimed.
-/

namespace SyntaxDrawing.Layout

/-- Box sizes, the gaps between neighbouring subtrees and between levels, and the root's centre. -/
structure Geometry (α : Type) where
  nodeWidth : α
  nodeHeight : α
  horizontalGap : α
  verticalGap : α
  originX : α

section

variable {α : Type} [Coordinate α]

open Coordinate

def Geometry.standard : Geometry α :=
  { nodeWidth := ofCount 120
    nodeHeight := ofCount 40
    horizontalGap := ofCount 50
    verticalGap := ofCount 80
    originX := ofCount 0 }

def Geometry.levelHeight (g : Geometry α) : α :=
  g.nodeHeight + g.verticalGap

/-- The widths of a row from left to right, and then the gaps between them. -/
def rowWidth (gap : α) (widths : List α) : α :=
  widths.foldl (· + ·) emptySum + ofCount (widths.length - 1) * gap

variable {n : Nat}

def widen (g : Geometry α) (v : Visit n) (widths : Vector α n) : Vector α n :=
  if v.kept.isEmpty then widths
  else
    put widths v.node (larger g.nodeWidth (rowWidth g.horizontalGap (v.kept.map widths.get)))

/-- The widths of all subtrees. What the walk does not visit has the width of a node. -/
def subtreeWidths (g : Geometry α) (visits : List (Visit n)) : Vector α n :=
  visits.foldr (widen g) (Vector.replicate n g.nodeWidth)

def placeRow (g : Geometry α) (widths : Vector α n) (left : α) (centres : Vector α n) :
    List (Fin n) → Vector α n
  | [] => centres
  | c :: rest =>
    placeRow g widths (left + (widths.get c + g.horizontalGap))
      (put centres c (left + widths.get c / ofCount 2)) rest

def placeChildren (g : Geometry α) (widths : Vector α n) (centres : Vector α n) (v : Visit n) :
    Vector α n :=
  let row := rowWidth g.horizontalGap (v.kept.map widths.get)
  placeRow g widths (centres.get v.node - row / ofCount 2) centres v.kept

/-- The centres of all nodes. What is not below the root stands at its place. -/
def centres (g : Geometry α) (widths : Vector α n) (visits : List (Visit n)) : Vector α n :=
  visits.foldl (placeChildren g widths) (Vector.replicate n g.originX)

def positions (g : Geometry α) (centres : Vector α n) (visits : List (Visit n)) :
    Vector (Option (Position α)) n :=
  visits.foldl
    (fun placed v =>
      put placed v.node (some ⟨centres.get v.node, ofCount v.depth * g.levelHeight⟩))
    (Vector.replicate n none)

end

end SyntaxDrawing.Layout
