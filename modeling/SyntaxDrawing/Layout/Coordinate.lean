/-!
# Coordinates

The layout is written for any type with the operations below and asks no laws of them, so that the
drawing that is computed and the drawing that is reasoned about come from the same definitions.
-/

namespace SyntaxDrawing

/-- Numbers that serve as lengths and coordinates. `emptySum` is what the sum of a row starts from,
and `larger a b` is `b` unless `a` exceeds it. -/
class Coordinate (α : Type) extends Add α, Sub α, Mul α, Div α where
  ofCount : Nat → α
  emptySum : α
  larger : α → α → α

/-- Sums start from `-0.0`, to which nothing adds but itself. What is not a number is never the
larger, and of two zeros the second is. -/
instance : Coordinate Float where
  ofCount := Float.ofNat
  emptySum := -0.0
  larger a b := if b.isNaN || b < a then a else b

end SyntaxDrawing
