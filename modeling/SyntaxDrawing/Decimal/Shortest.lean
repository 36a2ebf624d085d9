/-!
# The shortest decimal form of a binary fraction

A positive binary fraction `m · 2 ^ q` stands for every number that rounds to it: those between the
midpoints to its two neighbours, the midpoints included when `m` is even. Among the decimals in that
range `shortest` finds one with the fewest digits and, of those, the nearest to the fraction. Ten to
a power divides the line into a grid; a grid has a point in the range only if one of the two grid
points around the fraction lies in it, so it is enough to look at these two, on grids of one to
seventeen digits.
-/

namespace SyntaxDrawing.Decimal

-- Powers mean those of the core library, whatever else is imported beside it.
attribute [local instance (high)] instPowNat

/-- The number `significand · 10 ^ exponent`. -/
structure Scaled where
  significand : Nat
  exponent : Int
  deriving DecidableEq

/-- A number `numerator / denominator` and the bounds of the range that rounds to it, over the same
denominator. -/
structure Range where
  numerator : Nat
  low : Nat
  high : Nat
  denominator : Nat
  closed : Bool

/-- The range of `m · 2 ^ q`. The gap below is half as wide when `m` is the least significand of its
binade, as `narrow` says. -/
def Range.ofBinary (m : Nat) (q : Int) (narrow : Bool) : Range :=
  let scale := 2 ^ q.toNat
  { numerator := 4 * m * scale
    low := (4 * m - (if narrow then 1 else 2)) * scale
    high := (4 * m + 2) * scale
    denominator := 4 * 2 ^ (-q).toNat
    closed := m % 2 == 0 }

def Range.contains (r : Range) (point : Nat) (exponent : Int) : Bool :=
  let value := point * 10 ^ exponent.toNat * r.denominator
  let unit := 10 ^ (-exponent).toNat
  if r.closed then r.low * unit ≤ value && value ≤ r.high * unit
  else r.low * unit < value && value < r.high * unit

def Range.floorAt (r : Range) (exponent : Int) : Nat :=
  r.numerator * 10 ^ (-exponent).toNat / (r.denominator * 10 ^ exponent.toNat)

/-- Twice the distance past the middle between the grid points `point` and `point + 1`, signed. -/
def Range.pastMiddle (r : Range) (point : Nat) (exponent : Int) : Int :=
  (2 * r.numerator * 10 ^ (-exponent).toNat : Nat) -
    ((2 * point + 1) * r.denominator * 10 ^ exponent.toNat : Nat)

/-- The grid point in the range that is nearest to the number; a tie goes to the even one. -/
def Range.onGrid (r : Range) (exponent : Int) : Option Nat :=
  let below := r.floorAt exponent
  match r.contains below exponent, r.contains (below + 1) exponent with
  | false, false => none
  | true, false => some below
  | false, true => some (below + 1)
  | true, true =>
    let past := r.pastMiddle below exponent
    if past < 0 || (past == 0 && below % 2 == 0) then some below else some (below + 1)

/-- The exponent of the leading digit, found from the binary logarithm and corrected by one. -/
def Range.leading (r : Range) : Int :=
  let binary : Int := (Nat.log2 r.numerator : Int) - (Nat.log2 r.denominator : Int)
  let guess := binary * 30103 / 100000 - 1
  let reaches (e : Int) : Bool :=
    r.denominator * 10 ^ e.toNat ≤ r.numerator * 10 ^ (-e).toNat
  if reaches (guess + 2) then guess + 2 else if reaches (guess + 1) then guess + 1 else guess

/-- Tries grids of growing fineness; on the last one the lower neighbour is taken as it is. -/
def Range.search (r : Range) : (grids : Nat) → (exponent : Int) → Scaled
  | 0, exponent => ⟨r.floorAt exponent, exponent⟩
  | grids + 1, exponent =>
    match r.onGrid exponent with
    | some point => ⟨point, exponent⟩
    | none => r.search grids (exponent - 1)

/-- The decimal with the fewest digits that rounds to `m · 2 ^ q`, for `0 < m`. -/
def shortest (m : Nat) (q : Int) (narrow : Bool) : Scaled :=
  let r := Range.ofBinary m q narrow
  r.search 17 r.leading

end SyntaxDrawing.Decimal
