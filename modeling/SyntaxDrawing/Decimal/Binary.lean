import SyntaxDrawing.Decimal.Shortest

/-!
# Binary floating point numbers and their decimals

`Binary.ofFloat` takes a number apart by its bits. `Scaled.toFloat` is the nearest number to a
decimal; decimals of a magnitude outside the range are settled before any power of ten is formed.
-/

namespace SyntaxDrawing.Decimal

-- Powers mean those of the core library, whatever else is imported beside it.
attribute [local instance (high)] instPowNat

/-- A finite number is `± m · 2 ^ q`; `narrow` says that the next smaller one is half as far as the
next larger one. -/
inductive Binary
  | finite (negative : Bool) (m : Nat) (q : Int) (narrow : Bool)
  | infinite (negative : Bool)
  | notANumber
  deriving DecidableEq

def Binary.ofFloat (x : Float) : Binary :=
  let bits := x.toBits.toNat
  let negative := decide (2 ^ (63 : Nat) ≤ bits)
  let exponent : Nat := bits / 2 ^ (52 : Nat) % 2 ^ (11 : Nat)
  let fraction : Nat := bits % 2 ^ (52 : Nat)
  if exponent = 2 ^ (11 : Nat) - 1 then
    if fraction = 0 then .infinite negative else .notANumber
  else if exponent = 0 then .finite negative fraction (-1074) false
  else
    .finite negative (fraction + 2 ^ (52 : Nat)) ((exponent : Int) - 1075)
      (fraction = 0 && 1 < exponent)

def infinity : Float := Float.ofBits 0x7ff0000000000000

def notANumber : Float := Float.ofBits 0x7ff8000000000000

def isPositive (x : Float) : Bool :=
  x.isFinite && 0 < x

def digitCount (n : Nat) : Nat :=
  (Nat.toDigits 10 n).length

/-- The nearest `Float`; beyond the largest it is infinite, below half the least it is zero. -/
def Scaled.toFloat (d : Scaled) : Float :=
  if d.significand = 0 then 0
  else
    let magnitude := (digitCount d.significand : Int) + d.exponent
    if 310 < magnitude then infinity
    else if magnitude < -330 then 0
    else Float.ofScientific d.significand (d.exponent < 0) d.exponent.natAbs

def ofDigits (digits : List Nat) : Nat :=
  digits.foldl (fun n d => 10 * n + d) 0

end SyntaxDrawing.Decimal
