import SyntaxDrawing.Decimal.Binary
import SyntaxDrawing.Text.Blank

/-!
# Texts of numbers

`floatText` writes the shortest decimal that reads back, positional or with an exponent as
`Positional` says. `readFloat` and `readNatural` read the texts that users give for numbers.
-/

namespace SyntaxDrawing.Decimal

/-- The exponents of the leading digit for which a number is written without an exponent. -/
structure Positional where
  least : Int
  greatest : Int

def positional : Positional := ⟨-5, 15⟩

def integerText (i : Int) : String :=
  if i < 0 then "-" ++ Nat.repr i.natAbs else Nat.repr i.natAbs

def Scaled.leadingForm (d : Scaled) : List Char × Int :=
  let digits := Nat.toDigits 10 d.significand
  ((digits.reverse.dropWhile (· == '0')).reverse, digits.length - 1 + d.exponent)

def pointAfter (places : Nat) (digits : List Char) : List Char :=
  let whole := digits.take (places + 1)
  let fraction := digits.drop (places + 1)
  whole ++ List.replicate (places + 1 - whole.length) '0' ++ '.' ::
    (if fraction.isEmpty then ['0'] else fraction)

/-- The text of `0.ddd` or `ddd.ddd` or `d.ddde±x` with these digits. -/
def Positional.write (p : Positional) (digits : List Char) (leading : Int) : List Char :=
  if leading < p.least || p.greatest < leading then
    let fraction := digits.drop 1
    digits.take 1 ++ (if fraction.isEmpty then [] else '.' :: fraction) ++ 'e' ::
      (if leading < 0 then '-' else '+') :: Nat.toDigits 10 leading.natAbs
  else if leading < 0 then '0' :: '.' :: List.replicate (leading.natAbs - 1) '0' ++ digits
  else pointAfter leading.natAbs digits

/-- The shortest text that reads back as the number; none for what is not finite. -/
def floatText? (x : Float) : Option String :=
  match Binary.ofFloat x with
  | .finite negative m q narrow =>
    let sign := if negative then ['-'] else []
    let body :=
      if m = 0 then ['0', '.', '0']
      else
        let (digits, leading) := (shortest m q narrow).leadingForm
        positional.write digits leading
    some (String.ofList (sign ++ body))
  | _ => none

inductive FloatFault
  | empty
  | malformed
  deriving DecidableEq

def FloatFault.message : FloatFault → String
  | .empty => "cannot parse float from empty string"
  | .malformed => "invalid float literal"

def digitValue (c : Char) : Nat :=
  c.toNat - '0'.toNat

def spanDigits (cs : List Char) : List Nat × List Char :=
  ((cs.takeWhile Char.isDigit).map digitValue, cs.dropWhile Char.isDigit)

/-- Takes a sign off the front; true for a minus. -/
def splitSign : List Char → Bool × List Char
  | '-' :: rest => (true, rest)
  | '+' :: rest => (false, rest)
  | cs => (false, cs)

/-- An exponent: nothing at all, or `e` with an optional sign and at least one digit. -/
def readExponent : List Char → Option Int
  | [] => some 0
  | e :: rest =>
    if e = 'e' || e = 'E' then
      let (negative, rest) := splitSign rest
      match spanDigits rest with
      | (d :: ds, []) =>
        let n : Int := ofDigits (d :: ds)
        some (if negative then -n else n)
      | _ => none
    else none

/-- Digits with an optional point, at least one digit in all, and an optional exponent. -/
def readScaled (cs : List Char) : Option Scaled :=
  let (whole, rest) := spanDigits cs
  let (fraction, rest) :=
    match rest with
    | '.' :: rest => spanDigits rest
    | _ => ([], rest)
  if whole.isEmpty && fraction.isEmpty then none
  else (readExponent rest).map fun e => ⟨ofDigits (whole ++ fraction), e - fraction.length⟩

def readName (cs : List Char) : Option Float :=
  match String.ofList (cs.map Char.toLower) with
  | "inf" | "infinity" => some infinity
  | "nan" => some notANumber
  | _ => none

/-- Reads an optionally signed number, correctly rounded. Blanks are not allowed. -/
def readFloat (s : String) : Except FloatFault Float :=
  if s.isEmpty then .error .empty
  else
    let (negative, cs) := splitSign s.toList
    match (readScaled cs).map Scaled.toFloat <|> readName cs with
    | some x => .ok (if negative then -x else x)
    | none => .error .malformed

/-- Reads a decimal with an optional plus sign that is less than `bound`. -/
def readNatural (bound : Nat) (s : String) : Option Nat :=
  let cs := match s.toList with
    | '+' :: rest => rest
    | cs => cs
  match spanDigits cs with
  | (d :: ds, []) =>
    let n := ofDigits (d :: ds)
    if n < bound then some n else none
  | _ => none

end SyntaxDrawing.Decimal
