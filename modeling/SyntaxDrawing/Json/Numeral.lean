import SyntaxDrawing.Decimal.Binary
import SyntaxDrawing.Json.Lexeme
import SyntaxDrawing.Json.Value

/-!
# Numerals of JSON texts

A numeral is first taken off the text as its digits and then given a value. Digits are gathered in
a significand of 64 bits; those that no longer fit count as powers of ten in front of the point and
are dropped behind it. A fraction or an exponent makes the value a real, which is the significand
scaled by one rounded power of ten and so need not be the nearest one.
-/

namespace SyntaxDrawing.Json

-- Powers mean those of the core library, whatever else is imported beside it.
attribute [local instance (high)] instPowNat

/-- The parts of a numeral: digits in front of the point, digits behind it, and the exponent with
its sign. -/
structure Numeral where
  negative : Bool
  whole : List Nat
  fraction : List Nat
  exponent : Option (Bool × List Nat)

def digitOf (b : UInt8) : Nat :=
  b.toNat - 48

def spanDigits (bytes : List UInt8) : List Nat × List UInt8 :=
  ((bytes.takeWhile isDigitByte).map digitOf, bytes.dropWhile isDigitByte)

theorem length_spanDigits_le (bytes : List UInt8) : (spanDigits bytes).2.length ≤ bytes.length :=
  (List.dropWhile_sublist _).length_le

/-- Takes the digits in front of the point. A zero stands alone. -/
def readWhole : List UInt8 → Except Fault (List Nat × List UInt8)
  | [] => .error (.behind .endInValue [])
  | b :: rest =>
    if ¬ isDigitByte b then .error (.behind .invalidNumber rest)
    else if b = byte '0' then
      match rest with
      | [] => .ok ([0], [])
      | c :: _ => if isDigitByte c then .error (.ahead .invalidNumber rest) else .ok ([0], rest)
    else
      let (digits, rest) := spanDigits rest
      .ok (digitOf b :: digits, rest)

theorem readWhole_length {rest rest' : List UInt8} {digits : List Nat}
    (h : readWhole rest = .ok (digits, rest')) : rest'.length < rest.length := by
  unfold readWhole at h
  split at h
  · cases h
  · next b rest =>
    split at h
    · cases h
    · split at h
      · split at h
        · cases h
          simp
        · split at h
          · cases h
          · cases h
            simp
      · cases h
        exact Nat.lt_succ_of_le (length_spanDigits_le rest)

def readFraction : List UInt8 → Except Fault (List Nat × List UInt8)
  | [] => .ok ([], [])
  | b :: rest =>
    if b = byte '.' then
      match spanDigits rest with
      | ([], []) => .error (.ahead .endInValue [])
      | ([], rest) => .error (.ahead .invalidNumber rest)
      | (digits, rest) => .ok (digits, rest)
    else .ok ([], b :: rest)

theorem readFraction_length {rest rest' : List UInt8} {digits : List Nat}
    (h : readFraction rest = .ok (digits, rest')) : rest'.length ≤ rest.length := by
  unfold readFraction at h
  split at h
  · cases h
    exact Nat.le_refl _
  · next b rest =>
    split at h
    · have := length_spanDigits_le rest
      split at h
      · cases h
      · cases h
      · next hs =>
        cases h
        rw [hs] at this
        exact Nat.le_succ_of_le this
    · cases h
      exact Nat.le_refl _

/-- Takes a sign, if there is one; true for a minus. -/
def readSign : List UInt8 → Bool × List UInt8
  | [] => (false, [])
  | b :: rest =>
    if b = byte '-' then (true, rest)
    else if b = byte '+' then (false, rest)
    else (false, b :: rest)

theorem length_readSign_le (rest : List UInt8) : (readSign rest).2.length ≤ rest.length := by
  unfold readSign
  split
  · simp
  · split
    · simp
    · split <;> simp

def readExponent : List UInt8 → Except Fault (Option (Bool × List Nat) × List UInt8)
  | [] => .ok (none, [])
  | b :: rest =>
    if b = byte 'e' ∨ b = byte 'E' then
      let (negative, rest) := readSign rest
      match rest with
      | [] => .error (.behind .endInValue [])
      | c :: rest =>
        if isDigitByte c then
          let (digits, rest) := spanDigits rest
          .ok (some (negative, digitOf c :: digits), rest)
        else .error (.behind .invalidNumber rest)
    else .ok (none, b :: rest)

theorem readExponent_length {rest rest' : List UInt8} {exponent : Option (Bool × List Nat)}
    (h : readExponent rest = .ok (exponent, rest')) : rest'.length ≤ rest.length := by
  unfold readExponent at h
  split at h
  · cases h
    exact Nat.le_refl _
  · next b rest =>
    have hs := length_readSign_le rest
    split at h
    · split at h
      next negative rest₁ hr =>
      rw [hr] at hs
      split at h
      · cases h
      · next c rest₂ =>
        split at h
        · have := length_spanDigits_le rest₂
          cases h
          simp only [List.length_cons, spanDigits] at *
          omega
        · cases h
    · cases h
      exact Nat.le_refl _

def readNumeral (negative : Bool) (rest : List UInt8) : Except Fault (Numeral × List UInt8) :=
  match readWhole rest with
  | .error f => .error f
  | .ok (whole, rest) =>
    match readFraction rest with
    | .error f => .error f
    | .ok (fraction, rest) =>
      match readExponent rest with
      | .error f => .error f
      | .ok (exponent, rest) => .ok (⟨negative, whole, fraction, exponent⟩, rest)

theorem readNumeral_length {negative : Bool} {rest rest' : List UInt8} {n : Numeral}
    (h : readNumeral negative rest = .ok (n, rest')) : rest'.length < rest.length := by
  unfold readNumeral at h
  split at h
  · cases h
  · next hw =>
    have h₁ := readWhole_length hw
    split at h
    · cases h
    · next hf =>
      have h₂ := readFraction_length hf
      split at h
      · cases h
      · next he =>
        have h₃ := readExponent_length he
        cases h
        omega

/-- Extends a significand by digits while it stays below `2 ^ 64`; returns the digits left over. -/
def gather : (significand : Nat) → List Nat → Nat × List Nat
  | s, [] => (s, [])
  | s, d :: ds => if 10 * s + d < 2 ^ (64 : Nat) then gather (10 * s + d) ds else (s, d :: ds)

/-- The value of the digits of an exponent; if it leaves 31 bits, the digits left over. -/
def exponentFrom : (value : Nat) → List Nat → Except (List Nat) Nat
  | n, [] => .ok n
  | n, d :: ds => if 10 * n + d < 2 ^ (31 : Nat) then exponentFrom (10 * n + d) ds else .error ds

def powerOfTen (n : Nat) : Float :=
  Float.ofScientific 1 false n

/-- Divides by `10 ^ n`, by `1e308` at a time. -/
def divideBy (x : Float) (n : Nat) : Float :=
  if h : n ≤ 308 then x / powerOfTen n
  else if x == 0 then x
  else divideBy (x / powerOfTen 308) (n - 308)
termination_by n
decreasing_by omega

/-- Multiplies by `10 ^ e`; none beyond the finite numbers. -/
def scaleBy (x : Float) (e : Int) : Option Float :=
  if 0 ≤ e then
    if e ≤ 308 then
      let y := x * powerOfTen e.toNat
      if y.isInf then none else some y
    else if x == 0 then some x
    else none
  else some (divideBy x e.natAbs)

/-- The real with these parts; out of range, the number of digits that were not looked at. -/
def Numeral.real (n : Numeral) : Except Nat Float :=
  let (s, beyond) := gather 0 n.whole
  let (s, dropped) := gather s n.fraction
  let scale : Int := (beyond.length : Int) - ((n.fraction.length : Int) - dropped.length)
  let signed (x : Float) : Float := if n.negative then -x else x
  let finish (e : Int) : Except Nat Float :=
    match scaleBy (Float.ofNat s) e with
    | some x => .ok (signed x)
    | none => .error 0
  match n.exponent with
  | none => finish scale
  | some (negative, digits) =>
    match exponentFrom 0 digits with
    | .ok e => finish (if negative then scale - e else scale + e)
    | .error left => if s = 0 ∨ negative then .ok (signed 0) else .error left.length

/-- The integer with these parts: without fraction and exponent, not `-0`, and of 64 bits. -/
def Numeral.integer? (n : Numeral) : Option Int :=
  match n.fraction, n.exponent, gather 0 n.whole with
  | [], none, (s, []) =>
    if n.negative then if 1 ≤ s ∧ s ≤ 2 ^ (63 : Nat) then some (-s) else none else some s
  | _, _, _ => none

def Numeral.value (n : Numeral) : Except Nat Number :=
  match n.integer? with
  | some i => .ok (.integer i)
  | none => n.real.map .real

def readNumber (negative : Bool) (rest : List UInt8) : Except Fault (Number × List UInt8) :=
  match readNumeral negative rest with
  | .error f => .error f
  | .ok (n, rest) =>
    match n.value with
    | .ok x => .ok (x, rest)
    | .error left => .error ⟨.numberOutOfRange, rest.length + left, 0⟩

theorem readNumber_length {negative : Bool} {rest rest' : List UInt8} {x : Number}
    (h : readNumber negative rest = .ok (x, rest')) : rest'.length < rest.length := by
  unfold readNumber at h
  split at h
  · cases h
  · next hn =>
    have := readNumeral_length hn
    split at h
    · cases h
      exact this
    · cases h

end SyntaxDrawing.Json
