import SyntaxDrawing.Shell.Script

/-!
# Sums

Integers of 64 bits, parameters, brackets and the usual operators, by levels of binding strength.
Division rounds toward zero. A sum is cut into tokens and valued as it is read. A reader returns the
tokens that it leaves; each level of the descent takes one unit of fuel.
-/

namespace SyntaxDrawing.Shell.Arithmetic

-- Powers mean those of the core library, whatever else is imported beside it.
attribute [local instance (high)] instPowNat

inductive Fault
  | expectingPrimary
  | expectingBracket
  | expectingEnd
  | divisionByZero
  | illegalNumber (text : Raw)
  deriving DecidableEq

def Fault.message (sum : Raw) : Fault → Raw
  | .illegalNumber text => "Illegal number: ".toList ++ text
  | .expectingPrimary => of "expecting primary"
  | .expectingBracket => of "expecting ')'"
  | .expectingEnd => of "expecting EOF"
  | .divisionByZero => of "division by zero"
where
  of (what : String) : Raw :=
    ("arithmetic expression: " ++ what ++ ": \"").toList ++ sum ++ ['"']

def wrap (n : Int) : Int :=
  n.bmod (2 ^ (64 : Nat))

abbrev Operator : Type :=
  Int → Int → Except Fault Int

def onBits (f : BitVec 64 → BitVec 64 → BitVec 64) : Operator := fun a b =>
  .ok (f (BitVec.ofInt 64 a) (BitVec.ofInt 64 b)).toInt

def dividing (f : Int → Int → Int) : Operator := fun a b =>
  if b = 0 then .error .divisionByZero else .ok (f a b)

def deciding (f : Int → Int → Bool) : Operator := fun a b =>
  .ok (f a b).toInt

def places (b : Int) : Nat :=
  (b % 64).toNat

/-- The operators by level, the weakest first. -/
def levels : List (List (String × Operator)) :=
  [[("||", deciding fun a b => a != 0 || b != 0)], [("&&", deciding fun a b => a != 0 && b != 0)],
    [("|", onBits (· ||| ·))], [("^", onBits (· ^^^ ·))], [("&", onBits (· &&& ·))],
    [("==", deciding (· == ·)), ("!=", deciding (· != ·))],
    [("<=", deciding fun a b => decide (a ≤ b)), (">=", deciding fun a b => decide (b ≤ a)),
      ("<", deciding fun a b => decide (a < b)), (">", deciding fun a b => decide (b < a))],
    [("<<", fun a b => .ok (a * 2 ^ places b)), (">>", fun a b => .ok (a / 2 ^ places b))],
    [("+", fun a b => .ok (a + b)), ("-", fun a b => .ok (a - b))],
    [("*", fun a b => .ok (a * b)), ("/", dividing Int.tdiv), ("%", dividing Int.tmod)]]

def unary? : String → Option (Int → Int)
  | "-" => some fun n => -n
  | "+" => some id
  | "!" => some fun n => (n == 0).toInt
  | "~" => some fun n => -n - 1
  | _ => none

inductive Token
  | number (n : Int)
  | name (name : Raw)
  | sign (text : String)
  deriving DecidableEq

def signs : List String :=
  ["||", "&&", "==", "!=", "<=", ">=", "<<", ">>"]

def isBlank (c : Char) : Bool :=
  c == ' ' || c == '\t' || c == '\n'

def isNameChar (c : Char) : Bool :=
  c.isAlphanum || c == '_'

def digitValue (c : Char) : Nat :=
  if c.isDigit then c.toNat - 48 else c.toLower.toNat - 87

def isHexDigit (c : Char) : Bool :=
  c.isDigit || (decide ('a' ≤ c.toLower) && decide (c.toLower ≤ 'f'))

/-- Takes a number. A zero in front makes it octal, and `0x` hexadecimal. The greatest integer
stands for all above it. -/
def takeNumber (cs : Raw) : Int × Raw :=
  let (base, digits) :=
    match cs with
    | '0' :: c :: d :: rest =>
      if c.toLower = 'x' && isHexDigit d then (16, d :: rest) else (8, cs)
    | '0' :: _ => (8, cs)
    | cs => (10, cs)
  let isDigit (c : Char) : Bool := isHexDigit c && decide (digitValue c < base)
  let n : Nat := (digits.takeWhile isDigit).foldl (fun n c => base * n + digitValue c) 0
  (min n (2 ^ (63 : Nat) - 1), digits.dropWhile isDigit)

/-- Cuts a sum into tokens. A character that begins none counts as a sign. -/
def tokens (fuel : Nat) (cs : Raw) : List Token :=
  match fuel, cs.dropWhile isBlank with
  | 0, _ | _, [] => []
  | fuel + 1, c :: cs =>
    if c.isDigit then
      let (n, rest) := takeNumber (c :: cs)
      .number n :: tokens fuel rest
    else if isNameChar c then
      .name (c :: cs.takeWhile isNameChar) :: tokens fuel (cs.dropWhile isNameChar)
    else
      match signs.find? fun s => s.toList.isPrefixOf (c :: cs) with
      | some s => .sign s :: tokens fuel cs.tail
      | none => .sign (String.singleton c) :: tokens fuel cs

/-- The integer that a parameter's text writes; no text counts as zero. -/
def integerOf (text : Raw) : Except Fault Int :=
  let (isNegative, digits) :=
    match text.dropWhile isBlank with
    | '-' :: rest => (true, rest)
    | '+' :: rest => (false, rest)
    | cs => (false, cs)
  let (n, rest) := takeNumber digits
  if text.isEmpty then .ok 0
  else if digits.head?.any Char.isDigit && (rest.dropWhile isBlank).isEmpty then
    .ok (if isNegative then -n else n)
  else .error (.illegalNumber text)

abbrev Reading : Type :=
  Except Fault (Int × List Token)

mutual
def readLevel (fuel : Nat) (value : Raw → Raw) (levels : List (List (String × Operator)))
    (ts : List Token) : Reading :=
  match fuel with
  | 0 => .error .expectingPrimary
  | fuel + 1 =>
    match levels with
    | [] => readOperand fuel value ts
    | operators :: stronger => do
      let (a, ts) ← readLevel fuel value stronger ts
      readOperations fuel value operators stronger a ts

def readOperations (fuel : Nat) (value : Raw → Raw) (operators : List (String × Operator))
    (stronger : List (List (String × Operator))) (a : Int) (ts : List Token) : Reading :=
  match fuel with
  | 0 => .error .expectingPrimary
  | fuel + 1 =>
    let next? :=
      match ts with
      | .sign s :: ts => (operators.lookup s).map fun operator => (operator, ts)
      | _ => none
    match next? with
    | none => .ok (a, ts)
    | some (operator, ts) => do
      let (b, ts) ← readLevel fuel value stronger ts
      readOperations fuel value operators stronger (wrap (← operator a b)) ts

def readOperand (fuel : Nat) (value : Raw → Raw) (ts : List Token) : Reading :=
  match fuel with
  | 0 => .error .expectingPrimary
  | fuel + 1 =>
    match ts with
    | .number n :: ts => .ok (n, ts)
    | .name name :: ts => do return (← integerOf (value name), ts)
    | .sign "(" :: ts => do
      match ← readLevel fuel value levels ts with
      | (a, .sign ")" :: ts) => return (a, ts)
      | _ => throw .expectingBracket
    | .sign s :: ts =>
      match unary? s with
      | some f => do
        let (a, ts) ← readOperand fuel value ts
        return (wrap (f a), ts)
      | none => .error .expectingPrimary
    | [] => .error .expectingPrimary
end

def evaluate (value : Raw → Raw) (cs : Raw) : Except Fault Int := do
  let ts := tokens cs.length cs
  match ← readLevel (20 * ts.length + 20) value levels ts with
  | (n, []) => return n
  | _ => throw .expectingEnd

end SyntaxDrawing.Shell.Arithmetic
