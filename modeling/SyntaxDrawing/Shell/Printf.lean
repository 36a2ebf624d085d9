import SyntaxDrawing.Shell.Script

/-!
# Formatted printing

A format is used again as long as arguments remain. A missing argument counts as empty, or as zero.
-/

namespace SyntaxDrawing.Shell

-- Powers mean those of the core library, whatever else is imported beside it.
attribute [local instance (high)] instPowNat

structure Effect where
  writings : List (Nat × Raw)
  status : Nat

def Effect.silent (status : Nat) : Effect :=
  ⟨[], status⟩

def Effect.printing (output : Raw) : Effect :=
  ⟨[(1, output)], 0⟩

/-- Writes messages; the status is zero if there are none. -/
def Effect.complaining (messages : Raw) (status : Nat) : Effect :=
  if messages.isEmpty then .silent 0 else ⟨[(2, messages)], status⟩

def Effect.failing (message : String) (status : Nat) : Effect :=
  ⟨[(2, Raw.ofString (message ++ "\n"))], status⟩

/-- One effect after the other; a failure of either is one of both. -/
def Effect.followedBy (first second : Effect) : Effect :=
  ⟨first.writings ++ second.writings, max first.status second.status⟩

def isOctal (c : Char) : Bool :=
  decide ('0' ≤ c) && decide (c ≤ '7')

def octalValue (cs : Raw) : Nat :=
  cs.foldl (fun n c => 8 * n + (c.toNat - 48)) 0

def escapeOf? : Char → Option Char
  | 'a' => some '\x07'
  | 'b' => some '\x08'
  | 'e' => some '\x1b'
  | 'f' => some '\x0c'
  | 'n' => some '\n'
  | 'r' => some '\r'
  | 't' => some '\t'
  | 'v' => some '\x0b'
  | '\\' => some '\\'
  | _ => none

def takeOctal (cs : Raw) : Char × Raw :=
  let digits := (cs.take 3).takeWhile isOctal
  (Char.ofNat (octalValue digits % 256), cs.drop digits.length)

/-- A backslash's escape in a format: a letter, or up to three octal digits. -/
def escapeInFormat (cs : Raw) : Raw × Raw :=
  match cs with
  | [] => (['\\'], [])
  | c :: rest =>
    match escapeOf? c with
    | some e => ([e], rest)
    | none =>
      if isOctal c then
        let (b, rest) := takeOctal (c :: rest)
        ([b], rest)
      else (['\\', c], rest)

/-- Replaces escapes in an argument, where octal digits follow a zero. `true` says that printing
ends there. Each character takes one unit of fuel. -/
def unescape (fuel : Nat) (cs : Raw) : Raw × Bool :=
  match fuel, cs with
  | _ + 1, '\\' :: 'c' :: _ => ([], true)
  | fuel + 1, '\\' :: '0' :: rest =>
    let (b, rest) := takeOctal rest
    let (text, ends) := unescape fuel rest
    (b :: text, ends)
  | fuel + 1, '\\' :: rest =>
    let (e, rest) := escapeInFormat rest
    let (text, ends) := unescape fuel rest
    (e ++ text, ends)
  | fuel + 1, c :: rest =>
    let (text, ends) := unescape fuel rest
    (c :: text, ends)
  | _, _ => ([], false)

structure Layout where
  flags : List Char
  width : Nat
  precision : Option Nat

def Layout.pad (l : Layout) (text : Raw) : Raw :=
  let missing := l.width - text.length
  if l.flags.contains '-' then text ++ List.replicate missing ' '
  else List.replicate missing ' ' ++ text

def Layout.sign (l : Layout) (isNegative : Bool) : Raw :=
  if isNegative then ['-']
  else if l.flags.contains '+' then ['+']
  else if l.flags.contains ' ' then [' ']
  else []

def Layout.padNumber (l : Layout) (sign digits : Raw) : Raw :=
  let missing := l.width - sign.length - digits.length
  if l.flags.contains '0' && !l.flags.contains '-' then
    sign ++ List.replicate missing '0' ++ digits
  else l.pad (sign ++ digits)

/-- The digits of a number, at least as many as the precision asks for. A precision leaves no room
for zeros in front. -/
def Layout.integer (l : Layout) (sign digits : Raw) : Raw :=
  let digits := if l.precision = some 0 ∧ digits = ['0'] then [] else digits
  let digits := List.replicate (l.precision.getD 1 - digits.length) '0' ++ digits
  if l.precision.isSome then l.pad (sign ++ digits) else l.padNumber sign digits

def isWhite (c : Char) : Bool :=
  c == ' ' || (decide ('\t' ≤ c) && decide (c ≤ '\r'))

/-- Takes the integer that a text begins with; `none` if it begins with none. -/
def takeInteger (cs : Raw) : Option (Int × Raw) :=
  let (isNegative, cs) :=
    match cs.dropWhile isWhite with
    | '-' :: rest => (true, rest)
    | '+' :: rest => (false, rest)
    | cs => (false, cs)
  let value (c : Char) : Nat :=
    if c.isDigit then c.toNat - 48 else if c.isAlpha then c.toLower.toNat - 87 else 99
  let (base, digits) :=
    match cs with
    | '0' :: x :: c :: rest =>
      if x.toLower = 'x' && value c < 16 then (16, c :: rest) else (8, cs)
    | '0' :: _ => (8, cs)
    | _ => (10, cs)
  let isDigit (c : Char) : Bool := value c < base
  if (digits.takeWhile isDigit).isEmpty then none
  else
    let n : Nat := (digits.takeWhile isDigit).foldl (fun n c => base * n + value c) 0
    some (if isNegative then -n else n, digits.dropWhile isDigit)

/-- A format that is being printed: `used` says that an argument was taken in this round. -/
structure Printing where
  output : Raw
  errors : Raw
  status : Nat
  arguments : List Raw
  used : Bool
  hasEnded : Bool

def Printing.start (arguments : List Raw) : Printing :=
  ⟨[], [], 0, arguments, false, false⟩

def Printing.add (p : Printing) (text : Raw) : Printing :=
  { p with output := p.output ++ text }

def Printing.complain (p : Printing) (message : Raw) (status : Nat) : Printing :=
  { p with errors := p.errors ++ "printf: ".toList ++ message ++ ['\n'], status }

def Printing.next (p : Printing) : Raw × Printing :=
  match p.arguments with
  | [] => ([], p)
  | a :: rest => (a, { p with arguments := rest, used := true })

def takeCode (cs : Raw) : Option (Int × Raw) :=
  match cs with
  | '"' :: cs | '\'' :: cs => some ((cs.headD '\x00').toNat, [])
  | cs => takeInteger cs

/-- Takes an integer that lies between bounds off the next argument. No argument counts as zero. -/
def Printing.integer (p : Printing) (low high : Int) : Int × Printing :=
  let (text, p) := p.next
  match text, takeCode text with
  | [], _ => (0, p)
  | text, some (n, rest) =>
    if !rest.isEmpty then (n, p.complain (text ++ ": not completely converted".toList) 1)
    else if low ≤ n ∧ n ≤ high then (n, p)
    else (max low (min n high), p.complain (text ++ ": Numerical result out of range".toList) 1)
  | text, none => (0, p.complain (text ++ ": expected numeric value".toList) 1)

def Printing.signed (p : Printing) : Int × Printing :=
  p.integer (-2 ^ (63 : Nat)) (2 ^ (63 : Nat) - 1)

/-- A negative integer counts from the upper end. -/
def Printing.unsigned (p : Printing) : Nat × Printing :=
  let (n, p) := p.integer (1 - 2 ^ (64 : Nat)) (2 ^ (64 : Nat) - 1)
  ((n % 2 ^ (64 : Nat)).toNat, p)

/-- A width or a precision: digits, or an argument in the place of a star. -/
def Printing.size (p : Printing) (cs : Raw) : Option Int × Raw × Printing :=
  match cs with
  | '*' :: rest =>
    let (n, p) := p.signed
    (some n, rest, p)
  | cs =>
    let digits := cs.takeWhile Char.isDigit
    (if digits.isEmpty then none else some (naturalOf digits), cs.drop digits.length, p)

/-- Prints one argument as the letter of the conversion says; `written` is the conversion. -/
def Printing.convert (p : Printing) (l : Layout) (letter : Char) (written : Raw) : Printing :=
  let natural (base : Nat) (start : Raw) (digit : Char → Char) : Printing :=
    let (n, p) := p.unsigned
    let start := if l.flags.contains '#' && n != 0 then start else []
    p.add (l.integer start ((Nat.toDigits base n).map digit))
  match letter with
  | 's' =>
    let (text, p) := p.next
    p.add (l.pad (text.take (l.precision.getD text.length)))
  | 'b' =>
    let (text, p) := p.next
    let (text, ends) := unescape text.length text
    { p.add (l.pad (text.take (l.precision.getD text.length))) with hasEnded := ends }
  | 'c' =>
    let (text, p) := p.next
    p.add (l.pad [text.headD '\x00'])
  | 'd' | 'i' =>
    let (n, p) := p.signed
    p.add (l.integer (l.sign (n < 0)) (Nat.toDigits 10 n.natAbs))
  | 'u' => natural 10 [] id
  | 'o' => natural 8 ['0'] id
  | 'x' => natural 16 ['0', 'x'] id
  | 'X' => natural 16 ['0', 'X'] Char.toUpper
  | _ => { p.complain (written ++ ": invalid directive".toList) 2 with hasEnded := true }

def sizeLimit : Nat := 2 ^ (24 : Nat)

/-- Prints a format once. Each of its characters takes at most one unit of fuel. -/
def Printing.round (fuel : Nat) (p : Printing) (format : Raw) : Printing :=
  match fuel, format with
  | 0, _ => p
  | _, [] => p
  | fuel + 1, '\\' :: rest =>
    let (e, rest) := escapeInFormat rest
    (p.add e).round fuel rest
  | fuel + 1, '%' :: '%' :: rest => (p.add ['%']).round fuel rest
  | fuel + 1, '%' :: conversion =>
    let isFlag (c : Char) : Bool := "-+ #0".toList.contains c
    let flags := conversion.takeWhile isFlag
    let (width, rest, p) := p.size (conversion.drop flags.length)
    let (precision, rest, p) :=
      match rest with
      | '.' :: rest =>
        let (precision, rest, p) := p.size rest
        (some (precision.getD 0), rest, p)
      | rest => (none, rest, p)
    match rest with
    | [] => { p.complain "missing format character".toList 2 with hasEnded := true }
    | letter :: rest =>
      let width := width.getD 0
      let isText := "sbc".toList.contains letter
      if sizeLimit < width.natAbs || (!isText && decide ((sizeLimit : Int) < precision.getD 0)) then
        { p.complain "xvsnprintf failed".toList 2 with hasEnded := true }
      else
        let layout : Layout :=
          { flags := if width < 0 then '-' :: flags else flags
            width := width.natAbs
            precision := (precision.filter fun n => decide (0 ≤ n)).map Int.toNat }
        let written := '%' :: conversion.take (conversion.length - rest.length)
        let p := p.convert layout letter written
        if p.hasEnded then p else p.round fuel rest
  | fuel + 1, c :: rest => (p.add [c]).round fuel rest

/-- Prints a format until no arguments remain. Each round takes one unit of fuel. -/
def Printing.rounds (fuel : Nat) (p : Printing) (format : Raw) : Printing :=
  match fuel with
  | 0 => p
  | fuel + 1 =>
    let p := { p with used := false }.round format.length format
    if p.hasEnded || p.arguments.isEmpty || !p.used then p else p.rounds fuel format

def printf : List Raw → Effect
  | [] => .failing "printf: usage: printf format [arg ...]" 2
  | format :: arguments =>
    let p := (Printing.start arguments).rounds (arguments.length + 1) format
    ⟨[(2, p.errors), (1, p.output)], p.status⟩

end SyntaxDrawing.Shell
