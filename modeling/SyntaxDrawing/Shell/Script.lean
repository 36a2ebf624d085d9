import SyntaxDrawing.Text.Utf8

/-!
# Scripts of the shell

The commands that a parser is called with may be scripts. This is what a script consists of once it
has been read. A command that may complain knows the line that it stands on. A shell's texts are
bytes: a `Raw` writes each of them as the character of the same number.
-/

namespace SyntaxDrawing.Shell

abbrev Raw : Type :=
  List Char

def Raw.ofBytes (bytes : List UInt8) : Raw :=
  bytes.map fun b => Char.ofNat b.toNat

def Raw.toBytes (raw : Raw) : List UInt8 :=
  raw.map fun c => UInt8.ofNat c.toNat

def Raw.ofString (s : String) : Raw :=
  Raw.ofBytes (Text.Utf8.encode s)

/-- The text that the bytes encode, with U+FFFD for what is no UTF-8. -/
def Raw.toText (raw : Raw) : String :=
  Text.Utf8.decodeLossy raw.toBytes

def joinWords (words : List Raw) : Raw :=
  [' '].intercalate words

def isNatural (cs : Raw) : Bool :=
  !cs.isEmpty && cs.all Char.isDigit

def naturalOf (cs : Raw) : Nat :=
  cs.foldl (fun n c => 10 * n + (c.toNat - 48)) 0

def digitsOf (n : Nat) : Raw :=
  Nat.toDigits 10 n

/-- What may be done to a parameter's value: a word takes its place, or a pattern is cut off. -/
inductive Modifier
  | orElse
  | assigning
  | insteadOf
  | failing
  | withoutStart (longest : Bool)
  | withoutEnd (longest : Bool)
  deriving DecidableEq

inductive Direction
  | input
  | output
  | appending
  | both
  | duplicate
  deriving DecidableEq

mutual
/-- A piece of a word. An expansion that is `malformed` is a fault only where it is made. -/
inductive Part
  | plain (c : Char)
  | quoted (text : Raw)
  | expansion (e : Expansion) (isQuoted : Bool)

inductive Expansion
  | malformed
  | parameter (name : Raw)
  | length (name : Raw)
  | modified (name : Raw) (m : Modifier) (orEmpty : Bool) (word : List Part)
  | output (script : Command)
  | arithmetic (word : List Part)

/-- A descriptor is redirected to what a word says, or to a text below the line: texts below are
numbered. -/
inductive Redirection
  | mk (descriptor : Nat) (direction : Direction) (word : List Part)
  | text (descriptor number : Nat)

inductive Command
  | simple (line : Nat) (assignments : List (Raw × List Part)) (words : List (List Part))
      (redirections : List Redirection)
  | pipeline (isNegated : Bool) (stages : List Command)
  | both (first second : Command)
  | either (first second : Command)
  | sequence (commands : List Command)
  | background (body : Command)
  | subshell (line : Nat) (body : Command)
  | branch (test first second : Command)
  | loop (isNegated : Bool) (test body : Command)
  | each (line : Nat) (name : Raw) (words : Option (List (List Part))) (body : Command)
  | choose (line : Nat) (word : List Part) (cases : List (List (List Part) × Command))
  | redirected (line : Nat) (body : Command) (redirections : List Redirection)
  | define (name : Raw) (body : Command)
end

abbrev Word : Type :=
  List Part

def Word.bare? (word : Word) : Option Raw :=
  word.mapM fun
    | .plain c => some c
    | _ => none

def Command.nothing : Command :=
  .sequence []

def Command.ofList : List Command → Command
  | [c] => c
  | cs => .sequence cs

/-- A command with redirections. Those of a subshell are its own, and take the place of others that
it has. -/
def Command.redirect (line : Nat) (redirections : List Redirection) : Command → Command
  | .subshell line body | .redirected _ (.subshell line body) _ =>
    .redirected line (.subshell line body) redirections
  | body => .redirected line body redirections

end SyntaxDrawing.Shell
