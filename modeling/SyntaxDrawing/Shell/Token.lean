import SyntaxDrawing.Shell.Script

/-!
# Tokens of a script

What a script is cut into before its grammar is looked at, how far a script has been read, and what
may be wrong with one.
-/

namespace SyntaxDrawing.Shell

/-- What stands behind a redirection's operator: a word, or the word that ends the text below. -/
inductive Aim
  | word (direction : Direction)
  | text (isIndented : Bool)

inductive Token
  | ending
  | newline
  | redirection (descriptor : Nat) (aim : Aim)
  | word (word : Word)
  | sign (text : String)

namespace Token

def title : Token → String
  | .ending => "end of file"
  | .newline => "newline"
  | .redirection _ _ => "redirection"
  | .word _ => "word"
  | .sign text => "\"" ++ text ++ "\""

def isSign (text : String) : Token → Bool
  | .sign found => found == text
  | _ => false

def keywords : List String :=
  ["if", "then", "else", "elif", "fi", "while", "until", "do", "done", "for", "in", "case", "esac",
    "\x7b", "\x7d", "!"]

def closing : List String :=
  [")", ";;", "then", "else", "elif", "fi", "do", "done", "esac", "\x7d"]

def isClosing : Token → Bool
  | .sign text => closing.contains text
  | _ => false

def asKeyword (t : Token) : Token :=
  match t with
  | .word parts =>
    match (Word.bare? parts).map String.ofList with
    | some text => if keywords.contains text then .sign text else t
    | none => t
  | t => t

end Token

inductive Malformation
  | unexpected (found : String) (expected : Option String)
  | unterminatedQuotation
  | unterminatedBackquote
  | missingBrace
  | missingBrackets
  | badVariable
  | badFunction
  deriving DecidableEq

def Malformation.message : Malformation → String
  | .unexpected found none => found ++ " unexpected"
  | .unexpected found (some expected) => found ++ " unexpected (expecting " ++ expected ++ ")"
  | .unterminatedQuotation => "Unterminated quoted string"
  | .unterminatedBackquote => "EOF in backquote substitution"
  | .missingBrace => "Missing '\x7d'"
  | .missingBrackets => "Missing '))'"
  | .badVariable => "Bad for loop variable"
  | .badFunction => "Bad function name"

/-- A text that stands below the line: its number, and the line that it ends in front of. -/
structure Owed where
  number : Nat
  delimiter : Raw
  isQuoted : Bool
  isIndented : Bool

/-- A script that is being read, with the number of the line reached. A token can be given back.
Texts below the line are owed until its end, where they are `found`; `texts` of them have been
announced. While one is being read, `below` is that text, and `isClosed` says that the line that
ends it has come. -/
structure Source where
  rest : Raw
  line : Nat
  back : Option Token
  owed : List Owed
  texts : Nat
  found : List (Nat × Word)
  below : Option Owed
  isClosed : Bool

structure Misreading where
  line : Nat
  cause : Malformation

abbrev Reading (α : Type) : Type :=
  StateT Source (Except Misreading) α

def skipContinued : Raw → Raw × Nat
  | '\\' :: '\n' :: cs =>
    let (rest, lines) := skipContinued cs
    (rest, lines + 1)
  | cs => (cs, 0)

namespace Source

/-- At the start of a line: takes the line if it ends the text below. In an indented text the tabs
in front of a line do not count. -/
def atLineStart (s : Source) : Source :=
  match s.below with
  | none => s
  | some o =>
    let rest := if o.isIndented then s.rest.dropWhile (· == '\t') else s.rest
    if o.delimiter.isPrefixOf rest then
      match rest.drop o.delimiter.length with
      | [] => { s with rest := [], isClosed := true }
      | '\n' :: rest => { s with rest, line := s.line + 1, isClosed := true }
      | _ => { s with rest }
    else { s with rest }

/-- The next character, however it is quoted. A text below has none behind its end. -/
def next? (s : Source) : Option (Char × Source) :=
  match s.isClosed, s.rest with
  | true, _ | _, [] => none
  | false, '\n' :: rest => some ('\n', { s with rest, line := s.line + 1 }.atLineStart)
  | false, c :: rest => some (c, { s with rest })

def inner (s : Source) (script : Raw) : Source :=
  { s with rest := script, line := 1, back := none, owed := [], below := none }

def joined (s : Source) : Source :=
  let (rest, lines) := if s.isClosed then (s.rest, 0) else skipContinued s.rest
  { s with rest, line := s.line + lines }

end Source

namespace Reading

def fail {α : Type} (cause : Malformation) : Reading α := do
  throw ⟨(← get).line, cause⟩

def peek : Reading (Option Char) := do
  let s := (← get).joined
  set s
  return if s.isClosed then none else s.rest.head?

def take : Reading (Option Char) := do
  match (← get).next? with
  | some (c, s) =>
    set s
    return some c
  | none => return none

def skip : Reading Unit := do
  let _ ← take

/-- Drops the next character. It does not count as a line's end even if it is one. -/
def lose : Reading Unit :=
  modify fun s => { s with rest := s.rest.tail }

def takeIf (c : Char) : Reading Bool := do
  if (← peek) = some c then
    skip
    return true
  else return false

/-- Takes characters of a kind, over the ends of continued lines. -/
def takeWhile (isMeant : Char → Bool) : Reading Raw := do
  let s ← get
  let rec collect (fuel : Nat) (s : Source) : Raw × Source :=
    match fuel, s.joined.next? with
    | fuel + 1, some (c, next) =>
      if isMeant c then
        let (text, s) := collect fuel next
        (c :: text, s)
      else ([], s.joined)
    | _, _ => ([], s.joined)
  let (text, s) := collect s.rest.length s
  set s
  return text

def isBelow : Reading Bool := do
  return (← get).below.isSome

def unbounded {α : Type} (reading : Reading α) : Reading α := do
  let before ← get
  set { before with below := none }
  let a ← reading
  modify fun s => { s with below := before.below }
  return a

def giveBack (t : Token) : Reading Unit :=
  modify fun s => { s with back := some t }

/-- Refuses a token; the sign that should have stood there is named if there is only one. -/
def refuse {α : Type} (found : Token) (expected : Option String) : Reading α :=
  fail (.unexpected found.title (expected.map fun text => (Token.sign text).title))

end Reading

end SyntaxDrawing.Shell
