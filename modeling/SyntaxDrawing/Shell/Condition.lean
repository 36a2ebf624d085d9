import SyntaxDrawing.Files
import SyntaxDrawing.Shell.Script

/-!
# Conditions

What `test` decides: facts about files, texts and integers, with negation, conjunction and
disjunction.
-/

namespace SyntaxDrawing.Shell

structure Desk where
  files : Files
  directory : Place

def Desk.target (d : Desk) (path : Raw) : Except FileFault Files.Target :=
  d.files.resolve d.directory path.toText

namespace Condition

inductive Comparison
  | texts (holds : Raw → Raw → Bool)
  | integers (holds : Int → Int → Bool)

def comparisons : List (String × Comparison) :=
  [("=", .texts fun a b => a == b), ("!=", .texts fun a b => a != b),
    ("<", .texts fun a b => decide (a < b)), (">", .texts fun a b => decide (b < a)),
    ("-eq", .integers fun m n => m == n), ("-ne", .integers fun m n => m != n),
    ("-ge", .integers fun m n => decide (n ≤ m)), ("-gt", .integers fun m n => decide (n < m)),
    ("-le", .integers fun m n => decide (m ≤ n)), ("-lt", .integers fun m n => decide (m < n))]

def comparison? (word : Raw) : Option Comparison :=
  comparisons.lookup (String.ofList word)

def readInteger (word : Raw) : Except Raw Int :=
  let isBlank (c : Char) : Bool := c == ' ' || c == '\t' || c == '\n'
  let (isNegative, cs) :=
    match word.dropWhile isBlank with
    | '-' :: cs => (true, cs)
    | '+' :: cs => (false, cs)
    | cs => (false, cs)
  let digits := cs.takeWhile Char.isDigit
  let n : Int := naturalOf digits
  if digits.isEmpty || !((cs.drop digits.length).dropWhile isBlank).isEmpty then
    .error ("Illegal number: ".toList ++ word)
  else .ok (if isNegative then -n else n)

def Comparison.apply (c : Comparison) (a b : Raw) : Except Raw Bool :=
  match c with
  | .texts holds => .ok (holds a b)
  | .integers holds => do
    let m ← readInteger a
    let n ← readInteger b
    return holds m n

def fact? (d : Desk) (letter : Char) (word : Raw) : Option Bool :=
  let place? : Option Place :=
    match d.target word with
    | .ok (.entry place) => some place
    | _ => none
  let contents := place?.bind d.files.contents?
  let isDirectory : Bool :=
    match d.target word with
    | .ok (.directory _) => true
    | _ => false
  let isDevice := place?.any (Files.devices ++ Files.inputDevices).contains
  match letter with
  | 'n' => some !word.isEmpty
  | 'z' => some word.isEmpty
  | 'f' => some (contents.isSome && !isDevice)
  | 'c' => some isDevice
  | 'd' => some isDirectory
  | 'x' => some (isDirectory || place?.any Files.programPlaces.contains)
  | 'e' | 'r' | 'w' => some (contents.isSome || isDirectory || isDevice)
  | 's' => some (isDirectory || contents.any fun c => !c.isEmpty)
  | 'b' | 'g' | 'h' | 'k' | 'L' | 'p' | 'S' | 't' | 'u' => some false
  | _ => none

def isThere (d : Desk) (path : Raw) : Bool :=
  fact? d 'e' path = some true

/-- Whether a condition without conjunction and disjunction holds, or why it is none. An operator in
the middle of three words comes first, then a negation. -/
def holdsAlone (d : Desk) : List Raw → Except Raw Bool
  | [] => .ok false
  | [word] => .ok !word.isEmpty
  | first :: second :: more =>
    match comparison? second, more with
    | some c, [third] => c.apply first third
    | some _, [] => .error (second ++ ": argument expected".toList)
    | _, more =>
      if first = ['!'] then (holdsAlone d (second :: more)).map (!·)
      else
        match first, more with
        | ['-', letter], [] =>
          match fact? d letter second with
          | some holds => .ok holds
          | none => .error (second ++ ": unexpected operator".toList)
        | _, _ => .error (second ++ ": unexpected operator".toList)

/-- Whether a condition holds, or why it is none. A disjunction binds weaker than a conjunction. -/
def holds (d : Desk) (words : List Raw) : Except Raw Bool := do
  if words.length ≤ 3 then holdsAlone d words
  else
    let all (part : List Raw) : Except Raw Bool :=
      (part.splitOn ['-', 'a']).foldlM (fun holds words => return (← holdsAlone d words) && holds)
        true
    (words.splitOn ['-', 'o']).foldlM (fun holds words => return (← all words) || holds) false

end Condition

end SyntaxDrawing.Shell
