import SyntaxDrawing.Shell.Act
import SyntaxDrawing.Shell.Condition
import SyntaxDrawing.Text.Blank

/-!
# Programs by name

The programs that a shell runs. Some of them are a part of the shell when they are called without
the path of their directory; all others have a process to themselves. Of their options there are
those that scripts for a parser use: of all others a program complains.
-/

namespace SyntaxDrawing.Shell

-- Powers and sums mean those of the core library, whatever else is imported beside it.
attribute [local instance (high)] instPowNat Zero.ofOfNat0

def programs : List String :=
  ["sh", "dash", "cat", "wc", "true", "false", "echo", "mv", "rm", "sleep", "printf", "test", "["]

def programName (name : String) : String :=
  let name := if name.startsWith "/usr/" then (name.drop 4).toString else name
  if name.startsWith "/bin/" then (name.drop 5).toString else name

def isShell (name : Raw) : Bool :=
  let program := programName name.toText
  program == "sh" || program == "dash"

def echoWith (escapes newline : Bool) (words : List Raw) : Effect :=
  let text := joinWords words
  let (text, ends) := if escapes then unescape text.length text else (text, false)
  .printing (if newline && !ends then text ++ ['\n'] else text)

def echoBuiltin : List Raw → Effect
  | ['-', 'n'] :: words => echoWith true false words
  | words => echoWith true true words

/-- The program of that name heeds letters: `n` for no line break, `e` and `E` for escapes. -/
def echoProgram (escapes newline : Bool) : List Raw → Effect
  | ('-' :: letter :: letters) :: words =>
    if (letter :: letters).all "neE".toList.contains then
      let choose (escapes : Bool) (c : Char) : Bool := if c == 'n' then escapes else c == 'e'
      echoProgram ((letter :: letters).foldl choose escapes)
        (newline && !(letter :: letters).contains 'n') words
    else echoWith escapes newline (('-' :: letter :: letters) :: words)
  | words => echoWith escapes newline words

def test (name : String) (d : Desk) (words : List Raw) : Effect :=
  match Condition.holds d words with
  | .ok true => .silent 0
  | .ok false => .silent 1
  | .error message => .failing (name ++ ": " ++ message.toText) 2

def testBracketed (d : Desk) (words : List Raw) : Effect :=
  match words.getLast? with
  | some [']'] => test "[" d words.dropLast
  | _ => .failing "[: missing ]" 2

def quoteAlways (name : Raw) : Raw :=
  if name.contains '\'' then '"' :: name ++ ['"'] else '\'' :: name ++ ['\'']

/-- A name as it stands in a shell: between quotation marks if a character in it has a meaning
there. -/
def quoteName (name : Raw) : Raw :=
  if name.isEmpty || name.any " \t\n'!\"$&()*;<=>?[^\x60|\\#~".toList.contains then
    quoteAlways name
  else name

def misuse (program fault : Raw) : Effect :=
  .complaining
    (program ++ ": ".toList ++ fault ++ "\nTry '".toList ++ program ++
      " --help' for more information.\n".toList) 1

/-- The letters of options and the operands among the words of a program, in any order. Two hyphens
end the options. -/
def readCall (known : String) : List Raw → Except Raw (List Char × List Raw)
  | [] => .ok ([], [])
  | ['-', '-'] :: words => .ok ([], words)
  | ('-' :: c :: cs) :: words => do
    if c = '-' then throw ("unrecognized option ".toList ++ quoteAlways ('-' :: c :: cs))
    match (c :: cs).find? fun c => !known.toList.contains c with
    | some c => throw ("invalid option -- ".toList ++ quoteAlways [c])
    | none =>
      let (letters, operands) ← readCall known words
      return (c :: cs ++ letters, operands)
  | word :: words => do
    let (letters, operands) ← readCall known words
    return (letters, word :: operands)

/-- What there is to be counted in a text: lines, words, characters and bytes. -/
structure Counts where
  lines : Nat
  words : Nat
  chars : Nat
  bytes : Nat

def Counts.of (text : Raw) : Counts :=
  { lines := text.count '\n'
    words := (Text.words text.toText).length
    chars := text.toText.length
    bytes := text.length }

def Counts.add (a b : Counts) : Counts :=
  ⟨a.lines + b.lines, a.words + b.words, a.chars + b.chars, a.bytes + b.bytes⟩

def Counts.chosen (c : Counts) (letters : List Char) : List Nat :=
  let letters := if letters.isEmpty then ['l', 'w', 'c'] else letters
  [('l', c.lines), ('w', c.words), ('m', c.chars), ('c', c.bytes)].filterMap fun (letter, n) =>
    if letters.contains letter then some n else none

def countLine (width : Nat) (counts : List Nat) (name : Option Raw) : Raw :=
  let cell (n : Nat) : Raw :=
    let digits := digitsOf n
    List.replicate (width - digits.length) ' ' ++ digits
  joinWords (counts.map cell ++ name.toList) ++ ['\n']

/-- Something that is counted: what there was to read of it, and what kept it from being read to its
end. The input has no name unless it is named by a hyphen. -/
structure Counted where
  name : Option Raw
  contents : Except FileFault Raw
  isSized : Bool

def unsizedWidth : Nat := 7

/-- Columns are as wide as the number of bytes in all files. A single count needs no column. -/
def countWidth (columns : Nat) (all : List Counted) : Nat :=
  if columns ≤ 1 && all.length ≤ 1 then 1
  else
    let size (c : Counted) : Nat := if c.isSized then (c.contents.toOption.getD []).length else 0
    let digits := (digitsOf (all.map size).sum).length
    if all.any fun c => c.contents.isOk && !c.isSized then max unsizedWidth digits else digits

def writeCounts (program : Raw) (letters : List Char) (all : List Counted) : Effect :=
  let countsOf (c : Counted) : Option Counts := (c.contents.map Counts.of).toOption
  let sums : Counts := (all.filterMap countsOf).foldl Counts.add ⟨0, 0, 0, 0⟩
  let width := countWidth (sums.chosen letters).length all
  let one (c : Counted) : Effect :=
    match c.contents with
    | .ok text => .printing (countLine width ((Counts.of text).chosen letters) c.name)
    | .error fault =>
      .failing (program.toText ++ ": " ++ (quoteName (c.name.getD ['-'])).toText ++ ": " ++
        fault.text) 1
  let sum : Effect :=
    if 1 < all.length then
      .printing (countLine width (sums.chosen letters) (some "total".toList))
    else .silent 0
  (all.foldr (fun c rest => (one c).followedBy rest) (.silent 0)).followedBy sum

/-- A duration in milliseconds: a number of seconds, minutes, hours or days. -/
def duration? (cs : Raw) : Option Nat :=
  let whole := cs.takeWhile Char.isDigit
  let (fraction, rest) :=
    match cs.drop whole.length with
    | '.' :: rest => (rest.takeWhile Char.isDigit, rest.dropWhile Char.isDigit)
    | rest => ([], rest)
  let unit? : Option Nat :=
    match rest with
    | [] | ['s'] => some 1000
    | ['m'] => some 60000
    | ['h'] => some 3600000
    | ['d'] => some 86400000
    | _ => none
  if whole.isEmpty && fraction.isEmpty then none
  else unit?.map fun unit => naturalOf (whole ++ fraction) * unit / 10 ^ fraction.length

def Effect.marked (e : Effect) (start : Raw) : Effect :=
  let markAll (text : Raw) : Raw :=
    ((text.splitBy fun a _ => a != '\n').map fun line => start ++ line).flatten
  { e with writings := e.writings.map fun w => (w.1, if w.1 = 2 then markAll w.2 else w.2) }

namespace Act

def desk : Act Desk := do
  let directory := (← get).directory
  observe fun s _ => ⟨s.files, directory⟩

/-- The commands that write what a program of the same name would write. -/
def innerProgram? (name : String) (words : List Raw) : Option (Desk → Effect) :=
  match name with
  | "true" | ":" => some fun _ => .silent 0
  | "false" => some fun _ => .silent 1
  | "echo" => some fun _ => echoBuiltin words
  | "test" => some fun d => test name d words
  | "[" => some fun d => testBracketed d words
  | _ => none

def runInner (effect : Desk → Effect) : Act Unit := do
  let start := complaintStart (← get)
  applyInner ((effect (← desk)).marked start)

def applyOuter (name : Raw) (e : Effect) : Act Unit :=
  apply (fun reason => name ++ Raw.ofString (": write error: " ++ reason ++ "\n")) e

def heeding (known : String) (name : Raw) (words : List Raw)
    (act : List Char → List Raw → Act Unit) : Act Unit :=
  match readCall known words with
  | .ok (letters, operands) => act letters operands
  | .error fault => applyOuter name (misuse name fault)

/-- Does the same to each of several operands. The status is zero if all went well. -/
def forAll (operands : List Raw) (act : Raw → Act Bool) : Act Unit := do
  let isFine ← operands.foldlM (fun isFine operand => return (← act operand) && isFine) true
  setStatus (if isFine then 0 else 1)

def reading {α : Type} (path : Raw) (refuse : FileFault → Act α) (act : Nat → Act α) : Act α := do
  if path = ['-'] then act 0
  else
    let descriptor ← observe fun s process => s.freeDescriptor process
    match ← openAt descriptor path ⟨true, false, false⟩ false with
    | some fault => refuse fault
    | none =>
      let a ← act descriptor
      alter fun s process => s.close process descriptor
      return a

def readingFault (descriptor : Nat) : Act FileFault :=
  observe fun s process =>
    if s.channel? process descriptor = some .directory then .isDirectory else .notOpen

/-- Copies from a descriptor to the output. Returns what went wrong in reading or in writing. -/
def copy (fuel : Nat) (descriptor : Nat) : Act (Except String (Option FileFault)) := do
  match fuel with
  | 0 => never
  | fuel + 1 =>
    match ← receive descriptor List.length with
    | none => return .ok (some (← readingFault descriptor))
    | some [] => return .ok none
    | some text =>
      match (← write 1 text).fault? with
      | none => copy fuel descriptor
      | some fault => return .error fault

/-- Whether a descriptor leads into the file that the output leads into, and has not been read to
its end. -/
def readsOutput (descriptor : Nat) : Act Bool :=
  observe fun s process =>
    match s.channel? process descriptor, (s.channel? process 1).bind Channel.place? with
    | some (.file place offset _), some target =>
      place == target && decide (offset < (s.contentsOf place).length)
    | _, _ => false

/-- Copies files to the output, one after the other. A file is not copied to its own end. -/
def cat (fuel : Nat) (name : Raw) (words : List Raw) : Act Unit :=
  heeding "u" name words fun _ operands => do
    let complain (path : Raw) (reason : String) : Act Bool := do
      say (name ++ ": ".toList ++ quoteName path ++ Raw.ofString (": " ++ reason ++ "\n"))
      return false
    forAll (if operands.isEmpty then [['-']] else operands) fun path =>
      reading path (complain path ·.text) fun descriptor => do
        if ← readsOutput descriptor then complain path "input file is output file"
        else
          match ← copy fuel descriptor with
          | .ok none => return true
          | .ok (some fault) => complain path fault.text
          | .error fault =>
            say (name ++ Raw.ofString (": write error: " ++ fault ++ "\n"))
            return false

def readCounted (fuel : Nat) (path : Raw) : Act Counted :=
  reading path (fun fault => return ⟨some path, .error fault, false⟩) fun descriptor => do
    let place? ← observe fun s process => (s.channel? process descriptor).bind Channel.place?
    match ← receiveAll fuel descriptor with
    | some text => return ⟨some path, .ok text, place?.isSome⟩
    | none => return ⟨some path, .error (← readingFault descriptor), place?.isSome⟩

def wc (fuel : Nat) (name : Raw) (words : List Raw) : Act Unit :=
  heeding "clmw" name words fun letters operands => do
    let all ←
      if operands.isEmpty then do pure [{ ← readCounted fuel ['-'] with name := none }]
      else operands.mapM (readCounted fuel)
    applyOuter name (writeCounts name letters all)

def sleep (name : Raw) (words : List Raw) : Act Unit :=
  heeding "" name words fun _ operands => do
    match operands, operands.find? fun w => (duration? w).isNone with
    | [], _ => applyOuter name (misuse name "missing operand".toList)
    | _, some bad =>
      let quoted := Raw.ofString "‘" ++ bad ++ Raw.ofString "’"
      applyOuter name (misuse name ("invalid time interval ".toList ++ quoted))
    | operands, none =>
      pause (operands.filterMap duration?).sum
      setStatus 0

def refuseFile (name : Raw) (complaint : Raw) (fault : String) : Act Bool := do
  say (name ++ ": ".toList ++ complaint ++ Raw.ofString (": " ++ fault ++ "\n"))
  return false

/-- Removes files, and directories with all that is in them if that is asked for. If it is forced,
it is no fault that a file is missing. -/
def rm (name : Raw) (words : List Raw) : Act Unit :=
  heeding "fRr" name words fun letters operands => do
    let isForced := letters.contains 'f'
    let isDeep := letters.contains 'r' || letters.contains 'R'
    if operands.isEmpty && !isForced then applyOuter name (misuse name "missing operand".toList)
    else
      forAll operands fun path => do
        let refuse (fault : FileFault) : Act Bool :=
          refuseFile name ("cannot remove ".toList ++ quoteAlways path) fault.text
        let d ← desk
        match d.target path with
        | .error fault =>
          if isForced && fault != .nameTooLong then return true
          else refuse (if fault = .isDirectory then .missing else fault)
        | .ok (.directory place) =>
          if !isDeep then refuse .isDirectory
          else
            alter fun s _ => { s with files := s.files.eraseDirectory place }
            return true
        | .ok (.entry place) =>
          if (d.files.contents? place).isSome then
            alter fun s _ => { s with files := s.files.erase place }
            return true
          else if isForced then return true
          else refuse .missing

/-- Gives a path another name. Returns whether that was possible. -/
def rename (name source target : Raw) : Act Bool := do
  let d ← desk
  let unseen (fault : FileFault) : Act Bool :=
    refuseFile name ("cannot stat ".toList ++ quoteAlways source) fault.text
  let unmoved (fault : FileFault) : Act Bool :=
    refuseFile name
      ("cannot move ".toList ++ quoteAlways source ++ " to ".toList ++ quoteAlways target)
      fault.text
  let move (place : Place) : Act Bool := do
    match d.target target with
    | .ok (.entry goal) =>
      if goal = place then
        say (name ++ ": ".toList ++ quoteAlways source ++ " and ".toList ++ quoteAlways target ++
          " are the same file\n".toList)
        return false
      else
        alter fun s _ => s.rename place goal
        return true
    | .ok (.directory _) => unmoved .isDirectory
    | .error .isDirectory => unmoved .notDirectory
    | .error fault => unmoved fault
  match d.target source with
  | .error fault => unseen (if fault = .isDirectory then .missing else fault)
  | .ok (.directory place) => move place
  | .ok (.entry place) =>
    if (d.files.contents? place).isSome then move place else unseen .missing

def mv (name : Raw) (words : List Raw) : Act Unit :=
  heeding "f" name words fun _ operands => do
    let target := operands.getLastD []
    let lastName (path : Raw) : Raw := (path.reverse.takeWhile (· != '/')).reverse
    match operands, (← desk).target target with
    | [], _ => applyOuter name (misuse name "missing file operand".toList)
    | [source], _ =>
      applyOuter name (misuse name
        ("missing destination file operand after ".toList ++ quoteAlways source))
    | operands, .ok (.directory _) =>
      forAll operands.dropLast fun source =>
        rename name source (target ++ '/' :: lastName source)
    | [source, target], _ => forAll [source] fun source => rename name source target
    | _, _ => forAll [target] fun target =>
        refuseFile name ("target ".toList ++ quoteAlways target) FileFault.notDirectory.text

def runProgram (fuel : Nat) (name : Raw) (words : List Raw) : Act Unit := do
  match programName name.toText with
  | "true" => setStatus 0
  | "false" => setStatus 1
  | "echo" => applyOuter name (echoProgram false true words)
  | "printf" =>
    applyOuter name (printf (if words.head? = some ['-', '-'] then words.tail else words))
  | "test" => applyOuter name (test "test" (← desk) words)
  | "[" => applyOuter name (testBracketed (← desk) words)
  | "cat" => cat fuel name words
  | "wc" => wc fuel name words
  | "sleep" => sleep name words
  | "mv" => mv name words
  | "rm" => rm name words
  | _ => setStatus 127

end Act

end SyntaxDrawing.Shell
