import SyntaxDrawing.Shell.Reader
import SyntaxDrawing.Shell.System

/-!
# What a shell knows

The state of a shell, and the options with which it is called or which it sets. A process that it
starts for a part of its script has a copy of its state.
-/

namespace SyntaxDrawing.Shell

def optionNames : List (String × Char) :=
  [("errexit", 'e'), ("noglob", 'f'), ("noexec", 'n'), ("nounset", 'u'), ("stdin", 's'),
    ("xtrace", 'x')]

abbrev Options : Type :=
  List Char

def Options.set (o : Options) (isOn : Bool) (letter : Char) : Options :=
  let others := List.filter (· != letter) o
  if isOn then letter :: others else others

/-- What the words behind the name of a shell come to, or those behind the command that sets
options: they may ask for a script among the words (`isScript`). The words that are left are
parameters, also if there are none where it `isMarked`. -/
structure Setting where
  options : Options
  isScript : Bool
  words : List Raw
  isMarked : Bool
  fault : Option Raw

namespace Setting

def start (o : Options) : Setting :=
  ⟨o, false, [], false, none⟩

def refuse (s : Setting) (option : Raw) : Setting :=
  { s with fault := some ("Illegal option -".toList ++ option) }

/-- Heeds the letters behind a sign, up to the first that is refused. Returns how many names they
ask for. -/
def readLetters (isCall isOn : Bool) (s : Setting) : List Char → Setting × Nat
  | [] => (s, 0)
  | letter :: letters =>
    if letter = 'o' then
      let (s, names) := s.readLetters isCall isOn letters
      (s, names + 1)
    else if isCall && letter = 'c' then
      { s with isScript := true }.readLetters isCall isOn letters
    else if optionNames.any (·.2 == letter) then
      { s with options := s.options.set isOn letter }.readLetters isCall isOn letters
    else (s.refuse [letter], 0)

/-- Reads words: those that set options, of which the next ones are `names` if letters have asked
for them, and those that are left. -/
def read (isCall isOn : Bool) (names : Nat) (s : Setting) : List Raw → Setting
  | [] => s
  | word :: words =>
    match names, word with
    | names + 1, word =>
      match optionNames.lookup word.toText with
      | some letter =>
        { s with options := s.options.set isOn letter }.read isCall isOn names words
      | none => s.refuse ("o ".toList ++ word)
    | 0, ['-', '-'] => { s with words, isMarked := true }
    | 0, ['-'] => { s with words }
    | 0, sign :: letters =>
      if sign = '-' || sign = '+' then
        let (s, names) := s.readLetters isCall (sign == '-') letters
        if s.fault.isSome then s else s.read isCall (sign == '-') names words
      else { s with words := word :: words }
    | 0, [] => { s with words := word :: words }

end Setting

/-- `number` is the number that a shell calls its own, and `process` that of the process that it
runs in, which may be a copy of the shell.

`isLast` says that nothing is left to do for the process behind the command under way, and
`guarded` that a failure is expected. Complaints are made on `line`, in the name of the `command`
that the shell is busy with. Each function that the shell is in has one of the `frames`, the
innermost first: the values that its own variables had before. The processes that have been started
in the background and not been waited for are its `jobs`, and `background` is the last of all that
were started. `captured` is the status of what was captured last. `texts` have been announced, and
stand `below` lines. -/
structure Context where
  number : Nat
  process : Nat
  directory : Place
  bindings : List (Raw × Raw)
  exported : List Raw
  functions : List (Raw × Command)
  below : List (Nat × Word)
  texts : Nat
  frames : List (List (Raw × Option Raw))
  title : Raw
  parameters : List Raw
  options : Options
  guarded : Bool
  loops : Nat
  isLast : Bool
  traps : List (Nat × Raw)
  jobs : List Nat
  background : Option Nat
  line : Nat
  command : Option Raw
  status : Nat
  captured : Nat

def pathOf (place : Place) : Raw :=
  Raw.ofString ("/" ++ "/".intercalate place)

namespace Context

def start (process : Nat) (directory : Place) (environment : List (Raw × Raw)) : Context :=
  { number := process
    process
    directory
    bindings := environment
    exported := environment.map (·.1)
    functions := []
    below := []
    texts := 0
    frames := []
    title := "sh".toList
    parameters := []
    options := []
    guarded := false
    loops := 0
    isLast := true
    traps := []
    jobs := []
    background := none
    line := 1
    command := none
    status := 0
    captured := 0 }

def assign (c : Context) (name value : Raw) : Context :=
  { c with bindings := assignTo name value c.bindings }

def restore (c : Context) (name : Raw) : Option Raw → Context
  | some value => c.assign name value
  | none => { c with bindings := c.bindings.filter fun b => b.1 != name }

def leave (c : Context) : Context :=
  match c.frames with
  | [] => c
  | shadowed :: frames => shadowed.foldl (fun c v => c.restore v.1 v.2) { c with frames }

def unwind (c : Context) (depth : Nat) : Context :=
  Nat.repeat leave (c.frames.length - depth) c

def keep (c : Context) (name : Raw) : Context :=
  match c.frames with
  | [] => c
  | shadowed :: frames =>
    { c with frames := ((name, c.bindings.lookup name) :: shadowed) :: frames }

def hasTraps (c : Context) : Bool :=
  c.traps.any fun t => !t.2.isEmpty

/-- The context of a process that a shell starts for a part of its script. Of the traps it keeps
those that ignore a signal. -/
def fork (c : Context) (process : Nat) : Context :=
  { c with
    process
    isLast := true
    traps := c.traps.filter fun t => t.2.isEmpty && t.1 != 0
    jobs := [] }

def separators (c : Context) : Raw :=
  (c.bindings.lookup "IFS".toList).getD [' ', '\t', '\n']

/-- What stands between the parameters where they are expanded all at once: a zero if they become
fields of their own, and otherwise the first separator. -/
def mark (c : Context) (name : Raw) (isQuoted isSplit : Bool) : Raw :=
  let areFields := isSplit && (!isQuoted || name == ['@'])
  match c.bindings.lookup "IFS".toList with
  | none => if areFields && isQuoted then ['\x00'] else [' ']
  | some separators => if areFields then ['\x00'] else separators.take 1

/-- A parameter's value, if it is set; `mark` stands between parameters. -/
def value? (c : Context) (mark : Raw) (name : Raw) : Option Raw :=
  match name with
  | ['0'] => some c.title
  | ['#'] => some (digitsOf c.parameters.length)
  | ['?'] => some (digitsOf c.status)
  | ['$'] => some (digitsOf c.number)
  | ['-'] => some ((optionNames.map (·.2)).filter c.options.contains)
  | ['!'] => c.background.map digitsOf
  | ['@'] | ['*'] => some (mark.intercalate c.parameters)
  | name =>
    if name.all Char.isDigit then c.parameters[naturalOf name - 1]? else c.bindings.lookup name

end Context

end SyntaxDrawing.Shell
