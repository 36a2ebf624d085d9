import SyntaxDrawing.Shell.Program

/-!
# What the shell does itself

Commands that act on the shell: they leave loops, functions or the shell, set parameters and traps,
change the directory, read lines, send signals and wait for processes.
-/

namespace SyntaxDrawing.Shell.Act

def leave (leaving : Leaving) (words : List Raw) : Act Unit := do
  match words with
  | [] => pure ()
  | word :: _ => setStatus ((← naturalArgument word) % 256)
  throw leaving

def leaveLoops (leaving : Nat → Leaving) (words : List Raw) : Act Unit := do
  let levels ← naturalArgument (words.headD ['1'])
  if levels = 0 then abort ("Illegal number: ".toList ++ words.headD [])
  let loops := (← get).loops
  setStatus 0
  if loops != 0 then throw (leaving (min loops levels))

def setParameters (words : List Raw) : Act Unit := do
  change fun c => { c with parameters := words }
  setStatus 0

def shift (words : List Raw) : Act Unit := do
  let n ← naturalArgument (words.headD ['1'])
  let c ← get
  if c.parameters.length < n then abort "can't shift that many".toList
  else setParameters (c.parameters.drop n)

def setOptions (words : List Raw) : Act Unit := do
  let s := (Setting.start (← get).options).read false true 0 words
  change fun c => { c with options := s.options }
  match s.fault with
  | some fault => abort fault
  | none => if s.isMarked || !s.words.isEmpty then setParameters s.words else setStatus 0

def splitAssignment (word : Raw) : Act (Raw × Option Raw) := do
  let name := word.takeWhile (· != '=')
  let value? :=
    match word.dropWhile (· != '=') with
    | [] => none
    | _ :: value => some value
  if isName name then return (name, value?)
  else abort (name ++ ": bad variable name".toList)

def assignAll (act : Context → Raw → Context) (words : List Raw) : Act Unit := do
  for word in words do
    let (name, value?) ← splitAssignment word
    change fun c => act c name
    match value? with
    | some value => change fun c => c.assign name value
    | none => pure ()
  setStatus 0

def exportAll (words : List Raw) : Act Unit := do
  let (_, words) ← takeOptions "p" words
  assignAll (fun c name => { c with exported := name :: c.exported }) words

def makeLocal (words : List Raw) : Act Unit := do
  if (← get).frames.isEmpty then abort "not in a function".toList
  assignAll Context.keep words

def unset (words : List Raw) : Act Unit := do
  let (letters, words) ← takeOptions "vf" words
  if letters.getLast? = some 'f' then
    change fun c => { c with functions := c.functions.filter fun f => !words.contains f.1 }
    setStatus 0
  else
    let forget (c : Context) (name : Raw) : Context :=
      { c.restore name none with exported := c.exported.filter (· != name) }
    assignAll forget words

def changeDirectory (words : List Raw) : Act Unit := do
  let (_, words) ← takeOptions "LP" words
  let c ← get
  let valueOf (name : String) : Raw := (c.bindings.lookup name.toList).getD []
  let (path, isBack) :=
    match words with
    | [] => (valueOf "HOME", false)
    | ['-'] :: _ => (valueOf "OLDPWD", true)
    | path :: _ => (path, false)
  let path := if path.isEmpty then ['.'] else path
  match (← desk).target path with
  | .ok (.directory directory) =>
    change fun c =>
      ({ c with directory }.assign "OLDPWD".toList (pathOf c.directory)).assign "PWD".toList
        (pathOf directory)
    if isBack then print (pathOf directory ++ ['\n']) else setStatus 0
  | _ => abort ("can't cd to ".toList ++ path)

abbrev Shared : Type :=
  List (Char × Bool)

/-- Shares a line out among variables; the last of them gets all that remains. Blanks that separate
count once, and are left out at both ends. -/
def shareOut (separators : Raw) (line : Shared) : List Raw → List (Raw × Raw)
  | [] => []
  | [name] => [(name, (lastOf (line.dropWhile isBlank)).map (·.1))]
  | name :: names =>
    let line := line.dropWhile isBlank
    let isInside (a : Char × Bool) : Bool := !separates a
    let rest := (line.dropWhile isInside).dropWhile isBlank
    let rest :=
      match (line.dropWhile isInside).head?.any isBlank, rest with
      | true, a :: more => if separates a then more else rest
      | false, _ :: more => more
      | _, [] => []
    (name, (line.takeWhile isInside).map (·.1)) :: shareOut separators rest names
where
  separates (a : Char × Bool) : Bool := a.2 && separators.contains a.1
  isBlank (a : Char × Bool) : Bool :=
    separates a && (a.1 == ' ' || a.1 == '\t' || a.1 == '\n')
  /-- One separator at the end of a single last field is left out with the blanks around it. -/
  lastOf (line : Shared) : Shared :=
    let trimmed := (line.reverse.dropWhile isBlank).reverse
    match trimmed.reverse with
    | a :: before =>
      if separates a && !before.any separates then (before.dropWhile isBlank).reverse else trimmed
    | [] => []

/-- Takes a line off the input, with its ends joined where a backslash stands in front of them.
Returns whether it was ended. -/
def takeLine (fuel : Nat) (isRaw : Bool) (escaped : Bool) : Act (Shared × Bool) := do
  match fuel with
  | 0 => never
  | fuel + 1 =>
    let upToLine (available : Raw) : Nat :=
      min available.length ((available.takeWhile (· != '\n')).length + 1)
    match ← receive 0 upToLine with
    | none | some [] => return ([], false)
    | some text =>
      let (line, escaped, isEnded) := readEscapes isRaw escaped (text.filter (· != '\x00'))
      if isEnded then return (line, true)
      else
        let (more, isEnded) ← takeLine fuel isRaw escaped
        return (line ++ more, isEnded)
where
  /-- A character behind a backslash does not separate. -/
  readEscapes (isRaw escaped : Bool) : Raw → Shared × Bool × Bool
    | [] => ([], escaped, false)
    | c :: cs =>
      if escaped then
        let (rest, state) := readEscapes isRaw false cs
        (if c = '\n' then rest else (c, false) :: rest, state)
      else if c = '\\' && !isRaw then readEscapes isRaw true cs
      else if c = '\n' then ([], false, true)
      else
        let (rest, state) := readEscapes isRaw false cs
        ((c, true) :: rest, state)

/-- Reads a line of the input. One without a line break is the last. -/
def readInput (fuel : Nat) (words : List Raw) : Act Unit := do
  let (letters, words) ← takeOptions "r" words
  if words.isEmpty then abort "arg count".toList
  let (line, isEnded) ← takeLine fuel (letters.contains 'r') false
  for (word, value) in shareOut (← get).separators line words do
    let (name, _) ← splitAssignment word
    change fun c => c.assign name value
  setStatus (if isEnded then 0 else 1)

/-- Sends a signal to processes. What a number below zero stands for is no group of processes. -/
def signalAll (signal : Nat) (targets : List Raw) : Act Unit := do
  setStatus 0
  for word in targets do
    let target? ←
      match word with
      | '-' :: word => do
        let _ ← naturalArgument word
        pure none
      | ['0'] => do pure (some (← get).number)
      | word => do pure (some (← naturalArgument word))
    let isThere ← answering fun s _ =>
      match target?.bind fun target => s.signal target signal with
      | some s => (true, s)
      | none => (false, s)
    if !isThere then warn "No such process\n".toList 1

def killUsage : Raw :=
  ("Usage: kill [-s sigspec | -signum | -sigspec] [pid | job]... or\n" ++
    "kill -l [exitstatus]").toList

def kill (words : List Raw) : Act Unit := do
  let (signal, targets) ←
    match words with
    | ['-', '-'] :: targets => pure (Signal.terminate, targets)
    | ['-', 's'] :: name :: targets =>
      match Signal.ofWord? name with
      | some signal => pure (signal, targets)
      | none => abort ("invalid signal number or name: ".toList ++ name)
    | ('-' :: name) :: targets =>
      match Signal.ofWord? name with
      | some signal => pure (signal, targets)
      | none => abort ("Illegal option -".toList ++ name.take 1)
    | targets => pure (Signal.terminate, targets)
  if targets.isEmpty then abort killUsage else signalAll signal targets

def setTraps (action : Option Raw) (words : List Raw) : Act Unit := do
  match words with
  | [] => setStatus 0
  | word :: words =>
    match Signal.ofWord? word with
    | none =>
      say ("trap: ".toList ++ word ++ ": bad trap\n".toList)
      setStatus 1
    | some n =>
      let others := (← get).traps.filter fun t => t.1 != n
      let own := (action.map fun action => (n, action)).toList
      change fun c => { c with traps := own ++ others }
      if n != 0 then dispose n action
      setTraps action words

def trap (words : List Raw) : Act Unit := do
  match (← takeOptions "" words).2 with
  | [] => setStatus 0
  | [word] => setTraps none [word]
  | ['-'] :: words => setTraps none words
  | action :: words =>
    if (Signal.ofNumber? action).isSome then setTraps none (action :: words)
    else setTraps (some action) words

def waitFor (process : Nat) : Act Unit := do
  wait fun s own => !s.isLive process || (s.process? own).any (!·.pending.isEmpty)
  let (ending?, signal?) ← observe fun s own =>
    (s.endings.lookup process, (s.process? own).bind (·.pending.head?))
  match ending?, signal? with
  | none, some signal => setStatus (Signal.status signal)
  | none, none => setStatus 0
  | some ending, _ => setStatus (statusOf ending)

def waitJobs (words : List Raw) : Act Unit := do
  match (← takeOptions "" words).2 with
  | [] =>
    for process in (← get).jobs.reverse do waitFor process
    setStatus 0
  | words =>
    for word in words do
      let process ← naturalArgument word
      if (← get).jobs.contains process then waitFor process else setStatus 127

def builtin? (fuel : Nat) (name : String) (words : List Raw) : Option (Act Unit) :=
  match name with
  | "exit" => some (leave .exit words)
  | "return" => some (leave .function words)
  | "break" => some (leaveLoops .loop words)
  | "continue" => some (leaveLoops .round words)
  | "set" => some (setOptions words)
  | "shift" => some (shift words)
  | "export" => some (exportAll words)
  | "local" => some (makeLocal words)
  | "unset" => some (unset words)
  | "cd" => some (changeDirectory words)
  | "pwd" => some do print (pathOf (← get).directory ++ ['\n'])
  | "read" => some (readInput fuel words)
  | "kill" => some (kill words)
  | "trap" => some (trap words)
  | "wait" => some (waitJobs words)
  | "printf" => some do
    let (_, words) ← takeOptions "" words
    runInner fun _ => printf words
  | _ => (innerProgram? name words).map runInner

end SyntaxDrawing.Shell.Act
