import SyntaxDrawing.Shell.Arithmetic
import SyntaxDrawing.Shell.Builtin
import SyntaxDrawing.Shell.Field
import SyntaxDrawing.Shell.Redirect

/-!
# Running scripts

Words are expanded and commands performed by a process that runs a shell. Every command inside of
another, every line of a script and every round of a loop takes one unit of fuel; a process without
fuel never goes on.
-/

namespace SyntaxDrawing.Shell

open Act

/-- How a shell is called: with a script, with a file that holds one, or with neither. -/
inductive Call
  | script (text : Raw)
  | file (path : Raw)
  | input
  deriving DecidableEq

structure Launch where
  call : Call
  title : Raw
  parameters : List Raw
  options : Options

/-- Reads the arguments of a shell of some name. A script takes its title from the argument behind
it. -/
def Launch.ofWords (shell : Raw) (words : List Raw) : Except Raw Launch :=
  let s := (Setting.start []).read true true 0 words
  match s.fault, s.isScript, s.words with
  | some fault, _, _ => .error fault
  | none, true, [] => .error "-c requires an argument".toList
  | none, true, word :: words => .ok ⟨.script word, words.headD shell, words.tail, s.options⟩
  | none, false, word :: words =>
    if s.options.contains 's' then .ok ⟨.input, shell, word :: words, s.options⟩
    else .ok ⟨.file word, word, words, s.options⟩
  | none, false, [] => .ok ⟨.input, shell, [], s.options.set true 's'⟩

/-- The context of a new shell: of its surroundings it knows what they hand down. -/
def Context.launch (c : Context) (parent : Nat) (l : Launch) : Context :=
  let bindings := c.bindings.filter fun b => c.exported.contains b.1
  let own : List (Raw × Raw) :=
    [("IFS".toList, [' ', '\t', '\n']), ("PPID".toList, digitsOf parent),
      ("PS4".toList, ['+', ' ']), ("PWD".toList, pathOf c.directory)]
  let c := Context.start c.process c.directory (own.foldl (fun b v => assignTo v.1 v.2 b) bindings)
  { c with
    exported := "PWD".toList :: bindings.map (·.1)
    title := l.title
    parameters := l.parameters
    options := l.options }

def trace (aside : Aside) (assignments : List (Raw × Raw)) (fields : List Raw) : Act Unit := do
  let c ← get
  if c.options.contains 'x' then
    let words := assignments.map (fun a => a.1 ++ '=' :: a.2) ++ fields
    let mark := (c.bindings.lookup "PS4".toList).getD []
    let descriptor := ((aside.lookup 2).getD none).getD 2
    let _ ← write descriptor (mark ++ joinWords words ++ ['\n'])

/-- A parameter's value, if it is set. In a shell whose parameters have to be set, one that is not
is a fault. -/
def demand (mark name : Raw) : Act (Option Raw) := do
  let c ← get
  match c.value? mark name with
  | some value => return some value
  | none =>
    if c.options.contains 'u' then abort (name ++ ": parameter not set".toList) else return none

def findsPrograms (c : Context) : Bool :=
  let isMeant (d : Raw) : Bool := ["/bin", "/usr/bin", "/bin/", "/usr/bin/"].contains d.toText
  (c.bindings.lookup "PATH".toList).any fun path => (path.splitOn ':').any isMeant

/-- Why a name stands for no program, if it stands for none. -/
def refusal? (name : Raw) : Act (Option (String × Nat)) := do
  let c ← get
  let d ← desk
  if name.contains '/' then
    match d.target name with
    | .ok (.entry place) =>
      if Files.programPlaces.contains place && programs.contains (place.getLastD "") then
        return none
      else if Condition.isThere d name then return some ("Permission denied", 126)
      else return some ("not found", 127)
    | .ok (.directory _) => return some ("Permission denied", 126)
    | .error _ => return some ("not found", 127)
  else if !findsPrograms c then return some ("not found", 127)
  else if name.isEmpty || name = ['.'] || name = ['.', '.'] then
    return some ("Permission denied", 127)
  else if programs.contains name.toText then return none
  else return some ("not found", 127)

def locate (name : Raw) : Act Unit := do
  let c ← get
  let text := name.toText
  let isOwn := (c.functions.lookup name).isSome || specialBuiltins.contains text ||
    text = "command" || (builtin? 0 text []).isSome
  if isOwn then print (name ++ ['\n'])
  else if (← refusal? name).isSome then setStatus 127
  else print ((if name.contains '/' then name else "/usr/bin/".toList ++ name) ++ ['\n'])

/-- Acts as a command of the shell. If it fails, the command fails and the shell goes on. -/
def catching (act : Act Unit) : Act Unit := do
  let depth := (← get).frames.length
  try act
  catch
    | .failed => change fun c => c.unwind depth
    | leaving => throw leaving

def move (source target : Nat) : Act Unit :=
  alter fun s process => (s.duplicate process source target).close process source

def takeSignals : Act (List Nat) := do
  let pending ← observe fun s process => ((s.process? process).map (·.pending)).getD []
  if !pending.isEmpty then
    alter fun s process => s.changeProcess process ({ · with pending := [] })
  return pending

def functionLimit : Nat := 1000

mutual
/-- Expands the parts of a word; `isSplit` says that it is going to be split into fields. -/
def expand (fuel : Nat) (isSplit : Bool) (word : Word) : Act (List Piece) :=
  match fuel with
  | 0 => never
  | fuel + 1 => do
    let mut pieces : List (List Piece) := []
    for part in word do
      let more ←
        match part with
        | .plain c => pure [Piece.plain c]
        | .quoted text => pure [Piece.fixed text]
        | .expansion e isQuoted => expandOne fuel isSplit isQuoted e
      pieces := more :: pieces
    return pieces.reverse.flatten

def expandText (fuel : Nat) (word : Word) : Act Raw :=
  match fuel with
  | 0 => never
  | fuel + 1 => do return (← expand fuel false word).flatMap Piece.text

def expandOne (fuel : Nat) (isSplit isQuoted : Bool) (e : Expansion) : Act (List Piece) :=
  match fuel with
  | 0 => never
  | fuel + 1 => do
    let pieces (text : Raw) : List Piece :=
      if !isQuoted then [.loose text] else if text.isEmpty then [] else [.fixed text]
    let piecesOf (c : Context) (name text : Raw) : List Piece :=
      if name = ['@'] && isQuoted && isSplit && !c.parameters.isEmpty then [.items text]
      else pieces text
    match e with
    | .malformed => abort "Bad substitution".toList
    | .parameter name =>
      let c ← get
      match ← demand (c.mark name isQuoted isSplit) name with
      | some value => return piecesOf c name value
      | none => return []
    | .length name =>
      let c ← get
      let value ← demand (c.mark name isQuoted isSplit) name
      return pieces (digitsOf (value.getD []).length)
    | .output script => return pieces (← capture fuel script)
    | .arithmetic word =>
      let text ← expandText fuel word
      let c ← get
      match Arithmetic.evaluate (fun name => (c.value? [] name).getD []) text with
      | .ok n => return pieces (Raw.ofString (toString n))
      | .error fault => abort (fault.message text)
    | .modified name m orEmpty word =>
      let c ← get
      let mark := c.mark name isQuoted isSplit
      let value := c.value? mark name
      let isMissing := value.isNone || (orEmpty && value == some [])
      let given := piecesOf c name (value.getD [])
      let replaced : Act (List Piece) := do
        let pieces ← expand fuel isSplit word
        return if isQuoted then pieces else Piece.loosen pieces
      match m with
      | .orElse => if isMissing then replaced else return given
      | .insteadOf => if isMissing then return [] else replaced
      | .assigning =>
        if isMissing then
          let text ← expandText fuel word
          change fun c => c.assign name text
          return pieces text
        else return given
      | .failing =>
        if isMissing then
          let text ←
            if !word.isEmpty then expandText fuel word
            else
              pure ("parameter not set".toList ++ if orEmpty then " or null".toList else [])
          abort (name ++ ": ".toList ++ text)
        else return given
      | .withoutStart longest =>
        let value ← demand mark name
        let pattern ← expand fuel false word
        return piecesOf c name (trimStart longest (pattern.flatMap Piece.pattern) (value.getD []))
      | .withoutEnd longest =>
        let value ← demand mark name
        let pattern ← expand fuel false word
        return piecesOf c name (trimEnd longest (pattern.flatMap Piece.pattern) (value.getD []))

/-- What a script prints, without the line breaks at its end. It is read until nobody can write any
more. -/
def capture (fuel : Nat) (script : Command) : Act Raw :=
  match fuel with
  | 0 => never
  | fuel + 1 => do
    match script with
    | .sequence [] => return []
    | script =>
      let status := (← get).status
      let (source, target) ← answering fun s process => s.openPipe process
      let child ← spawn do
        alter fun s process => s.close process source
        move target 1
        change fun c => { c with guarded := false }
        performShell fuel (perform fuel script)
      alter fun s process => s.close process target
      let output := ((← receiveAll fuel source).getD []).filter (· != '\x00')
      alter fun s process => s.close process source
      await child
      change fun c => { c with captured := c.status, status }
      return (output.reverse.dropWhile (· == '\n')).reverse

/-- The fields of a word: it is split, and stands for the paths that it fits. -/
def expandWord (fuel : Nat) (word : Word) : Act (List Raw) :=
  match fuel with
  | 0 => never
  | fuel + 1 => do
    let pieces ← expand fuel true word
    let c ← get
    let patterns := fieldsOf c.separators pieces
    if c.options.contains 'f' || !patterns.any Pattern.isOpen then return patterns.map Pattern.text
    else
      let files ← observe fun s _ => s.files
      return patterns.flatMap fun p => p.words files c.directory

/-- The fields of words. To a command that assigns, what looks like an assignment is one field. -/
def expandFields (fuel : Nat) (done : List Raw) (words : List Word) : Act (List Raw) :=
  match fuel with
  | 0 => never
  | fuel + 1 => do
    match words with
    | [] => return done
    | word :: words =>
      let isAssigning := done.head?.any fun name => ["export", "local"].contains name.toText
      let fields ←
        match if isAssigning then assignment? word else none with
        | some (name, value) => pure [name ++ '=' :: (← expandText fuel value)]
        | none => expandWord fuel word
      expandFields fuel (done ++ fields) words

def assignInOrder (fuel : Nat) (assignments : List (Raw × Word)) : Act (List (Raw × Raw)) :=
  match fuel with
  | 0 => never
  | fuel + 1 => do
    let mut done : List (Raw × Raw) := []
    for (name, word) in assignments do
      let value ← expandText fuel word
      change fun c => c.assign name value
      done := done ++ [(name, value)]
    return done

def expandTargets (fuel : Nat) (redirections : List Redirection) : Act (List Turnout) :=
  match fuel with
  | 0 => never
  | fuel + 1 => do
    let mut done : List Turnout := []
    for r in redirections do
      match r with
      | .text descriptor number =>
        let text := ((← get).below.lookup number).getD []
        done := .text descriptor (expandText fuel text) :: done
      | .mk descriptor direction word =>
        let target ← expandText fuel word
        let isNumber := target.length = 1 && target.all Char.isDigit
        if direction = .duplicate && !isNumber && target != ['-'] then
          abort "Syntax error: Bad fd number".toList
        done := .path descriptor direction target :: done
    return done.reverse

def performSimple (fuel : Nat) (line : Nat) (assignments : List (Raw × Word))
    (words : List Word) (redirections : List Redirection) : Act Unit :=
  match fuel with
  | 0 => never
  | fuel + 1 => do
    change fun c => { c with captured := 0, line }
    let fields ← expandFields fuel [] words
    let turnouts ← expandTargets fuel redirections
    let before ← get
    match fields with
    | [] =>
      let isDone ← redirected turnouts fun aside => do
        trace aside (← assignInOrder fuel assignments) []
      if isDone then change fun c => { c with status := c.captured }
    | name :: arguments =>
      let isFunction := (before.functions.lookup name).isSome
      let isSpecial := !isFunction && specialBuiltins.contains name.toText
      let restore (assigned : List (Raw × Raw)) : Act Unit := do
        if !isSpecial then
          for (name, _) in assigned do
            change fun c => c.restore name (before.bindings.lookup name)
        if !assigned.isEmpty then change fun c => { c with exported := before.exported }
      let act (aside : Aside) : Act Unit := do
        let assigned ← assignInOrder fuel assignments
        change fun c => { c with exported := assigned.map (·.1) ++ c.exported }
        trace aside assigned fields
        if isFunction then notLast (performNamed fuel true name arguments)
        else if isSpecial then performNamed fuel true name arguments
        else catching (performNamed fuel true name arguments)
        restore assigned
      if name = "exec".toList && arguments.isEmpty then
        let (isDone, aside) ← turnAll turnouts []
        forgetAside aside
        if !isDone then throw .failed
        setStatus 0
      else
        let isDone ← redirected turnouts act
        if !isDone && isSpecial then throw .failed

def performFunction (fuel : Nat) (body : Command) (words : List Raw) : Act Unit :=
  match fuel with
  | 0 => never
  | fuel + 1 => do
    if functionLimit ≤ (← get).frames.length then
      abort (Raw.ofString ("Maximum function recursion depth (" ++ Nat.repr functionLimit ++
        ") reached"))
    let restore (before after : Context) : Context :=
      { after with parameters := before.parameters, loops := before.loops }
    restoring restore do
      change fun c => { c with parameters := words, loops := 0 }
      try inFrame (notLast (perform fuel body))
      catch
        | .function => pure ()
        | leaving => throw leaving

/-- Performs a command by its name: a function, if there may be one, a command of the shell, or a
program. -/
def performNamed (fuel : Nat) (mayCall : Bool) (name : Raw) (words : List Raw) : Act Unit :=
  match fuel with
  | 0 => never
  | fuel + 1 => do
    let functions := (← get).functions
    match if mayCall then functions.lookup name else none with
    | some body => performFunction fuel body words
    | none =>
      match String.ofList name with
      | "eval" => naming (some name) (performText fuel true (.start (joinWords words)))
      | "command" =>
        match words with
        | [] => setStatus 0
        | [['-', 'v'], target] => naming (some name) (locate target)
        | target :: words => performNamed fuel false target words
      | "exec" =>
        match words with
        | [] => setStatus 0
        | program :: words => naming (some name) (performProgram fuel true program words)
      | "." => naming (some name) (performFile fuel words)
      | text =>
        match builtin? fuel text words with
        | some act => naming (some name) act
        | none => performProgram fuel false name words

/-- Performs the commands in a file. One that is named without a directory would be looked for among
the programs. -/
def performFile (fuel : Nat) (words : List Raw) : Act Unit :=
  match fuel with
  | 0 => never
  | fuel + 1 => do
    match words with
    | [] => setStatus 0
    | path :: _ =>
      if !path.contains '/' then abort (path ++ ": not found".toList)
      else
        match ← readPath fuel path with
        | .ok text =>
          try naming (some path) (performText fuel true (.start text))
          catch
            | .function => pure ()
            | leaving => throw leaving
        | .error fault =>
          abort ("cannot open ".toList ++ path ++
            Raw.ofString (": " ++ redirectionFault false fault))

def performProgram (fuel : Nat) (replaces : Bool) (name : Raw) (words : List Raw) : Act Unit :=
  match fuel with
  | 0 => never
  | fuel + 1 => do
    match ← refusal? name with
    | some (reason, status) =>
      warn (name ++ Raw.ofString (": " ++ reason)) status
      if replaces then
        throw .exit
    | none =>
      let c ← get
      let act : Act Unit := performAlone fuel name words
      if replaces || (c.isLast && !c.hasTraps) then
        act
        throw .replaced
      else asChild act

/-- Makes this process that of a program, and runs the program, which has to be loaded first. -/
def performAlone (fuel : Nat) (name : Raw) (words : List Raw) : Act Unit :=
  match fuel with
  | 0 => never
  | fuel + 1 => do
    alter fun s process => s.becomeProgram process
    pause 1
    if isShell name then launch fuel name words else runProgram fuel name words

/-- Performs a text line by line: each line is read when those before it have been performed.
`isEmpty` says that none of the lines held a command; the status of no commands is zero. -/
def performText (fuel : Nat) (isEmpty : Bool) (u : Unread) : Act Unit :=
  match fuel with
  | 0 => never
  | fuel + 1 => do
    if u.rest.isEmpty then
      if isEmpty then setStatus 0
    else
      match readLine (← get).texts u with
      | .error fault =>
        change fun c => { c with line := fault.line }
        abort (Raw.ofString ("Syntax error: " ++ fault.cause.message))
      | .ok line =>
        change fun c => { c with below := line.found ++ c.below, texts := line.texts }
        match line.command, (← get).options.contains 'n' with
        | .sequence [], _ | _, true => performText fuel isEmpty line.unread
        | command, false =>
          notLast (perform fuel command)
          performText fuel false line.unread

/-- Performs the actions of traps for the signals that have come. An interrupt without a trap is
held back while a command is under way; after it the shell ends by it. -/
def performTraps (fuel : Nat) : Act Unit :=
  match fuel with
  | 0 => never
  | fuel + 1 => do
    for signal in ← takeSignals do
      match (← get).traps.lookup signal with
      | some action => performTrap fuel action
      | none =>
        dispose signal none
        alter fun s process => (s.signal process signal).getD s

def performTrap (fuel : Nat) (action : Raw) : Act Unit :=
  match fuel with
  | 0 => never
  | fuel + 1 => do
    if action.isEmpty then pure ()
    else
      let status := (← get).status
      notLast (performText fuel true (.start action))
      setStatus status

/-- Acts as the whole of a shell: at its end stands the action of the trap for its end. -/
def performShell (fuel : Nat) (act : Act Unit) : Act Unit :=
  match fuel with
  | 0 => never
  | fuel + 1 => do
    let leave (leaving : Leaving) : Act Unit :=
      match leaving with
      | .replaced => throw .replaced
      | _ => pure ()
    try act
    catch leaving => leave leaving
    let c ← get
    match c.traps.lookup 0 with
    | none => pure ()
    | some action =>
      change fun c => { c with traps := c.traps.filter fun t => t.1 != 0 }
      try performTrap fuel action
      catch leaving => leave leaving

def launch (fuel : Nat) (shell : Raw) (words : List Raw) : Act Unit :=
  match fuel with
  | 0 => never
  | fuel + 1 => do
    match Launch.ofWords shell words with
    | .error fault =>
      say (shell ++ ": 0: ".toList ++ fault ++ ['\n'])
      setStatus 2
    | .ok l =>
      let process? ← observe System.process?
      change fun c => c.launch ((process?.map (·.parent)).getD 0) l
      if l.call != .input then dispose Signal.interrupt (some ['-'])
      performShell fuel do
        match l.call with
        | .script text => performText fuel true (.start text)
        | .file path =>
          match ← readPath fuel path with
          | .ok text => performText fuel true (.start text)
          | .error fault =>
            say (shell ++ ": 0: cannot open ".toList ++ path ++
              Raw.ofString (": " ++ redirectionFault false fault ++ "\n"))
            setStatus 2
        | .input => performText fuel true (.start ((← receiveAll fuel 0).getD []))

def performApart (fuel : Nat) (turnouts : List Turnout) (body : Command) : Act Unit :=
  match fuel with
  | 0 => never
  | fuel + 1 =>
    performShell fuel do
      let (isDone, aside) ← turnAll turnouts []
      forgetAside aside
      if isDone then perform fuel body

/-- Performs a part of the script as a subshell does, which is this process if the shell has nothing
left to do in it. -/
def performSubshell (fuel : Nat) (line : Nat) (body : Command)
    (redirections : List Redirection) : Act Unit :=
  match fuel with
  | 0 => never
  | fuel + 1 => do
    change fun c => { c with line }
    let turnouts ← expandTargets fuel redirections
    let c ← get
    if c.isLast && !c.hasTraps then
      performApart fuel turnouts body
      throw .exit
    else asChild (performApart fuel turnouts body)

/-- What a process in the background does first: signals from the keyboard are not for it, and the
first process of a job has no input. -/
def prepareJob (fuel : Nat) (isFirst : Bool) : Act Unit :=
  match fuel with
  | 0 => never
  | _ + 1 => do
    dispose Signal.interrupt (some [])
    dispose Signal.quit (some [])
    if isFirst then alter fun s process => s.openAs process 0 .nowhere
    change fun c => { c with guarded := false }

/-- Performs a command in the background. Redirections of the whole command are those of its
process. -/
def performJob (fuel : Nat) (body : Command) : Act Unit :=
  match fuel with
  | 0 => never
  | fuel + 1 => do
    let processes ←
      match body with
      | .pipeline false stages => startStages fuel true true none stages
      | .redirected line inner redirections => do
        change fun c => { c with line }
        let turnouts ← expandTargets fuel redirections
        let inner :=
          match inner with
          | .subshell _ body => body
          | inner => inner
        pure [← spawn do
          prepareJob fuel true
          performApart fuel turnouts inner]
      | body => do
        pure [← spawn do
          prepareJob fuel true
          performApart fuel [] body]
    change fun c =>
      { c with jobs := processes ++ c.jobs, background := processes.getLast?, status := 0 }

/-- Starts the stages of a pipeline, each on the output of the one before it. Returns the numbers of
their processes. -/
def startStages (fuel : Nat) (isJob isFirst : Bool) (source? : Option Nat)
    (stages : List Command) : Act (List Nat) :=
  match fuel with
  | 0 => never
  | fuel + 1 => do
    match stages with
    | [] => return []
    | stage :: later =>
      let pipe? ←
        if later.isEmpty then pure none
        else do pure (some (← answering fun s process => s.openPipe process))
      let child ← spawn do
        if isJob then prepareJob fuel isFirst
        match pipe? with
        | some (next, target) =>
          alter fun s process => s.close process next
          move target 1
        | none => pure ()
        match source? with
        | some source => move source 0
        | none => pure ()
        performShell fuel (perform fuel stage)
      alter fun s process =>
        (source?.toList ++ (pipe?.map (·.2)).toList).foldl (fun s d => s.close process d) s
      return child :: (← startStages fuel isJob false (pipe?.map (·.1)) later)

/-- Performs a loop. The status is that of the body's last round. -/
def performLoop (fuel : Nat) (isNegated : Bool) (test body : Command) (status : Nat) : Act Unit :=
  match fuel with
  | 0 => never
  | fuel + 1 => do
    let goesOn ← inRound do
      guarding (perform fuel test)
      if ((← get).status == 0) == isNegated then throw (.loop 1)
    if goesOn then
      if ← inRound (perform fuel body) then
        performLoop fuel isNegated test body (← get).status
    else setStatus status

def performEach (fuel : Nat) (name : Raw) (values : List Raw) (body : Command) : Act Unit :=
  match fuel with
  | 0 => never
  | fuel + 1 => do
    match values with
    | [] => pure ()
    | value :: values =>
      change fun c => c.assign name value
      if ← inRound (perform fuel body) then performEach fuel name values body

def performCases (fuel : Nat) (text : Raw) (cases : List (List Word × Command)) : Act Unit :=
  match fuel with
  | 0 => never
  | fuel + 1 => do
    match cases with
    | [] => setStatus 0
    | (words, body) :: cases =>
      let patterns ← words.mapM (expand fuel false)
      if patterns.any fun pieces => fits (pieces.flatMap Piece.pattern) text then perform fuel body
      else performCases fuel text cases

def performAll (fuel : Nat) (commands : List Command) : Act Unit :=
  match fuel with
  | 0 => never
  | fuel + 1 => do
    match commands with
    | [] => pure ()
    | [last] => perform fuel last
    | c :: commands =>
      notLast (perform fuel c)
      performAll fuel commands

def perform (fuel : Nat) (c : Command) : Act Unit :=
  match fuel with
  | 0 => never
  | fuel + 1 => do
    performTraps fuel
    match c with
    | .simple line assignments words redirections =>
      performSimple fuel line assignments words redirections
      performTraps fuel
      checkStrict
    | .pipeline isNegated stages =>
      let act : Act Unit := do
        match stages with
        | [c] => perform fuel c
        | stages =>
          let processes ← startStages fuel false true none stages
          awaitAll processes.length processes (processes.getLastD 0)
      if isNegated then
        guarding act
        change fun c => { c with status := if c.status == 0 then 1 else 0 }
      else
        act
        performTraps fuel
        checkStrict
    | .both first second =>
      guarding (perform fuel first)
      if (← get).status == 0 then perform fuel second
    | .either first second =>
      guarding (perform fuel first)
      if (← get).status != 0 then perform fuel second
    | .sequence [] => setStatus 0
    | .sequence commands => performAll fuel commands
    | .background body => performJob fuel body
    | .subshell line body =>
      performSubshell fuel line body []
      performTraps fuel
      checkStrict
    | .branch test first second =>
      guarding (perform fuel test)
      if (← get).status == 0 then perform fuel first else perform fuel second
    | .loop isNegated test body => performLoop fuel isNegated test body 0
    | .each line name words body =>
      change fun c => { c with line }
      let values ←
        match words with
        | some words => expandFields fuel [] words
        | none => pure (← get).parameters
      if values.isEmpty then setStatus 0
      performEach fuel name values body
    | .choose line word cases =>
      change fun c => { c with line }
      let text ← expandText fuel word
      performCases fuel text cases
    | .redirected line (.subshell _ body) redirections =>
      performSubshell fuel line body redirections
      performTraps fuel
      checkStrict
    | .redirected line body redirections =>
      change fun c => { c with line }
      let turnouts ← expandTargets fuel redirections
      let isDone ← redirected turnouts fun _ => notLast (perform fuel body)
      if !isDone then checkStrict
    | .define name body =>
      change fun c => { c with functions := assignTo name body c.functions }
      setStatus 0
end

end SyntaxDrawing.Shell
