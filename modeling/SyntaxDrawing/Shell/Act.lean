import SyntaxDrawing.Shell.Context
import SyntaxDrawing.Shell.Printf
import SyntaxDrawing.Shell.Task

/-!
# Acting as a shell

What a shell, or a program in its process, does with its own context and to the system around it. An
action may leave what it was part of: a loop, a function, the shell.
-/

namespace SyntaxDrawing.Shell

/-- What an action leaves. A command that has `failed` may end the shell, and a shell that is
`replaced` by a program ends with it. -/
inductive Leaving
  | exit
  | failed
  | replaced
  | function
  | loop (levels : Nat)
  | round (levels : Nat)
  deriving DecidableEq

abbrev Act (α : Type) : Type :=
  ExceptT Leaving (StateT Context Task) α

namespace Act

def ofTask {α : Type} (t : Task α) : Act α :=
  ExceptT.lift (StateT.lift t)

def never {α : Type} : Act α :=
  ofTask Task.never

def answering {α : Type} (f : System → Nat → α × System) : Act α := do
  let process := (← get).process
  ofTask (Task.answering fun s => f s process)

def alter (f : System → Nat → System) : Act Unit :=
  answering fun s process => ((), f s process)

def observe {α : Type} (f : System → Nat → α) : Act α := do
  return f (← ofTask Task.observe) (← get).process

def wait (isReady : System → Nat → Bool) : Act Unit := do
  let process := (← get).process
  ofTask (Task.wait fun s => isReady s process)

def pause (time : Nat) : Act Unit := do
  let now ← observe fun s _ => s.clock
  ofTask (Task.rest (now + time))

def change (f : Context → Context) : Act Unit :=
  modify f

def setStatus (status : Nat) : Act Unit :=
  change fun c => { c with status }

def restoring {α : Type} (restore : (before after : Context) → Context) (act : Act α) : Act α :=
  ExceptT.mk do
    let before ← get
    let result ← act.run
    modify fun after => restore before after
    return result

def notLast {α : Type} (act : Act α) : Act α :=
  restoring (fun before after => { after with isLast := before.isLast }) do
    change fun c => { c with isLast := false }
    act

def guarding (act : Act Unit) : Act Unit :=
  restoring (fun before after => { after with guarded := before.guarded }) do
    change fun c => { c with guarded := true }
    notLast act

/-- Acts with variables of its own, which are gone afterwards, unless the shell is about to end. -/
def inFrame (act : Act Unit) : Act Unit := do
  let depth := (← get).frames.length
  change fun c => { c with frames := [] :: c.frames }
  try act
  catch leaving =>
    match leaving with
    | .exit | .failed | .replaced => pure ()
    | .function | .loop _ | .round _ => change fun c => c.unwind depth
    throw leaving
  change fun c => c.unwind depth

def naming {α : Type} (name : Option Raw) (act : Act α) : Act α :=
  restoring (fun before after => { after with command := before.command }) do
    change fun c => { c with command := name }
    act

/-- Writes to a descriptor. A process that writes to a pipe which nobody reads gets a signal. -/
def write (descriptor : Nat) (text : Raw) : Act System.Delivery :=
  answering fun s process =>
    match s.deliver process descriptor text with
    | (.broken, s) => (.broken, (s.signal process Signal.brokenPipe).getD s)
    | other => other

def say (text : Raw) : Act Unit := do
  let _ ← write 2 text

/-- Reads from a descriptor what there is, as much as `amount` says of it. -/
def receive (descriptor : Nat) (amount : Raw → Nat) : Act (Option Raw) := do
  wait fun s process => s.mayRead process descriptor
  answering fun s process => s.receive process descriptor amount

/-- Reads from a descriptor up to the end; `none` if it is not for reading. Each piece takes one
unit of fuel. -/
def receiveAll (fuel : Nat) (descriptor : Nat) : Act (Option Raw) := do
  match fuel with
  | 0 => never
  | fuel + 1 =>
    match ← receive descriptor List.length with
    | none => return none
    | some [] => return some []
    | some text => return (← receiveAll fuel descriptor).map (text ++ ·)

def complaintStart (c : Context) : Raw :=
  c.title ++ ": ".toList ++ digitsOf c.line ++ ": ".toList

def warn (message : Raw) (status : Nat) : Act Unit := do
  let c ← get
  let command := (c.command.map fun name => name ++ ": ".toList).getD []
  say (complaintStart c ++ command ++ message ++ ['\n'])
  setStatus status

def abort {α : Type} (message : Raw) : Act α := do
  warn message 2
  throw .failed

def argumentLimit : Nat := 2147483647

def naturalArgument (word : Raw) : Act Nat := do
  if isNatural word && naturalOf word ≤ argumentLimit then return naturalOf word
  else abort ("Illegal number: ".toList ++ word)

/-- The words of a command, in front of which two hyphens may stand, but no option other than one
of these letters. Returns the letters as well. -/
def takeOptions (letters : String) (words : List Raw) : Act (List Char × List Raw) := do
  match words with
  | ['-', '-'] :: words => return ([], words)
  | ('-' :: letter :: more) :: words =>
    match (letter :: more).find? fun c => !letters.toList.contains c with
    | some c => abort ("Illegal option -".toList ++ [c])
    | none =>
      let (others, words) ← takeOptions letters words
      return (letter :: more ++ others, words)
  | words => return ([], words)

def toTask (act : Act Unit) (c : Context) : Task Unit := do
  let (_, after) ← act.run.run c
  Task.answering fun s => ((), s.finish after.process (.exited after.status))

/-- Starts a process for a part of the script. Returns its number. -/
def spawn (act : Act Unit) : Act Nat := do
  let c ← get
  let child ← answering fun s process => s.fork process
  ofTask (Task.start child (toTask act (c.fork child)))
  return child

def report (signal : Nat) : Act Unit := do
  match Signal.report? signal with
  | some text => say (text ++ ['\n'])
  | none => pure ()

def statusOf : Parser.ExitStatus → Nat
  | .exited status => status
  | .signalled signal _ => Signal.status signal

/-- Waits for so many processes of a list as they end, and tells of those that end by a signal. The
status becomes that of the process that is named. -/
def awaitAll (count : Nat) (processes : List Nat) (named : Nat) : Act Unit := do
  match count with
  | 0 => pure ()
  | count + 1 =>
    wait fun s _ => s.endings.any fun e => processes.contains e.1
    let ended ← answering fun s _ =>
      match s.endings.reverse.find? fun e => processes.contains e.1 with
      | none => (none, s)
      | some e => (some e, { s with endings := s.endings.filter fun f => f.1 != e.1 })
    match ended with
    | none => pure ()
    | some (process, ending) =>
      match ending with
      | .signalled signal _ => report signal
      | .exited _ => pure ()
      if process = named then setStatus (statusOf ending)
      awaitAll count (processes.erase process) named

def await (process : Nat) : Act Unit :=
  awaitAll 1 [process] process

def asChild (act : Act Unit) : Act Unit := do
  await (← spawn act)

/-- Writes what a program has to write. If its output cannot be written, it says so in the end:
`complaint` is given the reason. -/
def apply (complaint : String → Raw) (e : Effect) : Act Unit := do
  let mut failure : Option String := none
  for (descriptor, text) in e.writings do
    if !text.isEmpty && (descriptor != 1 || failure.isNone) then
      let fault? := (← write descriptor text).fault?
      if descriptor = 1 then failure := fault?
  setStatus e.status
  match failure with
  | some reason =>
    say (complaint reason)
    setStatus (max 1 e.status)
  | none => pure ()

def applyInner (e : Effect) : Act Unit := do
  let c ← get
  let name := c.command.getD []
  let start := complaintStart c
  apply (fun _ => start ++ name ++ ": ".toList ++ name ++ ": I/O error\n".toList) e

def print (text : Raw) : Act Unit :=
  applyInner (.printing text)

/-- In a strict shell a failure that is not guarded ends the shell. -/
def checkStrict : Act Unit := do
  let c ← get
  if c.options.contains 'e' && !c.guarded && c.status != 0 then throw .exit

/-- Acts on one round of a loop. Returns whether there may be another. -/
def inRound (act : Act Unit) : Act Bool :=
  restoring (fun before after => { after with loops := before.loops }) do
    change fun c => { c with loops := c.loops + 1 }
    try
      notLast act
      return true
    catch
      | .loop levels => if levels ≤ 1 then return false else throw (.loop (levels - 1))
      | .round levels => if levels ≤ 1 then return true else throw (.round (levels - 1))
      | other => throw other

/-- Catches a signal, ignores it, or does neither. -/
def dispose (signal : Nat) (action : Option Raw) : Act Unit :=
  alter fun s process => s.changeProcess process fun p =>
    let caught := p.caught.filter (· != signal)
    let ignored := p.ignored.filter (· != signal)
    match action with
    | none => { p with caught, ignored }
    | some [] => { p with caught, ignored := signal :: ignored }
    | some _ => { p with caught := signal :: caught, ignored }

def openAt (descriptor : Nat) (path : Raw) (access : Access) (isCut : Bool) :
    Act (Option FileFault) := do
  let directory := (← get).directory
  answering fun s process =>
    match s.openPath process directory path access isCut with
    | .error fault => (some fault, s)
    | .ok (channel, s) => (none, s.openAs process descriptor channel)

/-- Reads the whole of a file. A directory holds no text. -/
def readPath (fuel : Nat) (path : Raw) : Act (Except FileFault Raw) := do
  let descriptor ← observe fun s process => s.freeDescriptor process
  match ← openAt descriptor path ⟨true, false, false⟩ false with
  | some fault => return .error fault
  | none =>
    let contents ← receiveAll fuel descriptor
    alter fun s process => s.close process descriptor
    return .ok (contents.getD [])

end Act

end SyntaxDrawing.Shell
