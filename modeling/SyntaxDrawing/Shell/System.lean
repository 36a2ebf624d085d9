import SyntaxDrawing.Files
import SyntaxDrawing.Shell.Signal

/-!
# Processes and what they have open

A system of processes on a small file system. What a process has open it knows by descriptors; two
descriptors may stand for the same channel, and then share its place in a file. A channel that no
descriptor stands for is gone, and so is a pipe without channels.
-/

namespace SyntaxDrawing.Shell

structure Access where
  reads : Bool
  writes : Bool
  appends : Bool
  deriving DecidableEq

/-- What descriptors stand for: an end of a pipe, a place in a file, a directory, a device without
room, or nothing at all. -/
inductive Channel
  | nowhere
  | full
  | directory
  | pipe (number : Nat) (isReading : Bool)
  | file (place : Place) (offset : Nat) (access : Access)
  deriving DecidableEq

def Channel.place? : Channel → Option Place
  | .file place _ _ => some place
  | _ => none

/-- The channel as it is when a file has been given another place. -/
def Channel.relocated (source target : Place) : Channel → Channel
  | .file place offset access => .file (Files.relocated source target place) offset access
  | c => c

/-- What has been written to a pipe and not been read, the last text first in `added`. A pipe that
is `watched` is read at once, by whoever has started the system. -/
structure Pipe where
  front : Raw
  added : List Raw
  isWatched : Bool

namespace Pipe

def holding (text : Raw) : Pipe :=
  ⟨text, [], false⟩

def contents (p : Pipe) : Raw :=
  p.front ++ p.added.reverse.flatten

def add (p : Pipe) (text : Raw) : Pipe :=
  if text.isEmpty then p else { p with added := text :: p.added }

def isEmpty (p : Pipe) : Bool :=
  p.front.isEmpty && p.added.isEmpty

end Pipe

/-- A process that has not ended. Signals that it catches are kept for it. -/
structure Process where
  number : Nat
  parent : Nat
  descriptors : List (Nat × Nat)
  caught : List Nat
  ignored : List Nat
  pending : List Nat
  isStopped : Bool

/-- `endings` are the processes that have ended and have not been waited for, the last one first.
Time is counted in milliseconds. -/
structure System where
  files : Files
  clock : Nat
  channels : List (Nat × Channel)
  pipes : List (Nat × Pipe)
  processes : List Process
  endings : List (Nat × Parser.ExitStatus)
  lastChannel : Nat
  lastPipe : Nat
  lastProcess : Nat

def assignTo {α β : Type} [BEq α] (key : α) (value : β) (entries : List (α × β)) :
    List (α × β) :=
  (key, value) :: entries.filter fun e => e.1 != key

namespace System

def process? (s : System) (number : Nat) : Option Process :=
  s.processes.find? (·.number == number)

def isLive (s : System) (number : Nat) : Bool :=
  s.processes.any (·.number == number)

def changeProcess (s : System) (number : Nat) (f : Process → Process) : System :=
  { s with processes := s.processes.map fun p => if p.number == number then f p else p }

def channelNumber? (s : System) (process descriptor : Nat) : Option Nat :=
  (s.process? process).bind (·.descriptors.lookup descriptor)

def channel? (s : System) (process descriptor : Nat) : Option Channel :=
  (s.channelNumber? process descriptor).bind fun number => s.channels.lookup number

def pipe (s : System) (number : Nat) : Pipe :=
  (s.pipes.lookup number).getD (.holding [])

def hasEnd (s : System) (number : Nat) (isReading : Bool) : Bool :=
  s.channels.any fun c => c.2 == .pipe number isReading

def hasReader (s : System) (number : Nat) : Bool :=
  (s.pipe number).isWatched || s.hasEnd number true

/-- Drops a channel that no descriptor stands for, and a pipe without channels. -/
def settle (s : System) (channel : Nat) : System :=
  if s.processes.any fun p => p.descriptors.any (·.2 == channel) then s
  else
    let kept := s.channels.filter (·.1 != channel)
    match s.channels.lookup channel with
    | some (.pipe number _) =>
      let isUsed := (s.pipe number).isWatched || kept.any fun c =>
        match c.2 with
        | .pipe n _ => n == number
        | _ => false
      { s with
        channels := kept
        pipes := if isUsed then s.pipes else s.pipes.filter (·.1 != number) }
    | _ => { s with channels := kept }

def close (s : System) (process descriptor : Nat) : System :=
  match s.channelNumber? process descriptor with
  | none => s
  | some channel =>
    (s.changeProcess process fun p =>
      { p with descriptors := p.descriptors.filter (·.1 != descriptor) }).settle channel

def attach (s : System) (process descriptor channel : Nat) : System :=
  let before := s.channelNumber? process descriptor
  let s := s.changeProcess process fun p =>
    { p with descriptors := assignTo descriptor channel p.descriptors }
  match before with
  | some before => s.settle before
  | none => s

def openAs (s : System) (process descriptor : Nat) (c : Channel) : System :=
  let number := s.lastChannel + 1
  let s := { s with channels := (number, c) :: s.channels, lastChannel := number }
  s.attach process descriptor number

def duplicate (s : System) (process source target : Nat) : System :=
  match s.channelNumber? process source with
  | some channel => s.attach process target channel
  | none => s

/-- Descriptors from this one on are a shell's own: a program that it becomes does not have them. -/
def firstOwn : Nat := 10

def freeDescriptor (s : System) (process : Nat) : Nat :=
  let used := ((s.process? process).map (·.descriptors.map (·.1))).getD []
  ((List.range (used.length + 1)).map (· + firstOwn)).find? (fun n => !used.contains n)
    |>.getD (firstOwn + used.length)

/-- Moves a descriptor to the shell's own ones. Returns its new number, if it was open. -/
def putAside (s : System) (process descriptor : Nat) : Option Nat × System :=
  if (s.channelNumber? process descriptor).isNone then (none, s)
  else
    let free := s.freeDescriptor process
    (some free, (s.duplicate process descriptor free).close process descriptor)

def takeBack (s : System) (process descriptor : Nat) : Option Nat → System
  | some aside => (s.duplicate process aside descriptor).close process aside
  | none => s.close process descriptor

/-- Gives a file or a directory another place. Who has it open has it open there. -/
def rename (s : System) (source target : Place) : System :=
  { s with
    files := s.files.rename source target
    channels := s.channels.map fun c => (c.1, c.2.relocated source target) }

/-- Opens a pipe. Returns the descriptors of its reading and its writing end. -/
def openPipe (s : System) (process : Nat) : (Nat × Nat) × System :=
  let number := s.lastPipe + 1
  let s := { s with pipes := (number, .holding []) :: s.pipes, lastPipe := number }
  let source := s.freeDescriptor process
  let s := s.openAs process source (.pipe number true)
  let target := s.freeDescriptor process
  ((source, target), s.openAs process target (.pipe number false))

def openText (s : System) (process descriptor : Nat) (text : Raw) : System :=
  let number := s.lastPipe + 1
  let s := { s with pipes := (number, .holding text) :: s.pipes, lastPipe := number }
  s.openAs process descriptor (.pipe number true)

def contentsOf (s : System) (place : Place) : Raw :=
  Raw.ofBytes ((s.files.contents? place).getD [])

def putFile (s : System) (place : Place) (contents : Raw) : System :=
  { s with files := s.files.put place contents.toBytes }

def deviceOf? (place : Place) : Option Nat :=
  let numbers := List.range firstOwn
  let name (n : Nat) : String :=
    match n with
    | 0 => "stdin"
    | 1 => "stdout"
    | 2 => "stderr"
    | n => Nat.repr n
  numbers.find? fun n => (Files.streamDevices (name n) n).contains place

/-- What a path leads to when it is opened. A file that is missing is made if there is to be
something written to it, and one that is not appended to is emptied if it `isCut`. -/
def openPath (s : System) (process : Nat) (directory : Place) (path : Raw) (access : Access)
    (isCut : Bool) : Except FileFault (Channel × System) :=
  match s.files.resolve directory path.toText with
  | .error .isDirectory => .error (if access.writes then .isDirectory else .missing)
  | .error fault => .error fault
  | .ok (.directory _) =>
    if access.writes then .error .isDirectory else .ok (.directory, s)
  | .ok (.entry place) =>
    if place = Files.nullDevice then .ok (.nowhere, s)
    else if place = Files.fullDevice then .ok (.full, s)
    else
      let place? : Except FileFault (Channel ⊕ Place) :=
        match deviceOf? place with
        | none => .ok (.inr place)
        | some descriptor =>
          match s.channel? process descriptor with
          | some (.file place _ _) => .ok (.inr place)
          | some (.pipe number _) => .ok (.inl (.pipe number (!access.writes)))
          | some channel => .ok (.inl channel)
          | none => .error .missing
      match place? with
      | .error fault => .error fault
      | .ok (.inl channel) => .ok (channel, s)
      | .ok (.inr place) =>
        match s.files.contents? place with
        | none =>
          if access.writes then .ok (.file place 0 access, s.putFile place [])
          else .error .missing
        | some _ => .ok (.file place 0 access, if isCut then s.putFile place [] else s)

inductive Delivery
  | taken
  | closed
  | broken
  | full
  deriving DecidableEq

def overwrite (contents : Raw) (offset : Nat) (text : Raw) : Raw :=
  let gap := List.replicate (offset - contents.length) '\x00'
  (contents ++ gap).take offset ++ text ++ contents.drop (offset + text.length)

def setChannel (s : System) (process descriptor : Nat) (c : Channel) : System :=
  match s.channelNumber? process descriptor with
  | some number => { s with channels := assignTo number c s.channels }
  | none => s

def Delivery.fault? : Delivery → Option String
  | .taken => none
  | .closed => some "Bad file descriptor"
  | .broken => some "Broken pipe"
  | .full => some "No space left on device"

/-- Writes to a descriptor. What is written to a file that has been removed is lost. -/
def deliver (s : System) (process descriptor : Nat) (text : Raw) : Delivery × System :=
  match s.channel? process descriptor with
  | some .nowhere => (.taken, s)
  | some .full => (.full, s)
  | some (.pipe number false) =>
    if s.hasReader number then
      (.taken, { s with pipes := assignTo number ((s.pipe number).add text) s.pipes })
    else (.broken, s)
  | some (.file place offset access) =>
    if !access.writes then (.closed, s)
    else
      let contents := s.contentsOf place
      let offset := if access.appends then contents.length else offset
      let s := s.setChannel process descriptor (.file place (offset + text.length) access)
      if (s.files.contents? place).isNone then (.taken, s)
      else if offset = contents.length then (.taken, s.putFile place (contents ++ text))
      else (.taken, s.putFile place (overwrite contents offset text))
  | some (.pipe _ true) | some .directory | none => (.closed, s)

def mayRead (s : System) (process descriptor : Nat) : Bool :=
  match s.channel? process descriptor with
  | some (.pipe number true) => !(s.pipe number).isEmpty || !s.hasEnd number false
  | _ => true

/-- Takes some of what there is to read from a descriptor: as much as `amount` says of it. There is
nothing at the end, and `none` if the descriptor is not for reading. -/
def receive (s : System) (process descriptor : Nat) (amount : Raw → Nat) : Option Raw × System :=
  match s.channel? process descriptor with
  | some .nowhere | some .full => (some [], s)
  | some (.pipe number true) =>
    let p := s.pipe number
    let contents := p.contents
    let text := contents.take (amount contents)
    let p := { p with front := contents.drop text.length, added := [] }
    (some text, { s with pipes := assignTo number p s.pipes })
  | some (.file place offset access) =>
    if !access.reads then (none, s)
    else
      let rest := (s.contentsOf place).drop offset
      let text := rest.take (amount rest)
      (some text, s.setChannel process descriptor (.file place (offset + text.length) access))
  | some (.pipe _ false) | some .directory | none => (none, s)

def finish (s : System) (number : Nat) (ending : Parser.ExitStatus) : System :=
  match s.process? number with
  | none => s
  | some p =>
    let others := s.processes.filter (·.number != number)
    let s := { s with processes := others, endings := (number, ending) :: s.endings }
    (p.descriptors.map (·.2)).eraseDups.foldl settle s

/-- Sends a signal to a process; signal zero is none. Returns nothing if there is no such
process. -/
def signal (s : System) (number signal : Nat) : Option System :=
  match s.process? number with
  | none => none
  | some p =>
    if signal = 0 then some s
    else if signal = Signal.kill then some (s.finish number (.signalled signal false))
    else if signal = Signal.stop then some (s.changeProcess number ({ · with isStopped := true }))
    else if signal = Signal.resume then
      some (s.changeProcess number ({ · with isStopped := false }))
    else if p.caught.contains signal then
      some (s.changeProcess number fun p => { p with pending := p.pending ++ [signal] })
    else if p.ignored.contains signal || Signal.idle.contains signal then some s
    else if Signal.stopping.contains signal then
      some (s.changeProcess number ({ · with isStopped := true }))
    else some (s.finish number (.signalled signal false))

/-- Starts a process with the descriptors of another one. Signals that are ignored stay ignored. -/
def fork (s : System) (number : Nat) : Nat × System :=
  let child := s.lastProcess + 1
  match s.process? number with
  | none => (child, s)
  | some p =>
    let p := { p with number := child, parent := number, caught := [], pending := [] }
    (child, { s with processes := s.processes ++ [p], lastProcess := child })

def becomeProgram (s : System) (number : Nat) : System :=
  let own := ((s.process? number).map (·.descriptors.map (·.1))).getD []
  let s := (own.filter fun d => decide (firstOwn ≤ d)).foldl (fun s d => s.close number d) s
  s.changeProcess number ({ · with caught := [] })

end System

end SyntaxDrawing.Shell
