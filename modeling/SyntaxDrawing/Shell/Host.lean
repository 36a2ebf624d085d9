import SyntaxDrawing.Shell.Evaluation

/-!
# Parsing with shell commands

A host on which the parser's command is one of a few programs, or a script of the shell. Its state
is the files alone: every run has a clock of its own, which starts at zero.
-/

namespace SyntaxDrawing.Shell

def programDirectories : List String :=
  ["/bin/", "/usr/bin/"]

def refusedReason : String := "Permission denied (os error 13)"

def zeroByteReason : String := "nul byte found in provided data"

def startFault? (files : Files) (directory : Place) (command : String) (words : List String) :
    Option String :=
  let hasZero (s : String) : Bool := s.toList.contains '\x00'
  if hasZero command || words.any hasZero then some zeroByteReason
  else if programs.contains command then none
  else if programDirectories.any fun d => programs.any fun p => d ++ p == command then none
  else if command = "." ∨ command = ".." then some refusedReason
  else if command.toList.contains '/' then
    match files.resolve directory command with
    | .ok (.directory _) => some refusedReason
    | .ok (.entry place) =>
      some (if (files.contents? place).isSome then refusedReason else FileFault.missing.message)
    | .error .isDirectory => some FileFault.missing.message
    | .error fault => some fault.message
  else if Files.nameLimit < command.utf8ByteSize then some FileFault.nameTooLong.message
  else some FileFault.missing.message

/-- The most commands inside of one another, and rounds of a loop. -/
def levelFuel : Nat := 1000000000

def workingDirectory : Place := ["work"]

def surroundings : List (String × String) :=
  [("PATH", "/usr/local/sbin:/usr/local/bin:/usr/sbin:/usr/bin:/sbin:/bin"), ("HOME", "/root")]

def firstProcess : Nat := 4242

def System.start (files : Files) : System :=
  let watched : Pipe := { Pipe.holding [] with isWatched := true }
  let process : Process :=
    { number := firstProcess
      parent := firstProcess - 1
      descriptors := [(0, 0), (1, 1), (2, 2)]
      caught := []
      ignored := []
      pending := []
      isStopped := false }
  { files
    clock := 0
    channels := [(0, .nowhere), (1, .pipe 1 false), (2, .pipe 2 false)]
    pipes := [(1, watched), (2, watched)]
    processes := [process]
    endings := []
    lastChannel := 2
    lastPipe := 2
    lastProcess := firstProcess }

/-- A run is over when the command's process has ended, and nobody can write to its outputs any
more. -/
def System.isOver (s : System) : Bool :=
  !s.isLive firstProcess && !s.hasEnd 1 false && !s.hasEnd 2 false

/-- Runs a command. One that is not over when its time is has timed out. -/
def runCommand (environment : List (String × String)) (command : String) (words : List String)
    (timeoutMillis : Nat) (files : Files) : Parser.Running × Files :=
  match startFault? files workingDirectory command words with
  | some reason => (.unspawned reason, files)
  | none =>
    let others := surroundings.filter fun v => !environment.any (·.1 == v.1)
    let bindings := (environment ++ others).map fun (name, value) =>
      (Raw.ofString name, Raw.ofString value)
    let act := performAlone levelFuel (Raw.ofString command) (words.map Raw.ofString)
    let task := Act.toTask act (.start firstProcess workingDirectory bindings)
    let (isOver, s) := Thread.runUntil System.isOver timeoutMillis (.start files)
      [(firstProcess, task fun _ => .ended)]
    match isOver, s.endings.lookup firstProcess with
    | true, some ending =>
      (.ended ending (s.pipe 1).contents.toBytes (s.pipe 2).contents.toBytes, s.files)
    | _, _ => (.timedOut, s.files)

def host (environment : List (String × String)) : Parser.Host Files where
  write file contents files :=
    match files.write workingDirectory file contents with
    | .ok files => (.done, files)
    | .error fault => (.refused fault.message, files)
  run := runCommand environment
  remove file files :=
    match files.remove workingDirectory file with
    | .ok files => files
    | .error _ => files

end SyntaxDrawing.Shell
