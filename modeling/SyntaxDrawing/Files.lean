/-!
# A small file system

Files and directories by their absolute path, a list of names. Paths are resolved name by name as
the system does it: every name but the last has to be a directory, and a slash at the end asks for
one.
-/

namespace SyntaxDrawing

abbrev Place : Type :=
  List String

inductive FileFault
  | missing
  | notDirectory
  | isDirectory
  | nameTooLong
  | zeroByte
  | notOpen
  | noDevice
  deriving DecidableEq

def FileFault.text : FileFault → String
  | .missing => "No such file or directory"
  | .notDirectory => "Not a directory"
  | .isDirectory => "Is a directory"
  | .nameTooLong => "File name too long"
  | .zeroByte => "file name contained an unexpected NUL byte"
  | .notOpen => "Bad file descriptor"
  | .noDevice => "No such device or address"

def FileFault.number? : FileFault → Option Nat
  | .missing => some 2
  | .notDirectory => some 20
  | .isDirectory => some 21
  | .nameTooLong => some 36
  | .notOpen => some 9
  | .noDevice => some 6
  | .zeroByte => none

def FileFault.message (f : FileFault) : String :=
  match f.number? with
  | some n => f.text ++ " (os error " ++ Nat.repr n ++ ")"
  | none => f.text

/-- A directory exists if it is listed or holds something. The root always exists. -/
structure Files where
  directories : List Place
  files : List (Place × List UInt8)

namespace Files

def isInside (place directory : Place) : Bool :=
  directory.isPrefixOf place && place != directory

def isDirectory (fs : Files) (p : Place) : Bool :=
  p.isEmpty || fs.directories.any (fun d => d == p || isInside d p) ||
    fs.files.any fun f => isInside f.1 p

def contents? (fs : Files) (p : Place) : Option (List UInt8) :=
  fs.files.lookup p

def nameLimit : Nat := 255

def pathLimit : Nat := 4095

def enter (fs : Files) (place : Place) (name : String) : Except FileFault Place :=
  if nameLimit < name.utf8ByteSize then .error .nameTooLong
  else if name = "" ∨ name = "." then .ok place
  else if name = ".." then .ok place.dropLast
  else
    let next := place ++ [name]
    if fs.isDirectory next then .ok next
    else if (fs.contents? next).isSome then .error .notDirectory
    else .error .missing

/-- What a path leads to: a directory, or a name in one that is none. -/
inductive Target
  | directory (place : Place)
  | entry (place : Place)
  deriving DecidableEq

/-- Follows names. `closed` says that the last of them has to be a directory. -/
def follow (fs : Files) (closed : Bool) (place : Place) : List String → Except FileFault Target
  | [] => .ok (.directory place)
  | [name] =>
    match fs.enter place name with
    | .ok next => .ok (.directory next)
    | .error fault =>
      let next := place ++ [name]
      match fault, (fs.contents? next).isSome with
      | .notDirectory, true => if closed then .error .notDirectory else .ok (.entry next)
      | .missing, false => if closed then .error .isDirectory else .ok (.entry next)
      | fault, _ => .error fault
  | name :: names =>
    match fs.enter place name with
    | .error fault => .error fault
    | .ok next => fs.follow closed next names

def namesOf (path : String) : List String × Bool :=
  ((path.splitOn "/").filter (· != ""), path.endsWith "/")

/-- Resolves a path. One that does not begin with a slash starts at `origin`. -/
def resolve (fs : Files) (origin : Place) (path : String) : Except FileFault Target :=
  if path.toList.contains '\x00' then .error .zeroByte
  else if path.isEmpty then .error .missing
  else if pathLimit < path.utf8ByteSize then .error .nameTooLong
  else
    let (names, closed) := namesOf path
    fs.follow closed (if path.startsWith "/" then [] else origin) names

def nullDevice : Place := ["dev", "null"]

/-- The devices that can be read without an end. One of them takes nothing. -/
def zeroDevice : Place := ["dev", "zero"]

def fullDevice : Place := ["dev", "full"]

def terminalDevice : Place := ["dev", "tty"]

def devices : List Place :=
  [nullDevice, zeroDevice, fullDevice, terminalDevice]

def read (fs : Files) (origin : Place) (path : String) : Except FileFault (List UInt8) :=
  match fs.resolve origin path with
  | .error .isDirectory => .error .missing
  | .error fault => .error fault
  | .ok (.directory _) => .error .isDirectory
  | .ok (.entry place) =>
    if place = terminalDevice then .error .noDevice
    else
      match fs.contents? place with
      | some contents => .ok contents
      | none => .error .missing

def put (fs : Files) (place : Place) (contents : List UInt8) : Files :=
  { fs with files := (place, contents) :: fs.files.filter fun f => f.1 != place }

def write (fs : Files) (origin : Place) (path : String) (contents : List UInt8) :
    Except FileFault Files :=
  match fs.resolve origin path with
  | .error fault => .error fault
  | .ok (.directory _) => .error .isDirectory
  | .ok (.entry place) => .ok (fs.put place contents)

def erase (fs : Files) (place : Place) : Files :=
  { fs with files := fs.files.filter fun f => f.1 != place }

def relocated (source target place : Place) : Place :=
  if source.isPrefixOf place then target ++ place.drop source.length else place

def rename (fs : Files) (source target : Place) : Files :=
  { directories := (fs.directories.filter (· != target)).map (relocated source target)
    files :=
      (fs.files.filter fun f => f.1 != target).map fun f => (relocated source target f.1, f.2) }

def eraseDirectory (fs : Files) (place : Place) : Files :=
  { directories := fs.directories.filter fun p => !place.isPrefixOf p
    files := fs.files.filter fun f => !isInside f.1 place }

def remove (fs : Files) (origin : Place) (path : String) : Except FileFault Files :=
  match fs.resolve origin path with
  | .error .isDirectory => .error .missing
  | .error fault => .error fault
  | .ok (.directory _) => .error .isDirectory
  | .ok (.entry place) =>
    match fs.contents? place with
    | some _ => .ok (fs.erase place)
    | none => .error .missing

def entries (fs : Files) (directory : Place) : List String :=
  let places := fs.directories ++ fs.files.map (·.1)
  let names := (places.filter fun p => isInside p directory).filterMap (·[directory.length]?)
  names.eraseDups.mergeSort

def below (fs : Files) (directory : Place) : List (Place × List UInt8) :=
  fs.files.filter fun f => isInside f.1 directory

def systemDirectories : List Place :=
  let top := ["bin", "boot", "dev", "etc", "home", "lib", "media", "mnt", "opt", "proc", "root",
    "run", "sbin", "srv", "sys", "tmp", "usr", "var"]
  top.map (fun name => [name]) ++
    [["dev", "fd"], ["dev", "pts"], ["dev", "shm"], ["etc", "ssl"], ["proc", "self"],
      ["proc", "self", "fd"], ["proc", "sys"], ["run", "lock"], ["usr", "bin"], ["usr", "games"],
      ["usr", "include"], ["usr", "lib"], ["usr", "local"], ["usr", "local", "bin"],
      ["usr", "local", "lib"], ["usr", "sbin"], ["usr", "share"], ["usr", "src"], ["var", "cache"],
      ["var", "lib"], ["var", "log"], ["var", "tmp"]]

def streamDevices (name : String) (number : Nat) : List Place :=
  [["dev", name], ["dev", "fd", Nat.repr number], ["proc", "self", "fd", Nat.repr number]]

def inputDevices : List Place := streamDevices "stdin" 0

def programPlaces : List Place :=
  let names := ["[", "bash", "cat", "dash", "echo", "env", "false", "ls", "mv", "printf", "rm",
    "sh", "sleep", "test", "true", "wc"]
  names.flatMap fun name => [["bin", name], ["usr", "bin", name]]

def programStart : List UInt8 := [0x7f, 0x45, 0x4c, 0x46, 0x02, 0x01, 0x01, 0x00, 0xff]

def systemFiles : List (Place × List UInt8) :=
  let text (name contents : String) : Place × List UInt8 :=
    (["etc", name], contents.toUTF8.toList)
  devices.map (·, []) ++
    [text "group" "root:x:0:\n", text "hosts" "127.0.0.1\tlocalhost\n",
      text "passwd" "root:x:0:0:root:/root:/bin/sh\n"] ++
    programPlaces.map (·, programStart)

def onSystem (directories : List Place) (files : List (Place × List UInt8)) : Files :=
  ⟨systemDirectories ++ directories, systemFiles ++ files⟩

def withInput (fs : Files) (input : List UInt8) : Files :=
  { fs with files := inputDevices.map (·, input) ++ fs.files }

end Files

end SyntaxDrawing
