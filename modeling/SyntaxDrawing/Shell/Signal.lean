import SyntaxDrawing.Parser.Call
import SyntaxDrawing.Shell.Script

/-!
# Signals

Signals have numbers from one, names, and a text that a shell writes when a process that it waits
for ends by one. Number zero stands for the end of a shell.
-/

namespace SyntaxDrawing.Shell.Signal

def texts : List String :=
  ["Hangup", "Interrupt", "Quit", "Illegal instruction", "Trace/breakpoint trap", "Aborted",
    "Bus error", "Floating point exception", "Killed", "User defined signal 1",
    "Segmentation fault", "User defined signal 2", "Broken pipe", "Alarm clock", "Terminated",
    "Stack fault", "Child exited", "Continued", "Stopped (signal)", "Stopped",
    "Stopped (tty input)", "Stopped (tty output)", "Urgent I/O condition",
    "CPU time limit exceeded", "File size limit exceeded", "Virtual timer expired",
    "Profiling timer expired", "Window changed", "I/O possible", "Power failure", "Bad system call"]

def firstUnnamed : Nat := 34

def last : Nat := 64

def interrupt : Nat := 2

def quit : Nat := 3

def kill : Nat := 9

def brokenPipe : Nat := 13

def terminate : Nat := 15

def resume : Nat := 18

def stop : Nat := 19

def stopping : List Nat := [20, 21, 22]

def idle : List Nat := [17, 18, 23, 28]

def text (signal : Nat) : Raw :=
  match texts[signal - 1]? with
  | some text => Raw.ofString text
  | none =>
    Raw.ofString
      (if signal < firstUnnamed then "Unknown signal " ++ Nat.repr signal
        else "Real-time signal " ++ Nat.repr (signal - firstUnnamed))

/-- What is written about a process that ended by a signal: nothing about an interrupt or a broken
pipe. -/
def report? (signal : Nat) : Option Raw :=
  if signal = interrupt ∨ signal = brokenPipe then none else some (text signal)

def status (signal : Nat) : Nat :=
  128 + signal

def ofNumber? (cs : Raw) : Option Nat :=
  if isNatural cs && naturalOf cs ≤ last then some (naturalOf cs) else none

def ofWord? (cs : Raw) : Option Nat :=
  match ofNumber? cs with
  | some n => some n
  | none =>
    let text := String.ofList (cs.map Char.toUpper)
    if text = "EXIT" then some 0 else (Parser.signalNames.idxOf? text).map (· + 1)

end SyntaxDrawing.Shell.Signal
