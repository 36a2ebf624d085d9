import SyntaxDrawing.Json.Scanner
import SyntaxDrawing.Settings

/-!
# Calling the external parser

A call writes the source text to a file of its own, runs the parser's command on it, removes the
file and answers with what the command printed. The calls' stages and what the system answers at
each of them are data, so that calls can be run on any `Host` and interleaved with one another. The
answer is settled before the file is removed, and removing it cannot change the answer.
-/

namespace SyntaxDrawing.Parser

inductive ExitStatus
  | exited (code : Nat)
  | signalled (signal : Nat) (isCoreDumped : Bool)
  deriving DecidableEq

def ExitStatus.isSuccess : ExitStatus → Bool
  | .exited code => code == 0
  | .signalled _ _ => false

/-- The names of the signals, by number from one. -/
def signalNames : List String :=
  ["HUP", "INT", "QUIT", "ILL", "TRAP", "ABRT", "BUS", "FPE", "KILL", "USR1", "SEGV", "USR2",
    "PIPE", "ALRM", "TERM", "STKFLT", "CHLD", "CONT", "STOP", "TSTP", "TTIN", "TTOU", "URG",
    "XCPU", "XFSZ", "VTALRM", "PROF", "WINCH", "IO", "PWR", "SYS"]

def ExitStatus.text : ExitStatus → String
  | .exited code => "exit status: " ++ Nat.repr code
  | .signalled signal isCoreDumped =>
    "signal: " ++ Nat.repr signal ++
      ((signalNames[signal - 1]?).map fun name => " (SIG" ++ name ++ ")").getD "" ++
      if isCoreDumped then " (core dumped)" else ""

inductive ParseFailure
  | tempFile (reason : String)
  | spawn (command reason : String)
  | timeout (millis : Nat)
  | failed (status stderr : String)
  | invalidOutput (failure : Json.Failure)
  deriving DecidableEq

def ParseFailure.message : ParseFailure → String
  | .tempFile reason => "failed to write temporary source file: " ++ reason
  | .spawn command reason => "failed to execute " ++ command ++ ": " ++ reason
  | .timeout millis => "parser timed out after " ++ Nat.repr millis ++ "ms"
  | .failed status stderr => "parser exited with " ++ status ++ ": " ++ stderr
  | .invalidOutput failure => "parser produced invalid JSON: " ++ failure.message

abbrev Answer : Type :=
  Except ParseFailure String

/-- What became of writing the file. It may have come into being although writing it failed. -/
inductive Writing
  | done
  | refused (reason : String)
  | broken (reason : String)
  deriving DecidableEq

inductive Running
  | unspawned (reason : String)
  | timedOut
  | ended (status : ExitStatus) (stdout stderr : List UInt8)
  deriving DecidableEq

def excerptLength : Nat := 512

def excerpt (stderr : List UInt8) : String :=
  String.ofList (Text.trimChars ((Text.Utf8.decodeLossy stderr).toList.take excerptLength))

def checkOutput (stdout : List UInt8) : Answer :=
  match Json.scanDocument stdout with
  | .ok document => .ok document
  | .error failure => .error (.invalidOutput failure)

def answerOf (settings : ParserSettings) : Running → Answer
  | .unspawned reason => .error (.spawn settings.command reason)
  | .timedOut => .error (.timeout settings.timeoutMillis)
  | .ended status stdout stderr =>
    if status.isSuccess then checkOutput stdout
    else .error (.failed status.text (excerpt stderr))

inductive Stage
  | writing
  | running
  | removing (answer : Answer)
  | returned (answer : Answer)

structure Call where
  settings : ParserSettings
  file : String
  code : String
  stage : Stage

def Call.begin (settings : ParserSettings) (file code : String) : Call :=
  ⟨settings, file, code, .writing⟩

/-- A call whose file could not be written is over; nothing is removed. -/
def Call.wrote (c : Call) : Writing → Call
  | .done => { c with stage := .running }
  | .refused reason => { c with stage := .returned (.error (.tempFile reason)) }
  | .broken reason => { c with stage := .returned (.error (.tempFile reason)) }

def Call.ran (c : Call) (r : Running) : Call :=
  { c with stage := .removing (answerOf c.settings r) }

def Call.removed (c : Call) (answer : Answer) : Call :=
  { c with stage := .returned answer }

/-- A system on which calls run: its state is passed along. -/
structure Host (σ : Type) where
  write : (file : String) → (contents : List UInt8) → σ → Writing × σ
  run : (command : String) → (args : List String) → (timeoutMillis : Nat) → σ → Running × σ
  remove : (file : String) → σ → σ

variable {σ : Type}

/-- Takes a call one stage further. A call that has returned stays as it is. -/
def Call.advance (h : Host σ) (c : Call) (s : σ) : Call × σ :=
  match c.stage with
  | .writing =>
    let (w, s) := h.write c.file (Text.Utf8.encode c.code) s
    (c.wrote w, s)
  | .running =>
    let (r, s) := h.run c.settings.command (c.settings.args ++ [c.file]) c.settings.timeoutMillis s
    (c.ran r, s)
  | .removing answer => (c.removed answer, h.remove c.file s)
  | .returned _ => (c, s)

def Stage.remaining : Stage → Nat
  | .writing => 3
  | .running => 2
  | .removing _ => 1
  | .returned _ => 0

theorem Call.remaining_advance (h : Host σ) (c : Call) (s : σ)
    (hc : c.stage.remaining ≠ 0) :
    (c.advance h s).1.stage.remaining < c.stage.remaining := by
  unfold Call.advance
  split
  · next hs =>
    rw [hs]
    generalize h.write c.file (Text.Utf8.encode c.code) s = p
    obtain ⟨w, s⟩ := p
    cases w <;> simp [Call.wrote, Stage.remaining]
  · next hs =>
    rw [hs]
    simp [Call.ran, Stage.remaining]
  · next hs =>
    rw [hs]
    simp [Call.removed, Stage.remaining]
  · next hs =>
    rw [hs] at hc
    simp [Stage.remaining] at hc

def Call.complete (h : Host σ) (c : Call) (s : σ) : Answer × σ :=
  match _hs : c.stage with
  | .returned answer => (answer, s)
  | .writing | .running | .removing _ =>
    (c.advance h s).1.complete h (c.advance h s).2
termination_by c.stage.remaining
decreasing_by
  all_goals exact Call.remaining_advance h c s (by simp [_hs, Stage.remaining])

def filePath (directory uuid suffix : String) : String :=
  directory ++ "/code-" ++ uuid ++ suffix

def parse (h : Host σ) (settings : ParserSettings) (directory uuid code : String) (s : σ) :
    Answer × σ :=
  (Call.begin settings (filePath directory uuid settings.fileSuffix) code).complete h s

end SyntaxDrawing.Parser
