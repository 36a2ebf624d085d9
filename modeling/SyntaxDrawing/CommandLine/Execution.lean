import SyntaxDrawing.CommandLine.Help
import SyntaxDrawing.Document
import SyntaxDrawing.Drawing
import SyntaxDrawing.Files
import SyntaxDrawing.Json.Printer

/-!
# Running a command line

A tree is laid out here; everything else is asked of a server, over a `Transport` that may fail to
bring an answer. The file to be read is read first.
-/

namespace SyntaxDrawing.CommandLine

def standardUrl : String := "http://127.0.0.1:4000"

def standardInput : String := "-"

inductive Failure
  | read (path reason : String)
  | http
  | server (status : Nat) (message : String)
  | invalidTree (failure : DocumentFailure)
  deriving DecidableEq

def Failure.message : Failure → String
  | .read path reason => "failed to read " ++ path ++ ": " ++ reason
  | .http => "http request failed"
  | .server status message => "server returned HTTP " ++ Nat.repr status ++ ": " ++ message
  | .invalidTree failure => "invalid syntax tree: " ++ failure.message

structure Reply where
  status : Nat
  body : String
  deriving DecidableEq

def Reply.isSuccess (r : Reply) : Bool :=
  200 ≤ r.status && r.status < 300

/-- A way to send requests; a request without a body is sent with the method `GET`. -/
abbrev Transport : Type :=
  (url : String) → (body : Option String) → Option Reply

def trimUrl (url : String) : String :=
  String.ofList (url.toList.reverse.dropWhile (· == '/')).reverse

def Invocation.url (i : Invocation) : String :=
  trimUrl (i.baseUrl.getD standardUrl)

def Invocation.input (i : Invocation) : String :=
  i.arguments.input.getD standardInput

def sourceText (path : String) : Except String (List UInt8) → Except Failure String
  | .error reason => .error (.read path reason)
  | .ok bytes =>
    match Text.Utf8.decode? bytes with
    | some text => .ok text
    | none =>
      let reason :=
        if path = standardInput then ((Text.Utf8.fault? bytes).map (·.message)).getD ""
        else "stream did not contain valid UTF-8"
      .error (.read path reason)

def line (text : String) : String :=
  text ++ "\n"

/-- Prints a document with a line for each item. One that nests too deep is printed as it came,
without the blanks at its end. -/
def printDocument (body : String) : Except Failure String :=
  match readDocument (Text.Utf8.encode body) with
  | .ok document => .ok (line document.indented)
  | .error (.tooDeep _) => .ok (line (Text.trimEnd body))
  | .error failure => .error (.invalidTree failure)

def Arguments.geometry (a : Arguments) : Layout.Geometry Float :=
  a.lengths.foldr (fun (d, length) g => d.assign length g) .standard

def Arguments.policy (a : Arguments) : Policy :=
  if a.skipUntyped then .skip else .emit

def runLayout (a : Arguments) (text : String) : Except Failure String :=
  match readDocument (Text.Utf8.encode text) with
  | .error failure => .error (.invalidTree failure)
  | .ok document => .ok (line (drawJson a.policy a.geometry document).toJson.indented)

def runPing (send : Transport) (url : String) : Except Failure String :=
  match send (url ++ "/healthz") none with
  | none => .error .http
  | some reply =>
    if reply.isSuccess then .ok (line "ok")
    else .error (.server reply.status "health check failed")

def runRemote (send : Transport) (url code : String) : Except Failure String :=
  let body : Json.Value := .object [("code", .string code)]
  match send url (some body.compact) with
  | none => .error .http
  | some reply =>
    if reply.isSuccess then printDocument reply.body
    else .error (.server reply.status reply.body)

/-- What a command line prints. `contents` is what its input holds. -/
def Invocation.run (i : Invocation) (contents : Except String (List UInt8)) (send : Transport) :
    Except Failure String :=
  match i.subcommand with
  | .ping => runPing send i.url
  | subcommand =>
    match sourceText i.input contents with
    | .error failure => .error failure
    | .ok text =>
      match subcommand with
      | .layout => runLayout i.arguments text
      | subcommand => runRemote send (i.url ++ "/" ++ subcommand.name) text

inductive Outcome
  | printed (text : String)
  | failed (failure : Failure)
  | refused (failure : UsageFailure)
  deriving DecidableEq

/-- The exit status: two if nothing was run. -/
def Outcome.status : Outcome → Nat
  | .printed _ => 0
  | .failed _ => 1
  | .refused _ => 2

def Outcome.ofRefusal : Refusal → Outcome
  | .help scope => .printed (line ("\n".intercalate scope.help))
  | .usage failure => .refused failure

def Outcome.ofResult : Except Failure String → Outcome
  | .ok text => .printed text
  | .error failure => .failed failure

/-- What a command line can see and reach. Relative paths start at `directory`. -/
structure Surroundings where
  baseUrl : Option String
  input : List UInt8
  files : Files
  directory : Place
  send : Transport

def Surroundings.contents (s : Surroundings) (path : String) : Except String (List UInt8) :=
  if path = standardInput then .ok s.input
  else ((s.files.withInput s.input).read s.directory path).mapError FileFault.message

def Surroundings.run (s : Surroundings) (words : List String) : Outcome :=
  match interpret s.baseUrl words with
  | .error refusal => .ofRefusal refusal
  | .ok i => .ofResult (i.run (s.contents i.input) s.send)

end SyntaxDrawing.CommandLine
