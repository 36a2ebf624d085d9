import SyntaxDrawing.Document
import SyntaxDrawing.Drawing
import SyntaxDrawing.Parser.Call
import SyntaxDrawing.Service.Exchange
import SyntaxDrawing.Service.MediaType
import SyntaxDrawing.Service.SourceRequest

/-!
# The drawing service

Source text can be parsed, or parsed and drawn; a syntax tree can be drawn. Pages of any origin may
call: every response allows it, and every preflight request is granted whatever its path. Graphs
are not kept between requests, so a response depends on the request alone.
-/

namespace SyntaxDrawing

structure Service where
  parser : String → Parser.Answer
  policy : Policy
  geometry : Layout.Geometry Float

namespace Service

inductive Endpoint
  | parse
  | graph
  | graphOfTree
  | health
  deriving DecidableEq

def Endpoint.ofPath? (path : String) : Option Endpoint :=
  if path = "/parse" then some .parse
  else if path = "/graph" then some .graph
  else if path = "/graph/ast" then some .graphOfTree
  else if path = "/healthz" then some .health
  else none

def Endpoint.methods : Endpoint → List String
  | .health => ["GET", "HEAD"]
  | .parse | .graph | .graphOfTree => ["POST"]

inductive Refusal
  | invalidBody
  | oversizedTree
  | treeTooDeep
  | parser (failure : Parser.ParseFailure)
  | outputTooDeep
  | outputMalformed
  deriving DecidableEq

def Refusal.status : Refusal → Nat
  | .invalidBody | .treeTooDeep => 400
  | .oversizedTree => 413
  | .parser _ | .outputTooDeep | .outputMalformed => 500

def Refusal.message : Refusal → String
  | .invalidBody => "Invalid request body"
  | .oversizedTree => "Failed to buffer the request body: length limit exceeded"
  | .treeTooDeep => "Syntax tree nests too deeply"
  | .parser (.tempFile _) => "Failed to create temporary file"
  | .parser (.spawn _ _) | .parser (.failed _ _) => "Failed to execute parser command"
  | .parser (.timeout _) => "Parser timed out"
  | .parser (.invalidOutput _) => "Parser returned invalid JSON"
  | .outputTooDeep => "Parser output nests too deeply"
  | .outputMalformed => "Parser returned invalid JSON"

def bodyLimit : Nat := 2097152

/-- The source text of a request. The request has to say that its body is JSON. -/
def sourceOf (r : Request) : Except Refusal String :=
  if ((r.header? "content-type").bind MediaType.ofString?).any MediaType.isJson then
    if bodyLimit < r.body.length then .error .invalidBody
    else
      match readCode r.body with
      | none => .error .invalidBody
      | some code => .ok code
  else .error .invalidBody

def parse (s : Service) (r : Request) : Except Refusal String :=
  match sourceOf r with
  | .error refusal => .error refusal
  | .ok code =>
    match s.parser code with
    | .error failure => .error (.parser failure)
    | .ok document => .ok document

def drawingText (s : Service) (document : Json.Value) : String :=
  (drawJson s.policy s.geometry document).toJson.compact

def graph (s : Service) (r : Request) : Except Refusal String :=
  match s.parse r with
  | .error refusal => .error refusal
  | .ok document =>
    match readDocument (Text.Utf8.encode document) with
    | .error (.tooDeep _) => .error .outputTooDeep
    | .error (.malformed _) => .error .outputMalformed
    | .ok document => .ok (s.drawingText document)

def graphOfTree (s : Service) (r : Request) : Except Refusal String :=
  if bodyLimit < r.body.length then .error .oversizedTree
  else
    match readDocument r.body with
    | .error (.tooDeep _) => .error .treeTooDeep
    | .error (.malformed _) => .error .invalidBody
    | .ok document => .ok (s.drawingText document)

def bare (status : Nat) : Response :=
  ⟨status, [], ""⟩

def ofResult : Except Refusal String → Response
  | .ok body => ⟨200, [("content-type", "application/json")], body⟩
  | .error refusal =>
    ⟨refusal.status, [("content-type", "text/plain; charset=utf-8")], refusal.message⟩

def serve (s : Service) (r : Request) : Endpoint → Response
  | .parse => ofResult (s.parse r)
  | .graph => ofResult (s.graph r)
  | .graphOfTree => ofResult (s.graphOfTree r)
  | .health => bare 200

def Response.adding (response : Response) (headers : List (String × String)) : Response :=
  { response with headers := response.headers ++ headers }

def Endpoint.allow (e : Endpoint) : String × String :=
  ("allow", ",".intercalate e.methods)

def granted : List (String × String) :=
  [("access-control-allow-headers", "content-type"),
    ("access-control-allow-methods", "POST,OPTIONS")]

def always : List (String × String) :=
  [("access-control-allow-origin", "*"),
    ("vary", "origin, access-control-request-method, access-control-request-headers")]

/-- The response to a request: one of another method than the endpoint's learns them. -/
def route (s : Service) (r : Request) : Response :=
  let preflight := r.method == "OPTIONS"
  match Endpoint.ofPath? r.path with
  | none => if preflight then (bare 200).adding granted else bare 404
  | some e =>
    if preflight then (bare 200).adding (e.allow :: granted)
    else if e.methods.contains r.method then s.serve r e
    else (bare 405).adding [e.allow]

def respond (s : Service) (r : Request) : Response :=
  (s.route r).adding always

end Service

end SyntaxDrawing
