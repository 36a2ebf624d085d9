/-!
# Requests and responses

The part of an HTTP exchange that a service can see: framing and the case of header names are
settled before a request is made and after a response is.
-/

namespace SyntaxDrawing.Service

/-- A request. Header names are in lower case. -/
structure Request where
  method : String
  target : String
  headers : List (String × String)
  body : List UInt8

structure Response where
  status : Nat
  headers : List (String × String)
  body : String
  deriving DecidableEq

def Request.header? (r : Request) (name : String) : Option String :=
  r.headers.lookup name

/-- A target that names a scheme and an authority is reduced to what follows them. -/
def originForm (target : List Char) : List Char :=
  match target with
  | '/' :: _ => target
  | _ =>
    match target.dropWhile (· != ':') with
    | ':' :: '/' :: '/' :: rest => rest.dropWhile fun c => !"/?#".toList.contains c
    | _ => target

/-- The path of the target, without its query. It is compared as it is spelt. -/
def Request.path (r : Request) : String :=
  String.ofList ((originForm r.target.toList).takeWhile fun c => c != '?' && c != '#')

end SyntaxDrawing.Service
