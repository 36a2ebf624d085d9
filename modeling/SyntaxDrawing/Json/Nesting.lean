import SyntaxDrawing.Json.Lexeme

/-!
# The nesting of a text

One pass over the bytes counts open brackets outside of strings. The text need not be well formed: a
closing bracket that closes nothing is passed over, and kinds of brackets are not told apart.
-/

namespace SyntaxDrawing.Json

/-- Where the pass stands: outside of strings, inside of one, or behind a backslash inside of
one. -/
inductive Place
  | outside
  | inside
  | escaped
  deriving DecidableEq

structure Depth where
  place : Place
  current : Nat
  deepest : Nat
  deriving DecidableEq

def Depth.zero : Depth := ⟨.outside, 0, 0⟩

def Depth.pass (d : Depth) (b : UInt8) : Depth :=
  match d.place with
  | .escaped => { d with place := .inside }
  | .inside =>
    if b = byte '\\' then { d with place := .escaped }
    else if b = byte '"' then { d with place := .outside }
    else d
  | .outside =>
    if b = byte '"' then { d with place := .inside }
    else if b = byte '[' ∨ b = byte '\x7b' then
      { d with current := d.current + 1, deepest := max d.deepest (d.current + 1) }
    else if b = byte ']' ∨ b = byte '\x7d' then { d with current := d.current - 1 }
    else d

/-- The deepest nesting of brackets outside of strings. -/
def nestingDepth (text : List UInt8) : Nat :=
  (text.foldl Depth.pass Depth.zero).deepest

end SyntaxDrawing.Json
