import SyntaxDrawing.Decimal.Text
import SyntaxDrawing.Json.Value

/-!
# Texts of JSON values

One writer serves both renderings: a `Spacing` says what stands before an item, before a closing
bracket and after a key. The compact rendering has no blanks; the indented one gives every item a
line of its own. Brackets with nothing between them are written together in both.
-/

namespace SyntaxDrawing.Json

/-- The blanks of a rendering. `lineAt depth` stands before whatever begins at that depth. -/
structure Spacing where
  lineAt : Nat → String
  colon : String

def Spacing.compact : Spacing := ⟨fun _ => "", ":"⟩

def Spacing.indented : Spacing :=
  ⟨fun depth => "\n" ++ String.ofList (List.replicate (2 * depth) ' '), ": "⟩

def hexDigit (n : Nat) : Char :=
  Char.ofNat (if n < 10 then 48 + n else 87 + n)

/-- A character inside a string: quotes, backslashes and controls are escaped and nothing else. -/
def escapeChar (c : Char) : List Char :=
  if c = '"' then ['\\', '"']
  else if c = '\\' then ['\\', '\\']
  else if c = '\x08' then ['\\', 'b']
  else if c = '\x0c' then ['\\', 'f']
  else if c = '\n' then ['\\', 'n']
  else if c = '\r' then ['\\', 'r']
  else if c = '\t' then ['\\', 't']
  else if c.toNat < 0x20 then
    ['\\', 'u', '0', '0', hexDigit (c.toNat / 16), hexDigit (c.toNat % 16)]
  else [c]

def quote (s : String) : String :=
  String.ofList ('"' :: s.toList.flatMap escapeChar ++ ['"'])

/-- A number that is not finite has no text of its own and is written as `null`. -/
def Number.text : Number → String
  | .integer i => Decimal.integerText i
  | .real x => (Decimal.floatText? x).getD "null"

mutual
def Value.writeOnto (spacing : Spacing) (depth : Nat) (text : String) : Value → String
  | .null => text ++ "null"
  | .bool b => text ++ if b then "true" else "false"
  | .number n => text ++ n.text
  | .string s => text ++ quote s
  | .array [] => text ++ "[]"
  | .array (item :: rest) =>
    writeItemsOnto spacing (depth + 1)
      (item.writeOnto spacing (depth + 1) (text ++ "[" ++ spacing.lineAt (depth + 1))) rest ++
      spacing.lineAt depth ++ "]"
  | .object [] => text ++ "\x7b\x7d"
  | .object ((key, value) :: rest) =>
    writeFieldsOnto spacing (depth + 1)
      (value.writeOnto spacing (depth + 1)
        (text ++ "\x7b" ++ spacing.lineAt (depth + 1) ++ quote key ++ spacing.colon)) rest ++
      spacing.lineAt depth ++ "\x7d"

def writeItemsOnto (spacing : Spacing) (depth : Nat) (text : String) : List Value → String
  | [] => text
  | item :: rest =>
    writeItemsOnto spacing depth
      (item.writeOnto spacing depth (text ++ "," ++ spacing.lineAt depth)) rest

def writeFieldsOnto (spacing : Spacing) (depth : Nat) (text : String) :
    List (String × Value) → String
  | [] => text
  | (key, value) :: rest =>
    writeFieldsOnto spacing depth
      (value.writeOnto spacing depth
        (text ++ "," ++ spacing.lineAt depth ++ quote key ++ spacing.colon)) rest
end

def Value.write (spacing : Spacing) (v : Value) : String :=
  v.writeOnto spacing 0 ""

def Value.compact (v : Value) : String :=
  v.write .compact

def Value.indented (v : Value) : String :=
  v.write .indented

end SyntaxDrawing.Json
