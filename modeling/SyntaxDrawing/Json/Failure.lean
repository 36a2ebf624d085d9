/-!
# What can be wrong with a JSON text

A `Fault` is a cause together with the number of bytes that were unread when it was met; `locate`
turns that into a line and a column of the text. A cause is met either behind a byte that was taken
or at a byte that is only looked at, which the column then counts.
-/

namespace SyntaxDrawing.Json

inductive Cause
  | endInValue
  | endInString
  | endInArray
  | endInObject
  | expectedColon
  | expectedCommaOrBracket
  | expectedCommaOrBrace
  | expectedIdent
  | expectedValue
  | invalidEscape
  | invalidNumber
  | numberOutOfRange
  | invalidCodePoint
  | controlCharacter
  | keyNotString
  | loneSurrogate
  | endOfHexEscape
  | trailingComma
  | trailingCharacters
  | tooManyLevels
  | notText (found : String)
  deriving DecidableEq

def Cause.text : Cause → String
  | .endInValue => "EOF while parsing a value"
  | .endInString => "EOF while parsing a string"
  | .endInArray => "EOF while parsing a list"
  | .endInObject => "EOF while parsing an object"
  | .expectedColon => "expected `:`"
  | .expectedCommaOrBracket => "expected `,` or `]`"
  | .expectedCommaOrBrace => "expected `,` or `\x7d`"
  | .expectedIdent => "expected ident"
  | .expectedValue => "expected value"
  | .invalidEscape => "invalid escape"
  | .invalidNumber => "invalid number"
  | .numberOutOfRange => "number out of range"
  | .invalidCodePoint => "invalid unicode code point"
  | .controlCharacter => "control character (\\u0000-\\u001F) found while parsing a string"
  | .keyNotString => "key must be a string"
  | .loneSurrogate => "lone leading surrogate in hex escape"
  | .endOfHexEscape => "unexpected end of hex escape"
  | .trailingComma => "trailing comma"
  | .trailingCharacters => "trailing characters"
  | .tooManyLevels => "recursion limit exceeded"
  | .notText found => "invalid type: " ++ found ++ ", expected raw value"

/-- A cause met with `unread` bytes left. The column is moved back by `back` bytes. -/
structure Fault where
  cause : Cause
  unread : Nat
  back : Nat
  deriving DecidableEq

def Fault.behind (cause : Cause) (rest : List UInt8) : Fault :=
  ⟨cause, rest.length, 0⟩

/-- A cause met at the next byte, or at the end of the text if there is none. -/
def Fault.ahead (cause : Cause) (rest : List UInt8) : Fault :=
  ⟨cause, rest.length - 1, 0⟩

/-- A cause with its place: lines count from one, columns are the bytes since the last line
break. -/
structure Failure where
  cause : Cause
  line : Nat
  column : Nat
  deriving DecidableEq

def Failure.message (f : Failure) : String :=
  f.cause.text ++ " at line " ++ Nat.repr f.line ++ " column " ++ Nat.repr f.column

def lineBreak : UInt8 := 0x0a

def Fault.locate (f : Fault) (text : List UInt8) : Failure :=
  let taken := text.take (text.length - f.unread)
  { cause := f.cause
    line := taken.count lineBreak + 1
    column := (taken.reverse.takeWhile (· != lineBreak)).length - f.back }

end SyntaxDrawing.Json
