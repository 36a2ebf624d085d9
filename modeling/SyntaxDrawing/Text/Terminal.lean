import SyntaxDrawing.Text.Utf8

/-!
# Text on a terminal

A terminal takes some characters as commands: an escape character begins a sequence, and the other
control characters stand alone. Where a text does not go to a terminal, only what a terminal would
show is written.
-/

namespace SyntaxDrawing.Text.Terminal

/-- What is being read: text, or a part of a sequence. A message for the device begins with
parameters, which may be followed by qualifiers. -/
inductive State
  | text
  | escape
  | intermediate
  | control
  | command
  | opening
  | parameters
  | qualifiers
  | message
  deriving DecidableEq

def bell : Char := '\x07'

def escapeChar : Char := '\x1b'

def isBreak (c : Char) : Bool :=
  c == '\x18' || c == '\x1a'

def isControl (c : Char) : Bool :=
  decide (c < ' ') || c == '\x7f'

def isSpacing (c : Char) : Bool :=
  c == '\t' || c == '\n' || c == '\x0c' || c == '\r'

def isBetween (low high c : Char) : Bool :=
  decide (low ≤ c) && decide (c ≤ high)

def isVisible (c : Char) : Bool :=
  !isControl c || isSpacing c

def messageEnd : UInt8 := 0x9c

def endsMessage (c : Char) : Bool :=
  decide (c.val ≥ 0x80) && (Utf8.encode (String.singleton c)).contains messageEnd

def behindEscape (c : Char) : State :=
  if isBetween ' ' '/' c then .intermediate
  else if c = '[' then .control
  else if c = ']' then .command
  else if c = 'P' then .opening
  else if c = 'X' ∨ c = '^' ∨ c = '_' then .message
  else if isBetween '0' '~' c then .text
  else .escape

/-- The state behind a character at the start of a message for the device, which has been `state`. A
parameter where there may be none makes the rest of the message one that is passed over. -/
def behindOpening (state : State) (c : Char) : State :=
  if isBetween '@' '~' c then .message
  else if isBetween ' ' '/' c then .qualifiers
  else if isBetween '0' '?' c then
    match state with
    | .opening => .parameters
    | .parameters => if isBetween '<' '?' c then .message else .parameters
    | _ => .message
  else state

def State.next (state : State) (c : Char) : State :=
  if c = escapeChar then .escape
  else if isBreak c then .text
  else
    match state with
    | .text => .text
    | .escape => behindEscape c
    | .intermediate => if isBetween '0' '~' c then .text else .intermediate
    | .control => if isBetween '@' '~' c then .text else .control
    | .command => if c = bell then .text else .command
    | .opening => behindOpening .opening c
    | .parameters => behindOpening .parameters c
    | .qualifiers => behindOpening .qualifiers c
    | .message => if endsMessage c then .text else .message

/-- Whether a character is shown in a state. White space in a sequence is, if that is no command and
no message. -/
def State.shows (state : State) (c : Char) : Bool :=
  match state with
  | .text => isVisible c
  | .escape | .intermediate | .control => isSpacing c
  | _ => false

/-- Where the reading of a text is: while it `isShowing`, characters are shown as those of a text
are, and the state is that of a sequence which goes on behind them. -/
structure Display where
  state : State
  isShowing : Bool

def Display.start : Display :=
  ⟨.text, false⟩

/-- The display behind a character, and whether the character is shown. A character beyond ASCII
that is shown ends a sequence for good. -/
def Display.step (d : Display) (c : Char) : Display × Bool :=
  if d.isShowing && isVisible c then
    (⟨if c.val ≥ 0x80 then .text else d.state, true⟩, true)
  else if d.state.shows c then (⟨d.state.next c, true⟩, true)
  else (⟨d.state.next c, false⟩, false)

def shownFrom (d : Display) : List Char → List Char
  | [] => []
  | c :: rest =>
    let (next, isShown) := d.step c
    if isShown then c :: shownFrom next rest else shownFrom next rest

def shown (s : String) : String :=
  String.ofList (shownFrom .start s.toList)

end SyntaxDrawing.Text.Terminal
