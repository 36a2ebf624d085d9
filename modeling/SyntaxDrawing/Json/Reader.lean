import SyntaxDrawing.Decimal.Text
import SyntaxDrawing.Json.Numeral

/-!
# Reading JSON values

The reader is a machine that keeps the arrays and objects it is inside of on a list, innermost
first, so `State.frames` shows at every moment what is open. Every step takes at least one byte,
which is the measure that ends a run.

An object whose first key is `embeddedKey` stands for the document that its only member, a string,
spells. The machine goes on inside the string and comes back behind it; only there is the number of
levels limited.
-/

namespace SyntaxDrawing.Json

-- Sums mean those of the core library, whatever else is imported beside it.
attribute [local instance (high)] Zero.ofOfNat0

/-- The key of an object that stands for the document in its only member. -/
def embeddedKey : String := "$serde_json::private::RawValue"

/-- The levels that a document inside a string may have. -/
def embeddedLevels : Nat := 127

/-- Something open: an array with its items so far, last first; an object with its members so far
and the key whose value is awaited; or the object around an embedded document, with the text
outside and what of it is unread. -/
inductive Frame
  | array (items : List Value)
  | object (fields : List (String × Value)) (key : String)
  | embedded (text resume : List UInt8)

inductive Phase
  | value
  | after (v : Value)

structure State where
  text : List UInt8
  frames : List Frame
  phase : Phase
  rest : List UInt8

def State.initial (text : List UInt8) : State :=
  ⟨text, [], .value, text⟩

def Frame.isEmbedded : Frame → Bool
  | .embedded .. => true
  | _ => false

def State.levels (s : State) : Nat :=
  (s.frames.takeWhile fun frame => !frame.isEmbedded).length

/-- Whether no level may be opened any more: never outside of embedded documents. -/
def State.isFull (s : State) : Bool :=
  s.frames.any Frame.isEmbedded && embeddedLevels ≤ s.levels

/-- The bytes that are unread, those outside of embedded documents included. -/
def Frame.unread : Frame → Nat
  | .embedded _ resume => resume.length
  | _ => 0

def State.unread (s : State) : Nat :=
  s.rest.length + (s.frames.map Frame.unread).sum

def State.fail {α : Type} (s : State) (f : Fault) : Except Failure α :=
  .error (f.locate s.text)

inductive Progress
  | running (s : State)
  | finished (v : Value)

def State.deliver (s : State) (v : Value) (rest : List UInt8) : Except Failure Progress :=
  .ok (.running { s with phase := .after v, rest })

def Number.description : Number → String
  | .integer i => "integer `" ++ Decimal.integerText i ++ "`"
  | .real x => "floating point `" ++ (Decimal.floatText? x).getD "" ++ "`"

/-- The fault of a value that stands where an embedded document is awaited. Arrays and objects are
not entered. -/
def faultOfOther (b : UInt8) (rest : List UInt8) : Fault :=
  let word (letters : String) (description : String) : Fault :=
    match readWord (Text.Utf8.encode letters) rest with
    | .error f => f
    | .ok rest => .behind (.notText description) rest
  let number (negative : Bool) (rest : List UInt8) : Fault :=
    match readNumber negative rest with
    | .error f => f
    | .ok (n, rest) => .behind (.notText n.description) rest
  if b = byte 'n' then word "ull" "null"
  else if b = byte 't' then word "rue" "boolean `true`"
  else if b = byte 'f' then word "alse" "boolean `false`"
  else if b = byte '-' then number true rest
  else if isDigitByte b then number false (b :: rest)
  else if b = byte '[' then .behind (.notText "sequence") (b :: rest)
  else if b = byte '\x7b' then .behind (.notText "map") (b :: rest)
  else .ahead .expectedValue (b :: rest)

def State.enter (s : State) (rest : List UInt8) : Except Failure Progress :=
  match skipBlank rest with
  | [] => s.fail (.ahead .endInValue [])
  | b :: rest =>
    if b = byte '"' then
      match readText rest with
      | .error f => s.fail f
      | .ok (content, rest) =>
        let text := Text.Utf8.encode content
        .ok (.running ⟨text, .embedded s.text rest :: s.frames, .value, text⟩)
    else s.fail (faultOfOther b rest)

def State.member (s : State) (isFirst : Bool) (fields : List (String × Value))
    (rest : List UInt8) : Except Failure Progress :=
  match readText rest with
  | .error f => s.fail f
  | .ok (key, rest) =>
    match skipBlank rest with
    | [] => s.fail (.ahead .endInObject [])
    | b :: rest =>
      if b = byte ':' then
        if isFirst && key == embeddedKey then s.enter rest
        else
          .ok (.running { s with frames := .object fields key :: s.frames, phase := .value, rest })
      else s.fail (.ahead .expectedColon (b :: rest))

def State.openArray (s : State) (rest : List UInt8) : Except Failure Progress :=
  match skipBlank rest with
  | [] => s.fail (.ahead .endInArray [])
  | b :: rest =>
    if b = byte ']' then s.deliver (.array []) rest
    else
      .ok (.running { s with frames := .array [] :: s.frames, phase := .value, rest := b :: rest })

def State.openObject (s : State) (rest : List UInt8) : Except Failure Progress :=
  match skipBlank rest with
  | [] => s.fail (.ahead .endInObject [])
  | b :: rest =>
    if b = byte '\x7d' then s.deliver (.object []) rest
    else if b = byte '"' then s.member true [] rest
    else s.fail (.ahead .keyNotString (b :: rest))

def State.word (s : State) (letters : String) (v : Value) (rest : List UInt8) :
    Except Failure Progress :=
  match readWord (Text.Utf8.encode letters) rest with
  | .error f => s.fail f
  | .ok rest => s.deliver v rest

def State.number (s : State) (negative : Bool) (rest : List UInt8) : Except Failure Progress :=
  match readNumber negative rest with
  | .error f => s.fail f
  | .ok (n, rest) => s.deliver (.number n) rest

def State.begin (s : State) : Except Failure Progress :=
  match skipBlank s.rest with
  | [] => s.fail (.ahead .endInValue [])
  | b :: rest =>
    if b = byte 'n' then s.word "ull" .null rest
    else if b = byte 't' then s.word "rue" (.bool true) rest
    else if b = byte 'f' then s.word "alse" (.bool false) rest
    else if b = byte '-' then s.number true rest
    else if isDigitByte b then s.number false (b :: rest)
    else if b = byte '"' then
      match readText rest with
      | .error f => s.fail f
      | .ok (content, rest) => s.deliver (.string content) rest
    else if b = byte '[' ∨ b = byte '\x7b' then
      if s.isFull then s.fail (.ahead .tooManyLevels (b :: rest))
      else if b = byte '[' then s.openArray rest
      else s.openObject rest
    else s.fail (.ahead .expectedValue (b :: rest))

def State.afterItem (s : State) (items : List Value) (frames : List Frame) :
    Except Failure Progress :=
  match skipBlank s.rest with
  | [] => s.fail (.ahead .endInArray [])
  | b :: rest =>
    if b = byte ',' then
      match skipBlank rest with
      | [] => s.fail (.ahead .endInValue [])
      | c :: rest =>
        if c = byte ']' then s.fail (.ahead .trailingComma (c :: rest))
        else
          .ok (.running
            { s with frames := .array items :: frames, phase := .value, rest := c :: rest })
    else if b = byte ']' then { s with frames }.deliver (.array items.reverse) rest
    else s.fail (.ahead .expectedCommaOrBracket (b :: rest))

def State.afterMember (s : State) (fields : List (String × Value)) (frames : List Frame) :
    Except Failure Progress :=
  match skipBlank s.rest with
  | [] => s.fail (.ahead .endInObject [])
  | b :: rest =>
    if b = byte ',' then
      match skipBlank rest with
      | [] => s.fail (.ahead .endInValue [])
      | c :: rest =>
        if c = byte '"' then { s with frames }.member false fields rest
        else if c = byte '\x7d' then s.fail (.ahead .trailingComma (c :: rest))
        else s.fail (.ahead .keyNotString (c :: rest))
    else if b = byte '\x7d' then { s with frames }.deliver (.object fields) rest
    else s.fail (.ahead .expectedCommaOrBrace (b :: rest))

/-- An embedded document has been read to its end. It is the only member of its object. -/
def State.leave (s : State) (v : Value) : Except Failure Progress :=
  match skipBlank s.rest with
  | [] => s.fail (.ahead .endInObject [])
  | b :: rest =>
    if b = byte '\x7d' then s.deliver v rest
    else if b = byte ',' then s.fail (.ahead .trailingComma (b :: rest))
    else s.fail (.ahead .trailingCharacters (b :: rest))

def State.atEnd (s : State) : Except Failure Unit :=
  match skipBlank s.rest with
  | [] => .ok ()
  | b :: rest => s.fail (.ahead .trailingCharacters (b :: rest))

def State.step (s : State) : Except Failure Progress :=
  match s.phase with
  | .value => s.begin
  | .after v =>
    match s.frames with
    | [] => s.atEnd.map fun _ => .finished v
    | .array items :: frames => s.afterItem (v :: items) frames
    | .object fields key :: frames => s.afterMember (assign key v fields) frames
    | .embedded text resume :: frames =>
      match s.atEnd with
      | .error f => .error f
      | .ok _ => (⟨text, frames, .value, resume⟩ : State).leave v

theorem State.fail_ne_ok {α : Type} {s : State} {f : Fault} {a : α} : s.fail f ≠ .ok a := by
  simp [State.fail]

theorem State.deliver_unread {s s' : State} {v : Value} {rest : List UInt8}
    (h : s.deliver v rest = .ok (.running s')) (hlt : rest.length < s.rest.length) :
    s'.unread < s.unread := by
  simp only [State.deliver, Except.ok.injEq, Progress.running.injEq] at h
  subst h
  simpa [State.unread] using hlt

theorem State.enter_unread {s s' : State} {rest : List UInt8}
    (h : s.enter rest = .ok (.running s')) (hle : rest.length ≤ s.rest.length) :
    s'.unread < s.unread := by
  unfold State.enter at h
  split at h
  · exact absurd h State.fail_ne_ok
  · next b rest₁ hb =>
    have h₁ := length_of_skipBlank_eq hb
    split at h
    · split at h
      · exact absurd h State.fail_ne_ok
      · next ht =>
        have h₂ := readText_length ht
        cases h
        simp only [State.unread, List.map_cons, List.sum_cons, Frame.unread]
        omega
    · exact absurd h State.fail_ne_ok

theorem State.member_unread {s s' : State} {isFirst : Bool} {fields : List (String × Value)}
    {rest : List UInt8} (h : s.member isFirst fields rest = .ok (.running s'))
    (hle : rest.length ≤ s.rest.length) : s'.unread < s.unread := by
  unfold State.member at h
  split at h
  · exact absurd h State.fail_ne_ok
  · next ht =>
    have h₁ := readText_length ht
    split at h
    · exact absurd h State.fail_ne_ok
    · next hb =>
      have h₂ := length_of_skipBlank_eq hb
      split at h
      · split at h
        · exact State.enter_unread h (by omega)
        · cases h
          simp only [State.unread, List.map_cons, List.sum_cons, Frame.unread]
          omega
      · exact absurd h State.fail_ne_ok

theorem State.openArray_unread {s s' : State} {rest : List UInt8}
    (h : s.openArray rest = .ok (.running s')) (hlt : rest.length < s.rest.length) :
    s'.unread < s.unread := by
  unfold State.openArray at h
  split at h
  · exact absurd h State.fail_ne_ok
  · next hb =>
    have h₁ := length_of_skipBlank_eq hb
    split at h
    · exact State.deliver_unread h (by omega)
    · cases h
      simp only [State.unread, List.map_cons, List.sum_cons, Frame.unread, List.length_cons]
      omega

theorem State.openObject_unread {s s' : State} {rest : List UInt8}
    (h : s.openObject rest = .ok (.running s')) (hlt : rest.length < s.rest.length) :
    s'.unread < s.unread := by
  unfold State.openObject at h
  split at h
  · exact absurd h State.fail_ne_ok
  · next hb =>
    have h₁ := length_of_skipBlank_eq hb
    split at h
    · exact State.deliver_unread h (by omega)
    · split at h
      · exact State.member_unread h (by omega)
      · exact absurd h State.fail_ne_ok

theorem State.word_unread {s s' : State} {letters : String} {v : Value} {rest : List UInt8}
    (h : s.word letters v rest = .ok (.running s')) (hlt : rest.length < s.rest.length) :
    s'.unread < s.unread := by
  unfold State.word at h
  split at h
  · exact absurd h State.fail_ne_ok
  · next hw => exact State.deliver_unread h (Nat.lt_of_le_of_lt (readWord_length hw) hlt)

theorem State.number_unread {s s' : State} {negative : Bool} {rest : List UInt8}
    (h : s.number negative rest = .ok (.running s')) (hle : rest.length ≤ s.rest.length) :
    s'.unread < s.unread := by
  unfold State.number at h
  split at h
  · exact absurd h State.fail_ne_ok
  · next hn => exact State.deliver_unread h (Nat.lt_of_lt_of_le (readNumber_length hn) hle)

theorem State.begin_unread {s s' : State} (h : s.begin = .ok (.running s')) :
    s'.unread < s.unread := by
  unfold State.begin at h
  split at h
  · exact absurd h State.fail_ne_ok
  · next b rest hb =>
    have h₁ := length_of_skipBlank_eq hb
    split at h
    · exact State.word_unread h h₁
    split at h
    · exact State.word_unread h h₁
    split at h
    · exact State.word_unread h h₁
    split at h
    · exact State.number_unread h (Nat.le_of_lt h₁)
    split at h
    · exact State.number_unread h h₁
    split at h
    · split at h
      · exact absurd h State.fail_ne_ok
      · next ht =>
        have h₂ := readText_length ht
        exact State.deliver_unread h (by omega)
    split at h
    · split at h
      · exact absurd h State.fail_ne_ok
      · split at h
        · exact State.openArray_unread h h₁
        · exact State.openObject_unread h h₁
    · exact absurd h State.fail_ne_ok

theorem State.afterItem_unread {s s' : State} {items : List Value} {frames : List Frame}
    (h : s.afterItem items frames = .ok (.running s')) :
    s'.unread < s.rest.length + (frames.map Frame.unread).sum := by
  unfold State.afterItem at h
  split at h
  · exact absurd h State.fail_ne_ok
  · next hb =>
    have h₁ := length_of_skipBlank_eq hb
    split at h
    · split at h
      · exact absurd h State.fail_ne_ok
      · next hc =>
        have h₂ := length_of_skipBlank_eq hc
        split at h
        · exact absurd h State.fail_ne_ok
        · cases h
          simp only [State.unread, List.map_cons, List.sum_cons, Frame.unread, List.length_cons]
          omega
    · split at h
      · exact State.deliver_unread h h₁
      · exact absurd h State.fail_ne_ok

theorem State.afterMember_unread {s s' : State} {fields : List (String × Value)}
    {frames : List Frame} (h : s.afterMember fields frames = .ok (.running s')) :
    s'.unread < s.rest.length + (frames.map Frame.unread).sum := by
  unfold State.afterMember at h
  split at h
  · exact absurd h State.fail_ne_ok
  · next hb =>
    have h₁ := length_of_skipBlank_eq hb
    split at h
    · split at h
      · exact absurd h State.fail_ne_ok
      · next hc =>
        have h₂ := length_of_skipBlank_eq hc
        split at h
        · exact State.member_unread h (by simp only; omega)
        · split at h
          · exact absurd h State.fail_ne_ok
          · exact absurd h State.fail_ne_ok
    · split at h
      · exact State.deliver_unread h h₁
      · exact absurd h State.fail_ne_ok

theorem State.leave_unread {s s' : State} {v : Value} (h : s.leave v = .ok (.running s')) :
    s'.unread < s.unread := by
  unfold State.leave at h
  split at h
  · exact absurd h State.fail_ne_ok
  · next hb =>
    have h₁ := length_of_skipBlank_eq hb
    split at h
    · exact State.deliver_unread h h₁
    · split at h
      · exact absurd h State.fail_ne_ok
      · exact absurd h State.fail_ne_ok

theorem State.step_unread {s s' : State} (h : s.step = .ok (.running s')) :
    s'.unread < s.unread := by
  unfold State.step at h
  split at h
  · exact State.begin_unread h
  · split at h
    · cases hs : s.atEnd <;> rw [hs] at h <;> cases h
    · next hf =>
      have := State.afterItem_unread h
      simpa [State.unread, hf, Frame.unread] using this
    · next hf =>
      have := State.afterMember_unread h
      simpa [State.unread, hf, Frame.unread] using this
    · next hf =>
      split at h
      · cases h
      · have := State.leave_unread h
        simp only [State.unread, hf, List.map_cons, List.sum_cons, Frame.unread] at this ⊢
        omega

def State.run (s : State) : Except Failure Value :=
  match _h : s.step with
  | .error f => .error f
  | .ok (.finished v) => .ok v
  | .ok (.running s') => s'.run
termination_by s.unread
decreasing_by exact State.step_unread _h

def read (text : List UInt8) : Except Failure Value :=
  (State.initial text).run

end SyntaxDrawing.Json
