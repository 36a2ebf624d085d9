import SyntaxDrawing.Json.Scanner

/-!
# The body of a request that brings source text

The body is a JSON document: an object with exactly one `code`, which is a string, or an array of
exactly one string. The values of other fields are passed over unread.
-/

namespace SyntaxDrawing.Service

open Json

def codeKey : String := "code"

def expect (c : Char) (rest : List UInt8) : Option (List UInt8) :=
  match skipBlank rest with
  | [] => none
  | b :: rest => if b = byte c then some rest else none

theorem expect_length {c : Char} {rest rest' : List UInt8} (h : expect c rest = some rest') :
    rest'.length < rest.length := by
  unfold expect at h
  split at h
  · cases h
  · next hs =>
    split at h
    · cases h
      exact length_of_skipBlank_eq hs
    · cases h

def expectText (rest : List UInt8) : Option (String × List UInt8) :=
  match expect '"' rest with
  | none => none
  | some rest => (readText rest).toOption

theorem expectText_length {rest rest' : List UInt8} {s : String}
    (h : expectText rest = some (s, rest')) : rest'.length < rest.length := by
  unfold expectText at h
  split at h
  · cases h
  · next he =>
    have h₁ := expect_length he
    generalize hr : readText _ = r at h
    cases r with
    | error f => cases h
    | ok p =>
      cases h
      have h₂ := readText_length hr
      omega

/-- Takes one field. The code is the value of its key, if this is that field. -/
def readField (code : Option String) (rest : List UInt8) :
    Option (Option String × List UInt8) :=
  match expectText rest with
  | none => none
  | some (key, rest) =>
    match expect ':' rest with
    | none => none
    | some rest =>
      if key = codeKey then
        if code.isSome then none else (expectText rest).map fun (s, rest) => (some s, rest)
      else (scanValue rest).toOption.map fun rest => (code, rest)

theorem readField_length {code code' : Option String} {rest rest' : List UInt8}
    (h : readField code rest = some (code', rest')) : rest'.length < rest.length := by
  unfold readField at h
  split at h
  · cases h
  · next hk =>
    have h₁ := expectText_length hk
    split at h
    · cases h
    · next hc =>
      have h₂ := expect_length hc
      split at h
      · split at h
        · cases h
        · obtain ⟨⟨s, r⟩, hv, he⟩ := Option.map_eq_some_iff.1 h
          cases he
          have h₃ := expectText_length hv
          omega
      · generalize hs : scanValue _ = r at h
        cases r with
        | error f => cases h
        | ok r =>
          cases h
          have h₃ := scanValue_length hs
          omega

def readFields (code : Option String) (rest : List UInt8) : Option (String × List UInt8) :=
  match _h : readField code rest with
  | none => none
  | some (code, rest') =>
    match _hc : expect ',' rest' with
    | some rest'' => readFields code rest''
    | none =>
      match expect '\x7d' rest' with
      | none => none
      | some rest'' => code.map fun s => (s, rest'')
termination_by rest.length
decreasing_by exact Nat.lt_trans (expect_length _hc) (readField_length _h)

def readSingle (rest : List UInt8) : Option (String × List UInt8) :=
  match expectText rest with
  | none => none
  | some (s, rest) => (expect ']' rest).map fun rest => (s, rest)

def readCode (body : List UInt8) : Option String :=
  let source :=
    match expect '\x7b' body with
    | some rest => readFields none rest
    | none => (expect '[' body).bind readSingle
  match source with
  | none => none
  | some (code, rest) => if (skipBlank rest).isEmpty then some code else none

end SyntaxDrawing.Service
