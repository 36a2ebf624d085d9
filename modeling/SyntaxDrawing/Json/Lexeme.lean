import SyntaxDrawing.Json.Failure
import SyntaxDrawing.Text.Utf8

/-!
# Words and strings of JSON texts

Readers take bytes off the front of a list and return the rest. The rest is shorter than what they
were given, and a string is no longer than the bytes that spell it; the lemmas on lengths say so.
-/

namespace SyntaxDrawing.Json

def byte (c : Char) : UInt8 :=
  UInt8.ofNat c.toNat

def isBlankByte (b : UInt8) : Bool :=
  b == byte ' ' || b == byte '\n' || b == byte '\t' || b == byte '\r'

def skipBlank (bytes : List UInt8) : List UInt8 :=
  bytes.dropWhile isBlankByte

theorem length_skipBlank_le (bytes : List UInt8) : (skipBlank bytes).length ≤ bytes.length :=
  (List.dropWhile_sublist _).length_le

theorem length_of_skipBlank_eq {rest rest' : List UInt8} {b : UInt8}
    (h : skipBlank rest = b :: rest') : rest'.length < rest.length := by
  have := length_skipBlank_le rest
  rw [h] at this
  exact this

def isDigitByte (b : UInt8) : Bool :=
  byte '0' ≤ b && b ≤ byte '9'

def readWord : (letters rest : List UInt8) → Except Fault (List UInt8)
  | [], rest => .ok rest
  | _ :: _, [] => .error (.behind .endInValue [])
  | letter :: letters, b :: rest =>
    if b = letter then readWord letters rest else .error (.behind .expectedIdent rest)

theorem readWord_length {letters rest rest' : List UInt8} (h : readWord letters rest = .ok rest') :
    rest'.length ≤ rest.length := by
  fun_induction readWord letters rest with
  | case1 => cases h; exact Nat.le_refl _
  | case2 => cases h
  | case3 letters b rest ih => exact Nat.le_succ_of_le (ih h)
  | case4 => cases h

def hexValue? (b : UInt8) : Option Nat :=
  if isDigitByte b then some (b.toNat - 48)
  else if byte 'a' ≤ b ∧ b ≤ byte 'f' then some (b.toNat - 87)
  else if byte 'A' ≤ b ∧ b ≤ byte 'F' then some (b.toNat - 55)
  else none

def readHex : List UInt8 → Except Fault (Nat × List UInt8)
  | a :: b :: c :: d :: rest =>
    match hexValue? a, hexValue? b, hexValue? c, hexValue? d with
    | some a, some b, some c, some d => .ok (((a * 16 + b) * 16 + c) * 16 + d, rest)
    | _, _, _, _ => .error (.behind .invalidEscape rest)
  | _ => .error (.behind .endInString [])

theorem readHex_length {rest rest' : List UInt8} {n : Nat} (h : readHex rest = .ok (n, rest')) :
    rest'.length + 4 = rest.length := by
  unfold readHex at h
  split at h
  · split at h
    · cases h; simp
    · cases h
  · cases h

def readLowSurrogate : List UInt8 → Except Fault (Nat × List UInt8)
  | [] => .error (.behind .endInString [])
  | b :: rest =>
    if b = byte '\\' then
      match rest with
      | [] => .error (.behind .endInString [])
      | u :: rest =>
        if u = byte 'u' then
          match readHex rest with
          | .error f => .error f
          | .ok (n, rest) =>
            if 0xdc00 ≤ n ∧ n ≤ 0xdfff then .ok (n, rest) else .error (.behind .loneSurrogate rest)
        else .error (.behind .endOfHexEscape rest)
    else .error (.behind .endOfHexEscape rest)

theorem readLowSurrogate_length {rest rest' : List UInt8} {n : Nat}
    (h : readLowSurrogate rest = .ok (n, rest')) : rest'.length + 6 = rest.length := by
  unfold readLowSurrogate at h
  split at h
  · cases h
  · split at h
    · split at h
      · cases h
      · split at h
        · split at h
          · cases h
          · next hx =>
            split at h
            · cases h
              have := readHex_length hx
              simp only [List.length_cons]
              omega
            · cases h
        · cases h
    · cases h

/-- Takes the digits of a `\u` escape, and of a second one where the first is half a pair. -/
def readUnicode (rest : List UInt8) : Except Fault (Char × List UInt8) :=
  match readHex rest with
  | .error f => .error f
  | .ok (n, rest) =>
    if 0xdc00 ≤ n ∧ n ≤ 0xdfff then .error (.behind .loneSurrogate rest)
    else if 0xd800 ≤ n ∧ n ≤ 0xdbff then
      match readLowSurrogate rest with
      | .error f => .error f
      | .ok (low, rest) => .ok (Char.ofNat ((n - 0xd800) * 0x400 + (low - 0xdc00) + 0x10000), rest)
    else .ok (Char.ofNat n, rest)

theorem readUnicode_length {rest rest' : List UInt8} {c : Char}
    (h : readUnicode rest = .ok (c, rest')) : rest'.length + 4 ≤ rest.length := by
  unfold readUnicode at h
  split at h
  · cases h
  · next hx =>
    have h₁ := readHex_length hx
    split at h
    · cases h
    · split at h
      · split at h
        · cases h
        · next hl =>
          have h₂ := readLowSurrogate_length hl
          simp only [Except.ok.injEq, Prod.mk.injEq] at h
          obtain ⟨-, rfl⟩ := h
          omega
      · simp only [Except.ok.injEq, Prod.mk.injEq] at h
        obtain ⟨-, rfl⟩ := h
        omega

def escaped? (letter : UInt8) : Option UInt8 :=
  if letter = byte '"' ∨ letter = byte '\\' ∨ letter = byte '/' then some letter
  else if letter = byte 'b' then some 0x08
  else if letter = byte 'f' then some 0x0c
  else if letter = byte 'n' then some 0x0a
  else if letter = byte 'r' then some 0x0d
  else if letter = byte 't' then some 0x09
  else none

def readEscape : List UInt8 → Except Fault (List UInt8 × List UInt8)
  | [] => .error (.behind .endInString [])
  | b :: rest =>
    match escaped? b with
    | some e => .ok ([e], rest)
    | none =>
      if b = byte 'u' then
        match readUnicode rest with
        | .error f => .error f
        | .ok (c, rest) => .ok (String.utf8EncodeChar c, rest)
      else .error (.behind .invalidEscape rest)

theorem readEscape_length {rest rest' bytes : List UInt8}
    (h : readEscape rest = .ok (bytes, rest')) : bytes.length + rest'.length ≤ rest.length := by
  unfold readEscape at h
  split at h
  · cases h
  · split at h
    · cases h
      simp only [List.length_cons, List.length_nil]
      omega
    · split at h
      · split at h
        · cases h
        · next c rest hu =>
          have := readUnicode_length hu
          cases h
          have : (String.utf8EncodeChar c).length ≤ 4 := by
            rw [String.length_utf8EncodeChar]
            exact Char.utf8Size_le_four c
          simp only [List.length_cons]
          omega
      · cases h

/-- Takes the rest of a string, its closing quote included. The bytes read so far are given last
first. -/
def readStringFrom (bytes : List UInt8) (rest : List UInt8) :
    Except Fault (List UInt8 × List UInt8) :=
  match rest with
  | [] => .error (.behind .endInString [])
  | b :: rest =>
    if b = byte '"' then .ok (bytes.reverse, rest)
    else if b = byte '\\' then
      match _h : readEscape rest with
      | .error f => .error f
      | .ok (more, rest') => readStringFrom (more.reverse ++ bytes) rest'
    else if b < 0x20 then .error (.behind .controlCharacter rest)
    else readStringFrom (b :: bytes) rest
termination_by rest.length
decreasing_by
  · have := readEscape_length _h
    simp only [List.length_cons]
    omega
  · simp

theorem readStringFrom_length {bytes rest bytes' rest' : List UInt8}
    (h : readStringFrom bytes rest = .ok (bytes', rest')) :
    bytes'.length + rest'.length < bytes.length + rest.length := by
  fun_induction readStringFrom bytes rest with
  | case1 => cases h
  | case2 => cases h; simp only [List.length_reverse, List.length_cons]; omega
  | case3 => cases h
  | case4 bytes rest more rest'' he _ ih =>
    have := readEscape_length he
    have := ih h
    simp only [List.length_append, List.length_reverse, List.length_cons] at *
    omega
  | case5 => cases h
  | case6 bytes b rest _ _ _ ih =>
    have := ih h
    simp only [List.length_cons] at *
    omega

/-- Takes a string behind its opening quote. Bytes that are no UTF-8 are found at the closing quote,
and the column is moved back to the first of them. -/
def readText (rest : List UInt8) : Except Fault (String × List UInt8) :=
  match readStringFrom [] rest with
  | .error f => .error f
  | .ok (bytes, rest) =>
    match Text.Utf8.decode? bytes with
    | some s => .ok (s, rest)
    | none =>
      .error ⟨.invalidCodePoint, rest.length, bytes.length - Text.Utf8.validLength bytes⟩

theorem readText_length {rest rest' : List UInt8} {s : String}
    (h : readText rest = .ok (s, rest')) :
    (Text.Utf8.encode s).length + rest'.length < rest.length := by
  unfold readText at h
  split at h
  · cases h
  · next bytes rest₁ hs =>
    have hlen := readStringFrom_length hs
    split at h
    · next hd =>
      cases h
      rw [Text.Utf8.encode_of_decode? hd]
      simpa using hlen
    · cases h

end SyntaxDrawing.Json
