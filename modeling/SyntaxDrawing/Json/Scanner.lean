import SyntaxDrawing.Json.Lexeme

/-!
# Checking JSON texts without reading them

The scanner follows the grammar and builds nothing: numbers have no range, escapes need not form
characters, bytes need not be UTF-8, and levels are unlimited. Its only store is the list of open
brackets. `scanDocument` relays a document as it stands, without the blanks around it.
-/

namespace SyntaxDrawing.Json

def skipDigits (rest : List UInt8) : List UInt8 :=
  rest.dropWhile isDigitByte

theorem length_skipDigits_le (rest : List UInt8) : (skipDigits rest).length ≤ rest.length :=
  (List.dropWhile_sublist _).length_le

def scanDigits : List UInt8 → Except Fault (List UInt8)
  | [] => .error (.behind .invalidNumber [])
  | b :: rest =>
    if isDigitByte b then .ok (skipDigits rest) else .error (.behind .invalidNumber rest)

theorem scanDigits_length {rest rest' : List UInt8} (h : scanDigits rest = .ok rest') :
    rest'.length < rest.length := by
  unfold scanDigits at h
  split at h
  · cases h
  · split at h
    · cases h
      exact Nat.lt_succ_of_le (length_skipDigits_le _)
    · cases h

def scanExponent : List UInt8 → Except Fault (List UInt8)
  | [] => .ok []
  | b :: rest =>
    if b = byte 'e' ∨ b = byte 'E' then
      match rest with
      | [] => scanDigits []
      | c :: rest' =>
        if c = byte '+' ∨ c = byte '-' then scanDigits rest' else scanDigits (c :: rest')
    else .ok (b :: rest)

theorem scanExponent_length {rest rest' : List UInt8} (h : scanExponent rest = .ok rest') :
    rest'.length ≤ rest.length := by
  unfold scanExponent at h
  split at h
  · cases h
    exact Nat.le_refl _
  · split at h
    · split at h
      · cases h
      · split at h <;> have := scanDigits_length h <;> simp only [List.length_cons] at * <;> omega
    · cases h
      exact Nat.le_refl _

def scanFraction : List UInt8 → Except Fault (List UInt8)
  | [] => .ok []
  | b :: rest =>
    if b = byte '.' then
      match rest with
      | [] => .error (.ahead .invalidNumber [])
      | c :: rest' =>
        if isDigitByte c then scanExponent (skipDigits rest')
        else .error (.ahead .invalidNumber (c :: rest'))
    else scanExponent (b :: rest)

theorem scanFraction_length {rest rest' : List UInt8} (h : scanFraction rest = .ok rest') :
    rest'.length ≤ rest.length := by
  unfold scanFraction at h
  split at h
  · cases h
    exact Nat.le_refl _
  · split at h
    · split at h
      · cases h
      · next rest₁ =>
        split at h
        · have h₁ := scanExponent_length h
          have h₂ := length_skipDigits_le rest₁
          simp only [List.length_cons]
          omega
        · cases h
    · exact scanExponent_length h

def scanNumber : List UInt8 → Except Fault (List UInt8)
  | [] => .error (.behind .invalidNumber [])
  | b :: rest =>
    if b = byte '0' then
      match rest with
      | [] => .ok []
      | c :: rest' =>
        if isDigitByte c then .error (.ahead .invalidNumber (c :: rest'))
        else scanFraction (c :: rest')
    else if isDigitByte b then scanFraction (skipDigits rest)
    else .error (.behind .invalidNumber rest)

theorem scanNumber_length {rest rest' : List UInt8} (h : scanNumber rest = .ok rest') :
    rest'.length < rest.length := by
  unfold scanNumber at h
  split at h
  · cases h
  · next b rest₁ =>
    split at h
    · split at h
      · cases h
        simp
      · split at h
        · cases h
        · exact Nat.lt_succ_of_le (scanFraction_length h)
    · split at h
      · have h₁ := scanFraction_length h
        have h₂ := length_skipDigits_le rest₁
        simp only [List.length_cons]
        omega
      · cases h

/-- Behind a backslash. The digits of a `\u` escape have to be hexadecimal and need not be a
character. -/
def scanEscape : List UInt8 → Except Fault (List UInt8)
  | [] => .error (.behind .endInString [])
  | b :: rest =>
    if (escaped? b).isSome then .ok rest
    else if b = byte 'u' then (readHex rest).map (·.2)
    else .error (.behind .invalidEscape rest)

theorem scanEscape_length {rest rest' : List UInt8} (h : scanEscape rest = .ok rest') :
    rest'.length < rest.length := by
  unfold scanEscape at h
  split at h
  · cases h
  · next b rest₁ =>
    split at h
    · cases h
      simp
    · split at h
      · cases hx : readHex rest₁ with
        | error f => rw [hx] at h; cases h
        | ok p =>
          rw [hx] at h
          cases h
          have := readHex_length hx
          simp only [List.length_cons]
          omega
      · cases h

/-- The rest of a string, its closing quote included. A control is reported before it is taken. -/
def scanString (rest : List UInt8) : Except Fault (List UInt8) :=
  match rest with
  | [] => .error (.behind .endInString [])
  | b :: rest =>
    if b = byte '"' then .ok rest
    else if b = byte '\\' then
      match _h : scanEscape rest with
      | .error f => .error f
      | .ok rest' => scanString rest'
    else if b < 0x20 then .error (.behind .controlCharacter (b :: rest))
    else scanString rest
termination_by rest.length
decreasing_by
  · exact Nat.lt_succ_of_lt (scanEscape_length _h)
  · simp

theorem scanString_length {rest rest' : List UInt8} (h : scanString rest = .ok rest') :
    rest'.length < rest.length := by
  fun_induction scanString rest with
  | case1 => cases h
  | case2 => cases h; simp
  | case3 => cases h
  | case4 rest rest'' he _ ih =>
    have := scanEscape_length he
    have := ih h
    simp only [List.length_cons]
    omega
  | case5 => cases h
  | case6 b rest _ _ _ ih => exact Nat.lt_succ_of_lt (ih h)

inductive Bracket
  | array
  | object
  deriving DecidableEq

/-- A scan in progress: the open brackets, innermost first, and whether a value is awaited. -/
structure Scan where
  brackets : List Bracket
  awaiting : Bool
  rest : List UInt8

/-- What a step leads to; a scan that has finished leaves what follows the value. -/
inductive ScanProgress
  | running (s : Scan)
  | finished (rest : List UInt8)

def Scan.passed (brackets : List Bracket) (rest : List UInt8) : Except Fault ScanProgress :=
  .ok (.running ⟨brackets, false, rest⟩)

def Scan.key (brackets : List Bracket) (rest : List UInt8) : Except Fault ScanProgress :=
  match skipBlank rest with
  | [] => .error (.ahead .endInObject [])
  | b :: rest =>
    if b = byte '"' then
      match scanString rest with
      | .error f => .error f
      | .ok rest =>
        match skipBlank rest with
        | [] => .error (.ahead .endInObject [])
        | b :: rest =>
          if b = byte ':' then .ok (.running ⟨brackets, true, rest⟩)
          else .error (.ahead .expectedColon (b :: rest))
    else .error (.ahead .keyNotString (b :: rest))

def Scan.enter (bracket : Bracket) (brackets : List Bracket) (rest : List UInt8) :
    Except Fault ScanProgress :=
  match bracket, skipBlank rest with
  | .array, [] => .error (.ahead .endInArray [])
  | .object, [] => .error (.ahead .endInObject [])
  | .array, b :: rest =>
    if b = byte ']' then Scan.passed brackets rest
    else .ok (.running ⟨.array :: brackets, true, b :: rest⟩)
  | .object, b :: rest =>
    if b = byte '\x7d' then Scan.passed brackets rest
    else Scan.key (.object :: brackets) (b :: rest)

def Scan.word (letters : String) (brackets : List Bracket) (rest : List UInt8) :
    Except Fault ScanProgress :=
  match readWord (Text.Utf8.encode letters) rest with
  | .error f => .error f
  | .ok rest => Scan.passed brackets rest

def Scan.number (brackets : List Bracket) (rest : List UInt8) : Except Fault ScanProgress :=
  match scanNumber rest with
  | .error f => .error f
  | .ok rest => Scan.passed brackets rest

def Scan.begin (brackets : List Bracket) (rest : List UInt8) : Except Fault ScanProgress :=
  match skipBlank rest with
  | [] => .error (.ahead .endInValue [])
  | b :: rest =>
    if b = byte 'n' then Scan.word "ull" brackets rest
    else if b = byte 't' then Scan.word "rue" brackets rest
    else if b = byte 'f' then Scan.word "alse" brackets rest
    else if b = byte '-' then Scan.number brackets rest
    else if isDigitByte b then Scan.number brackets (b :: rest)
    else if b = byte '"' then
      match scanString rest with
      | .error f => .error f
      | .ok rest => Scan.passed brackets rest
    else if b = byte '[' then Scan.enter .array brackets rest
    else if b = byte '\x7b' then Scan.enter .object brackets rest
    else .error (.ahead .expectedValue (b :: rest))

def Scan.after (bracket : Bracket) (brackets : List Bracket) (rest : List UInt8) :
    Except Fault ScanProgress :=
  match bracket, skipBlank rest with
  | .array, [] => .error (.ahead .endInArray [])
  | .object, [] => .error (.ahead .endInObject [])
  | .array, b :: rest =>
    if b = byte ',' then .ok (.running ⟨.array :: brackets, true, rest⟩)
    else if b = byte ']' then Scan.passed brackets rest
    else .error (.ahead .expectedCommaOrBracket (b :: rest))
  | .object, b :: rest =>
    if b = byte ',' then Scan.key (.object :: brackets) rest
    else if b = byte '\x7d' then Scan.passed brackets rest
    else .error (.ahead .expectedCommaOrBrace (b :: rest))

def Scan.step (s : Scan) : Except Fault ScanProgress :=
  if s.awaiting then Scan.begin s.brackets s.rest
  else
    match s.brackets with
    | [] => .ok (.finished s.rest)
    | bracket :: brackets => Scan.after bracket brackets s.rest

theorem Scan.passed_length {brackets : List Bracket} {rest : List UInt8} {s : Scan}
    (h : Scan.passed brackets rest = .ok (.running s)) : s.rest = rest := by
  cases h
  rfl

theorem Scan.key_length {brackets : List Bracket} {rest : List UInt8} {s : Scan}
    (h : Scan.key brackets rest = .ok (.running s)) : s.rest.length < rest.length := by
  unfold Scan.key at h
  split at h
  · cases h
  · next hb =>
    have h₁ := length_of_skipBlank_eq hb
    split at h
    · split at h
      · cases h
      · next hs =>
        have h₂ := scanString_length hs
        split at h
        · cases h
        · next hc =>
          have h₃ := length_of_skipBlank_eq hc
          split at h
          · cases h
            simp only
            omega
          · cases h
    · cases h

theorem Scan.enter_length {bracket : Bracket} {brackets : List Bracket} {rest : List UInt8}
    {s : Scan} (h : Scan.enter bracket brackets rest = .ok (.running s)) :
    s.rest.length ≤ rest.length := by
  unfold Scan.enter at h
  split at h
  · cases h
  · cases h
  · next hb =>
    have h₁ := length_of_skipBlank_eq hb
    split at h
    · rw [Scan.passed_length h]
      omega
    · cases h
      simp only [List.length_cons]
      omega
  · next hb =>
    have h₁ := length_of_skipBlank_eq hb
    split at h
    · rw [Scan.passed_length h]
      omega
    · have := Scan.key_length h
      simp only [List.length_cons] at this
      omega

theorem Scan.word_length {letters : String} {brackets : List Bracket} {rest : List UInt8} {s : Scan}
    (h : Scan.word letters brackets rest = .ok (.running s)) : s.rest.length ≤ rest.length := by
  unfold Scan.word at h
  split at h
  · cases h
  · next hw =>
    rw [Scan.passed_length h]
    exact readWord_length hw

theorem Scan.number_length {brackets : List Bracket} {rest : List UInt8} {s : Scan}
    (h : Scan.number brackets rest = .ok (.running s)) : s.rest.length < rest.length := by
  unfold Scan.number at h
  split at h
  · cases h
  · next hn =>
    rw [Scan.passed_length h]
    exact scanNumber_length hn

theorem Scan.begin_length {brackets : List Bracket} {rest : List UInt8} {s : Scan}
    (h : Scan.begin brackets rest = .ok (.running s)) : s.rest.length < rest.length := by
  unfold Scan.begin at h
  split at h
  · cases h
  · next hb =>
    have h₁ := length_of_skipBlank_eq hb
    split at h
    · exact Nat.lt_of_le_of_lt (Scan.word_length h) h₁
    split at h
    · exact Nat.lt_of_le_of_lt (Scan.word_length h) h₁
    split at h
    · exact Nat.lt_of_le_of_lt (Scan.word_length h) h₁
    split at h
    · exact Nat.lt_trans (Scan.number_length h) h₁
    split at h
    · have := Scan.number_length h
      simp only [List.length_cons] at this
      omega
    split at h
    · split at h
      · cases h
      · next hs =>
        rw [Scan.passed_length h]
        exact Nat.lt_trans (scanString_length hs) h₁
    split at h
    · exact Nat.lt_of_le_of_lt (Scan.enter_length h) h₁
    split at h
    · exact Nat.lt_of_le_of_lt (Scan.enter_length h) h₁
    · cases h

theorem Scan.after_length {bracket : Bracket} {brackets : List Bracket} {rest : List UInt8}
    {s : Scan} (h : Scan.after bracket brackets rest = .ok (.running s)) :
    s.rest.length < rest.length := by
  unfold Scan.after at h
  split at h
  · cases h
  · cases h
  · next hb =>
    have h₁ := length_of_skipBlank_eq hb
    split at h
    · cases h
      exact h₁
    · split at h
      · rw [Scan.passed_length h]
        exact h₁
      · cases h
  · next hb =>
    have h₁ := length_of_skipBlank_eq hb
    split at h
    · exact Nat.lt_trans (Scan.key_length h) h₁
    · split at h
      · rw [Scan.passed_length h]
        exact h₁
      · cases h

theorem Scan.step_length {s s' : Scan} (h : s.step = .ok (.running s')) :
    s'.rest.length < s.rest.length := by
  unfold Scan.step at h
  split at h
  · exact Scan.begin_length h
  · split at h
    · cases h
    · exact Scan.after_length h

/-- Steps until the value is passed; returns what follows it. -/
def Scan.run (s : Scan) : Except Fault (List UInt8) :=
  match _h : s.step with
  | .error f => .error f
  | .ok (.finished rest) => .ok rest
  | .ok (.running s') => s'.run
termination_by s.rest.length
decreasing_by exact Scan.step_length _h

/-- Passes one value; returns what follows it. -/
def scanValue (rest : List UInt8) : Except Fault (List UInt8) :=
  (⟨[], true, rest⟩ : Scan).run

def ScanProgress.goesOn : Except Fault ScanProgress → Prop
  | .ok (.finished _) => False
  | _ => True

theorem Scan.key_goesOn (brackets : List Bracket) (rest : List UInt8) :
    ScanProgress.goesOn (Scan.key brackets rest) := by
  unfold Scan.key
  repeat' split
  all_goals trivial

theorem Scan.enter_goesOn (bracket : Bracket) (brackets : List Bracket) (rest : List UInt8) :
    ScanProgress.goesOn (Scan.enter bracket brackets rest) := by
  unfold Scan.enter
  repeat' split
  all_goals first | trivial | exact Scan.key_goesOn _ _

theorem Scan.begin_goesOn (brackets : List Bracket) (rest : List UInt8) :
    ScanProgress.goesOn (Scan.begin brackets rest) := by
  unfold Scan.begin Scan.word Scan.number
  repeat' split
  all_goals first | trivial | exact Scan.enter_goesOn _ _ _

theorem Scan.after_goesOn (bracket : Bracket) (brackets : List Bracket) (rest : List UInt8) :
    ScanProgress.goesOn (Scan.after bracket brackets rest) := by
  unfold Scan.after
  repeat' split
  all_goals first | trivial | exact Scan.key_goesOn _ _

theorem Scan.step_finished {s : Scan} {rest : List UInt8} (h : s.step = .ok (.finished rest)) :
    rest = s.rest := by
  unfold Scan.step at h
  split at h
  · exact (h ▸ Scan.begin_goesOn _ _ : ScanProgress.goesOn (.ok (.finished rest))).elim
  · split at h
    · cases h
      rfl
    · exact (h ▸ Scan.after_goesOn _ _ _ : ScanProgress.goesOn (.ok (.finished rest))).elim

theorem Scan.run_length {s : Scan} {rest : List UInt8} (h : s.run = .ok rest) :
    rest.length ≤ s.rest.length := by
  fun_induction Scan.run s with
  | case1 => cases h
  | case2 s rest' hs =>
    cases h
    exact Nat.le_of_eq (congrArg List.length (Scan.step_finished hs))
  | case3 s s' hs ih => exact Nat.le_of_lt (Nat.lt_of_le_of_lt (ih h) (Scan.step_length hs))

theorem scanValue_length {rest rest' : List UInt8} (h : scanValue rest = .ok rest') :
    rest'.length ≤ rest.length :=
  Scan.run_length h

/-- The one document that a text holds, as it is written. Bytes that are not UTF-8 are found after
the scan, and reported behind the first of them. -/
def scanDocument (text : List UInt8) : Except Failure String :=
  let start := skipBlank text
  match scanValue start with
  | .error f => .error (f.locate text)
  | .ok rest =>
    let document := start.take (start.length - rest.length)
    match Text.Utf8.decode? document with
    | none =>
      let fault : Fault := ⟨.invalidCodePoint, start.length - Text.Utf8.validLength document - 1, 0⟩
      .error (fault.locate text)
    | some s =>
      match skipBlank rest with
      | [] => .ok s
      | b :: rest => .error ((Fault.ahead .trailingCharacters (b :: rest)).locate text)

end SyntaxDrawing.Json
