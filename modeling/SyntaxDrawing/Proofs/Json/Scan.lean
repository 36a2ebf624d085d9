import SyntaxDrawing.Json.Scanner
import SyntaxDrawing.Proofs.Json.Steps

/-!
# The scanner passes what the reader takes

A scan follows the reader through a document and takes an embedded document for the string that it
is. So the scanner accepts every text that can be read, and stops where the reader does.
-/

namespace SyntaxDrawing.Json

variable {s s' : State} {v : Value} {rest rest' : List UInt8} {brackets : List Bracket}

theorem scanString_of_scanEscape (h : scanEscape rest = .ok rest') :
    scanString (byte '\\' :: rest) = scanString rest' := by
  have hne : byte '\\' ≠ byte '"' := by decide
  rw [scanString, if_neg hne, if_pos rfl]
  split
  · next he => rw [h] at he; cases he
  · next he => rw [h] at he; cases he; rfl

theorem scanEscape_hex {digits : List UInt8} {n : Nat} (h : readHex digits = .ok (n, [])) :
    scanEscape (byte 'u' :: (digits ++ rest)) = .ok rest := by
  have hu : escaped? (byte 'u') = none := by decide
  simp [scanEscape, hu, readHex_append h, Except.map]

theorem Escape.scanString_eq {letters spelt : List UInt8} (h : Escape letters spelt) :
    scanString (byte '\\' :: (letters ++ rest)) = scanString rest := by
  cases h with
  | letter he => exact scanString_of_scanEscape (by simp [scanEscape, he])
  | unicode hDigits => exact scanString_of_scanEscape (scanEscape_hex hDigits)
  | @pair digits digits' _ _ hDigits _ hDigits' =>
    have hSecond : scanEscape (byte 'u' :: (digits ++ byte '\\' :: byte 'u' :: (digits' ++ rest))) =
        .ok (byte '\\' :: byte 'u' :: (digits' ++ rest)) := scanEscape_hex hDigits
    rw [List.cons_append, List.append_assoc, List.cons_append, List.cons_append,
      scanString_of_scanEscape hSecond, scanString_of_scanEscape (scanEscape_hex hDigits')]

theorem Quoted.scanString_eq {taken spelt : List UInt8} (h : Quoted taken spelt) :
    scanString (taken ++ rest) = .ok rest := by
  induction h with
  | close =>
    unfold scanString
    simp
  | escape hLetters _ ih => rw [List.cons_append, List.append_assoc, hLetters.scanString_eq, ih]
  | plain hq hb hc _ ih =>
    unfold scanString
    simp [hq, hb, hc, ih]

theorem scanNumber_of_readWhole {digits : List Nat} (h : readWhole rest = .ok (digits, rest')) :
    scanNumber rest = scanFraction rest' := by
  unfold readWhole at h
  split at h
  · cases h
  next b rest =>
  split at h
  · cases h
  next hDigit =>
  have hDigit : isDigitByte b = true := by simpa using hDigit
  split at h
  · next hZero =>
    subst hZero
    split at h
    · cases h
      rfl
    · split at h
      · cases h
      · next hNot =>
        cases h
        simp [scanNumber, hNot]
  · next hZero =>
    cases h
    simp [scanNumber, hZero, hDigit, skipDigits]

theorem exists_digit_of_spanDigits {digits : List Nat} (h : spanDigits rest = (digits, rest'))
    (hDigits : digits ≠ []) :
    ∃ c tail, rest = c :: tail ∧ isDigitByte c = true ∧ rest' = skipDigits tail := by
  obtain ⟨rfl, rfl⟩ := Prod.mk.injEq .. ▸ h
  cases rest with
  | nil => exact absurd rfl hDigits
  | cons c tail =>
    have hDigit : isDigitByte c = true := by
      by_contra hNot
      simp [hNot] at hDigits
    exact ⟨c, tail, rfl, hDigit, by simp [skipDigits, hDigit]⟩

theorem scanFraction_of_readFraction {digits : List Nat}
    (h : readFraction rest = .ok (digits, rest')) : scanFraction rest = scanExponent rest' := by
  unfold readFraction at h
  split at h
  · cases h
    rfl
  next b rest =>
  split at h
  · next hPoint =>
    subst hPoint
    split at h
    · cases h
    · cases h
    · next hNone hSome hs =>
      cases h
      have hDigits : digits ≠ [] := by
        rintro rfl
        exact hSome rfl
      obtain ⟨c, tail, rfl, hDigit, rfl⟩ := exists_digit_of_spanDigits hs hDigits
      simp [scanFraction, hDigit]
  · next hPoint =>
    cases h
    simp [scanFraction, hPoint]

theorem scanExponent_eq_scanDigits {b : UInt8} (hb : b = byte 'e' ∨ b = byte 'E') :
    scanExponent (b :: rest) = scanDigits (readSign rest).2 := by
  cases rest with
  | nil => simp [scanExponent, hb, readSign]
  | cons c rest =>
    by_cases hMinus : c = byte '-'
    · simp [scanExponent, hb, readSign, hMinus]
    · have hne : byte '+' ≠ byte '-' := by decide
      by_cases hPlus : c = byte '+' <;> simp [scanExponent, hb, readSign, hMinus, hPlus, hne]

theorem scanExponent_of_readExponent {exponent : Option (Bool × List Nat)}
    (h : readExponent rest = .ok (exponent, rest')) : scanExponent rest = .ok rest' := by
  unfold readExponent at h
  split at h
  · cases h
    rfl
  next b rest =>
  split at h
  · next he =>
    split at h
    next negative behind hSign =>
    split at h
    · cases h
    next c tail =>
    split at h
    · next hDigit =>
      cases h
      rw [scanExponent_eq_scanDigits he, hSign]
      simp [scanDigits, hDigit, skipDigits]
    · cases h
  · next he =>
    cases h
    simp [scanExponent, he]

theorem scanNumber_of_readNumber {negative : Bool} {n : Number}
    (h : readNumber negative rest = .ok (n, rest')) : scanNumber rest = .ok rest' := by
  obtain ⟨_, _, _, _, _, hw, hf, he, -⟩ := readNumber_parts h
  rw [scanNumber_of_readWhole hw, scanFraction_of_readFraction hf, scanExponent_of_readExponent he]

theorem Scalar.scan_eq (h : Scalar (skipBlank rest) v rest') :
    Scan.begin brackets rest = .ok (.running ⟨brackets, false, rest'⟩) := by
  unfold Scan.begin
  generalize skipBlank rest = bytes at h ⊢
  cases h with
  | null hw => simp [Scan.word, hw, Scan.passed]
  | yes hw =>
    have hne : byte 't' ≠ byte 'n' := by decide
    simp [hne, Scan.word, hw, Scan.passed]
  | no hw =>
    have hne : byte 'f' ≠ byte 'n' ∧ byte 'f' ≠ byte 't' := by decide
    simp [hne, Scan.word, hw, Scan.passed]
  | negative hn =>
    have hne : byte '-' ≠ byte 'n' ∧ byte '-' ≠ byte 't' ∧ byte '-' ≠ byte 'f' := by decide
    simp [hne, Scan.number, scanNumber_of_readNumber hn, Scan.passed]
  | @number b _ _ _ hDigit hn =>
    have hne (c : Char) (hc : isDigitByte (byte c) = false) : b ≠ byte c :=
      ne_byte_of_isDigitByte hDigit hc
    simp [hne 'n' (by decide), hne 't' (by decide), hne 'f' (by decide), hne '-' (by decide),
      hDigit, Scan.number, scanNumber_of_readNumber hn, Scan.passed]
  | text ht =>
    obtain ⟨taken, hTaken, rfl⟩ := readText_eq_ok_iff.1 ht
    have hne : byte '"' ≠ byte 'n' ∧ byte '"' ≠ byte 't' ∧ byte '"' ≠ byte 'f' ∧
        byte '"' ≠ byte '-' ∧ isDigitByte (byte '"') = false := by decide
    simp [hne, hTaken.scanString_eq, Scan.passed]

theorem Scan.begin_eq_enter {bracket : Bracket} {b : UInt8}
    (hb : bracket = .array ∧ b = byte '[' ∨ bracket = .object ∧ b = byte '\x7b')
    (h : skipBlank rest = b :: rest') :
    Scan.begin brackets rest = Scan.enter bracket brackets rest' := by
  rcases hb with ⟨rfl, rfl⟩ | ⟨rfl, rfl⟩
  · have hne : byte '[' ≠ byte 'n' ∧ byte '[' ≠ byte 't' ∧ byte '[' ≠ byte 'f' ∧
        byte '[' ≠ byte '-' ∧ isDigitByte (byte '[') = false ∧ byte '[' ≠ byte '"' := by decide
    simp [Scan.begin, h, hne]
  · have hne : byte '\x7b' ≠ byte 'n' ∧ byte '\x7b' ≠ byte 't' ∧ byte '\x7b' ≠ byte 'f' ∧
        byte '\x7b' ≠ byte '-' ∧ isDigitByte (byte '\x7b') = false ∧ byte '\x7b' ≠ byte '"' ∧
        byte '\x7b' ≠ byte '[' := by decide
    simp [Scan.begin, h, hne]

theorem Key.scan_eq {key : String} (h : Key rest key rest') :
    Scan.key brackets rest = .ok (.running ⟨brackets, true, rest'⟩) := by
  obtain ⟨hq, ht, hb⟩ := h
  obtain ⟨taken, hTaken, rfl⟩ := readText_eq_ok_iff.1 ht
  simp [Scan.key, hq, hTaken.scanString_eq, hb]

theorem Key.enter_eq {key : String} (h : Key rest key rest') :
    Scan.enter .object brackets rest = .ok (.running ⟨.object :: brackets, true, rest'⟩) := by
  obtain ⟨hq, ht, hb⟩ := h
  have hne : byte '"' ≠ byte '\x7d' := by decide
  have hKey : Key (skipBlank rest) key rest' := ⟨(skipBlank_skipBlank rest).trans hq, ht, hb⟩
  rw [hq] at hKey
  simp [Scan.enter, hq, hne, hKey.scan_eq]

theorem Key.after_eq {key : String} {behind : List UInt8} (h : Key behind key rest')
    (hb : skipBlank rest = byte ',' :: behind) :
    Scan.after .object brackets rest = .ok (.running ⟨.object :: brackets, true, rest'⟩) := by
  simp [Scan.after, hb, h.scan_eq]

def Frame.bracket : Frame → Bracket
  | .array _ => .array
  | _ => .object

/-- The scan that is at the string of the outermost embedded document. -/
def scanAround : List Frame → Option Scan
  | [] => none
  | .embedded _ resume :: frames =>
    (scanAround frames).or (some ⟨.object :: frames.map Frame.bracket, false, resume⟩)
  | _ :: frames => scanAround frames

def State.scan (s : State) : Scan :=
  (scanAround s.frames).getD ⟨s.frames.map Frame.bracket, s.phase.awaits, s.rest⟩

theorem Scan.run_eq {sc sc' : Scan} (h : sc.step = .ok (.running sc')) : sc.run = sc'.run := by
  rw [Scan.run]
  split
  · next hs => rw [h] at hs; cases hs
  · next hs => rw [h] at hs; cases hs
  · next hs => rw [h] at hs; cases hs; rfl

theorem Scan.run_eq_ok {sc : Scan} (h : sc.step = .ok (.finished rest)) : sc.run = .ok rest := by
  rw [Scan.run]
  split
  · next hs => rw [h] at hs; cases hs
  · next hs => rw [h] at hs; cases hs; rfl
  · next hs => rw [h] at hs; cases hs

theorem Within.scanAround_eq (h : Within s s') : scanAround s'.frames = scanAround s.frames := by
  cases h <;> simp [scanAround, *]

theorem Scan.run_congr {sc sc' : Scan} (h : sc.step = sc'.step) : sc.run = sc'.run := by
  rw [Scan.run]
  split
  · next hs =>
    rw [h] at hs
    rw [Scan.run]
    split <;> simp_all
  · next hs =>
    rw [h] at hs
    rw [Scan.run]
    split <;> simp_all
  · next hs => exact (Scan.run_eq (h ▸ hs)).symm

theorem Scan.run_skipBlank (brackets : List Bracket) (rest : List UInt8) :
    (⟨brackets, true, skipBlank rest⟩ : Scan).run = (⟨brackets, true, rest⟩ : Scan).run :=
  Scan.run_congr (by simp [Scan.step, Scan.begin, skipBlank_skipBlank])

/-- Outside of embedded documents the scan goes on with the reader. -/
theorem Within.scan_run (h : Within s s') :
    (⟨s.frames.map Frame.bracket, s.phase.awaits, s.rest⟩ : Scan).run =
      (⟨s'.frames.map Frame.bracket, s'.phase.awaits, s'.rest⟩ : Scan).run := by
  cases h with
  | scalar hp hs => exact Scan.run_eq (by simp [Scan.step, hp, Phase.awaits, hs.scan_eq])
  | emptyArray hp hb hFull hb' =>
    refine Scan.run_eq ?_
    simp [Scan.step, hp, Phase.awaits, Scan.begin_eq_enter (.inl ⟨rfl, rfl⟩) hb, Scan.enter, hb',
      Scan.passed]
  | openArray hp hb hFull hb' hne =>
    refine Scan.run_eq ?_
    simp [Scan.step, hp, Phase.awaits, Scan.begin_eq_enter (.inl ⟨rfl, rfl⟩) hb, Scan.enter, hb',
      hne, Frame.bracket]
  | emptyObject hp hb hFull hb' =>
    refine Scan.run_eq ?_
    simp [Scan.step, hp, Phase.awaits, Scan.begin_eq_enter (.inr ⟨rfl, rfl⟩) hb, Scan.enter, hb',
      Scan.passed]
  | openObject hp hb hFull hKey hne =>
    refine Scan.run_eq ?_
    simp [Scan.step, hp, Phase.awaits, Scan.begin_eq_enter (.inr ⟨rfl, rfl⟩) hb, hKey.enter_eq,
      Frame.bracket]
  | @nextItem _ _ frames _ behind _ hp hf hb hb' hne =>
    -- The scan leaves the blanks behind the comma to its next step.
    have hStep : (⟨s.frames.map Frame.bracket, s.phase.awaits, s.rest⟩ : Scan).step =
        .ok (.running ⟨.array :: frames.map Frame.bracket, true, behind⟩) := by
      simp [Scan.step, hp, hf, Phase.awaits, Scan.after, hb, Frame.bracket]
    rw [Scan.run_eq hStep, ← Scan.run_skipBlank, hb']
    rfl
  | closeArray hp hf hb =>
    have hne : byte ']' ≠ byte ',' := by decide
    refine Scan.run_eq ?_
    simp [Scan.step, hp, hf, Phase.awaits, Scan.after, hb, hne, Frame.bracket, Scan.passed]
  | nextMember hp hf hb hKey =>
    refine Scan.run_eq ?_
    simp [Scan.step, hp, hf, Phase.awaits, hKey.after_eq hb, Frame.bracket]
  | closeObject hp hf hb =>
    have hne : byte '\x7d' ≠ byte ',' := by decide
    refine Scan.run_eq ?_
    simp [Scan.step, hp, hf, Phase.awaits, Scan.after, hb, hne, Frame.bracket, Scan.passed]

theorem Moves.scan_run (h : Moves s (.running s')) : s.scan.run = s'.scan.run := by
  cases h with
  | within h =>
    rw [State.scan, State.scan, h.scanAround_eq]
    cases scanAround s.frames with
    | some sc => rfl
    | none => exact h.scan_run
  | @enter opened behind quoted resume content hp hb hFull hKey hq ht =>
    cases hAround : scanAround s.frames with
    | some sc => simp [State.scan, scanAround, hAround]
    | none =>
      have hScalar : Scalar (skipBlank behind) (.string content) resume := by
        rw [hq]
        exact .text ht
      simp only [State.scan, scanAround, hAround, Option.none_or, Option.getD_none,
        Option.getD_some]
      have hOpen : (⟨s.frames.map Frame.bracket, s.phase.awaits, s.rest⟩ : Scan).step =
          .ok (.running ⟨.object :: s.frames.map Frame.bracket, true, behind⟩) := by
        simp [Scan.step, hp, Phase.awaits, Scan.begin_eq_enter (.inr ⟨rfl, rfl⟩) hb, hKey.enter_eq]
      have hText : (⟨.object :: s.frames.map Frame.bracket, true, behind⟩ : Scan).step =
          .ok (.running ⟨.object :: s.frames.map Frame.bracket, false, resume⟩) :=
        hScalar.scan_eq
      rw [Scan.run_eq hOpen, Scan.run_eq hText]
  | @leave v text resume rest frames hp hf hEnd hb =>
    cases hAround : scanAround frames with
    | some sc => simp [State.scan, scanAround, hf, hAround]
    | none =>
      simp only [State.scan, scanAround, hf, hAround, Option.none_or, Option.getD_none,
        Option.getD_some]
      have hne : byte '\x7d' ≠ byte ',' := by decide
      refine Scan.run_eq ?_
      simp [Scan.step, Phase.awaits, Scan.after, hb, hne, Scan.passed]

theorem Reached.scan_run {text : List UInt8} (h : Reached text s) :
    scanValue text = s.scan.run := by
  induction h with
  | initial => rfl
  | step _ hs ih => rw [ih, (moves_of_step hs).scan_run]

theorem scanValue_skipBlank (text : List UInt8) : scanValue (skipBlank text) = scanValue text :=
  Scan.run_skipBlank [] text

end SyntaxDrawing.Json
