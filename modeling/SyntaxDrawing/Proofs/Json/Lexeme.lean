import Mathlib.Data.List.DropRight
import SyntaxDrawing.Json.Numeral

/-!
# What the reader takes off the front of a text

Words and numbers consist of bytes that are neither blank nor quote nor bracket. `Quoted` relates
what stands behind an opening quote, the closing one included, to the bytes that it spells, and
`readText_eq_ok_iff` says that these are the strings the reader takes, whatever follows them.
-/

namespace SyntaxDrawing.Json

variable {rest rest' bytes : List UInt8}

/-- A byte that stands for itself outside of strings: no quote and no bracket. -/
def isPlain (b : UInt8) : Bool :=
  b != byte '"' && b != byte '[' && b != byte '\x7b' && b != byte ']' && b != byte '\x7d'

def isWordByte (b : UInt8) : Bool :=
  isPlain b && !isBlankByte b

theorem isPlain_of_isBlankByte {b : UInt8} (h : isBlankByte b = true) : isPlain b = true := by
  simp only [isBlankByte, Bool.or_eq_true, beq_iff_eq] at h
  rcases h with ((rfl | rfl) | rfl) | rfl <;> decide

theorem isPlain_of_isWordByte {b : UInt8} (h : isWordByte b = true) : isPlain b = true := by
  simp only [isWordByte, Bool.and_eq_true] at h
  exact h.1

theorem not_isBlankByte_of_isWordByte {b : UInt8} (h : isWordByte b = true) :
    isBlankByte b = false := by
  simp only [isWordByte, Bool.and_eq_true, Bool.not_eq_true'] at h
  exact h.2

theorem ne_byte_of_isDigitByte {b : UInt8} (h : isDigitByte b = true) {c : Char}
    (hc : isDigitByte (byte c) = false) : b ≠ byte c := by
  rintro rfl
  rw [h] at hc
  cases hc

theorem isWordByte_of_isDigitByte {b : UInt8} (h : isDigitByte b = true) : isWordByte b = true := by
  have hne (c : Char) (hc : isDigitByte (byte c) = false) : b ≠ byte c :=
    ne_byte_of_isDigitByte h hc
  simp [isWordByte, isPlain, isBlankByte, hne '"' (by decide), hne '[' (by decide),
    hne '\x7b' (by decide), hne ']' (by decide), hne '\x7d' (by decide), hne ' ' (by decide),
    hne '\n' (by decide), hne '\t' (by decide), hne '\r' (by decide)]

def Passes (q : UInt8 → Bool) (rest rest' : List UInt8) : Prop :=
  ∃ taken, rest = taken ++ rest' ∧ ∀ b ∈ taken, q b = true

namespace Passes

variable {q : UInt8 → Bool}

theorem refl (rest : List UInt8) : Passes q rest rest :=
  ⟨[], rfl, by simp⟩

theorem cons {b : UInt8} (hb : q b = true) (h : Passes q rest rest') :
    Passes q (b :: rest) rest' := by
  obtain ⟨taken, rfl, hTaken⟩ := h
  exact ⟨b :: taken, rfl, by simpa [hb] using hTaken⟩

theorem trans {rest'' : List UInt8} (h : Passes q rest rest') (h' : Passes q rest' rest'') :
    Passes q rest rest'' := by
  obtain ⟨taken, rfl, hTaken⟩ := h
  obtain ⟨taken', rfl, hTaken'⟩ := h'
  refine ⟨taken ++ taken', (List.append_assoc ..).symm, fun b hb => ?_⟩
  exact (List.mem_append.mp hb).elim (hTaken b) (hTaken' b)

theorem dropWhile {p : UInt8 → Bool} (hp : ∀ b, p b = true → q b = true) (rest : List UInt8) :
    Passes q rest (rest.dropWhile p) :=
  ⟨rest.takeWhile p, List.takeWhile_append_dropWhile.symm, fun b hb =>
    hp b (List.mem_takeWhile_imp hb)⟩

theorem notMem {b : UInt8} (h : Passes q rest rest') (hb : b ∉ rest) :
    b ∉ rest' := by
  obtain ⟨taken, rfl, -⟩ := h
  exact fun hMem => hb (List.mem_append_right taken hMem)

end Passes

theorem skipBlank_skipBlank (rest : List UInt8) : skipBlank (skipBlank rest) = skipBlank rest :=
  List.dropWhile_idempotent _ rest

theorem passes_skipBlank (rest : List UInt8) : Passes isBlankByte rest (skipBlank rest) :=
  .dropWhile (fun _ => id) rest

theorem notMem_of_skipBlank_eq {b c : UInt8} (h : skipBlank rest = c :: rest') (hb : b ∉ rest) :
    b ∉ c :: rest' :=
  h ▸ (passes_skipBlank rest).notMem hb

theorem passes_spanDigits (rest : List UInt8) : Passes isWordByte rest (spanDigits rest).2 :=
  .dropWhile (fun _ => isWordByte_of_isDigitByte) rest

theorem passes_readWord {letters : List UInt8} (hWord : ∀ b ∈ letters, isWordByte b = true)
    (h : readWord letters rest = .ok rest') : Passes isWordByte rest rest' := by
  fun_induction readWord letters rest with
  | case1 =>
    cases h
    exact .refl _
  | case2 => cases h
  | case3 letters b rest ih =>
    exact .cons (hWord b (by simp)) (ih (fun b hb => hWord b (by simp [hb])) h)
  | case4 => cases h

theorem passes_readWhole {digits : List Nat} (h : readWhole rest = .ok (digits, rest')) :
    Passes isWordByte rest rest' := by
  unfold readWhole at h
  split at h
  · cases h
  · next b rest =>
    split at h
    · cases h
    next hDigit =>
    have hWord : isWordByte b = true := isWordByte_of_isDigitByte (by simpa using hDigit)
    split at h
    · split at h
      · cases h
        exact .cons hWord (.refl _)
      · split at h
        · cases h
        · cases h
          exact .cons hWord (.refl _)
    · cases h
      exact .cons hWord (passes_spanDigits rest)

theorem passes_readFraction {digits : List Nat} (h : readFraction rest = .ok (digits, rest')) :
    Passes isWordByte rest rest' := by
  unfold readFraction at h
  split at h
  · cases h
    exact .refl _
  · next b rest =>
    split at h
    · next hPoint =>
      have hSpan := passes_spanDigits rest
      subst hPoint
      split at h
      · cases h
      · cases h
      · next hs =>
        cases h
        rw [hs] at hSpan
        exact .cons (by decide) hSpan
    · cases h
      exact .refl _

theorem passes_readSign (rest : List UInt8) : Passes isWordByte rest (readSign rest).2 := by
  unfold readSign
  split
  · exact .refl _
  · split
    · next h => exact .cons (h ▸ by decide) (.refl _)
    · split
      · next h => exact .cons (h ▸ by decide) (.refl _)
      · exact .refl _

theorem passes_readExponent {exponent : Option (Bool × List Nat)}
    (h : readExponent rest = .ok (exponent, rest')) : Passes isWordByte rest rest' := by
  unfold readExponent at h
  split at h
  · cases h
    exact .refl _
  · next b rest =>
    have hSign := passes_readSign rest
    split at h
    · next he =>
      have hWord : isWordByte b = true := by rcases he with rfl | rfl <;> decide
      split at h
      next negative rest₁ hr =>
      rw [hr] at hSign
      split at h
      · cases h
      · next d rest₂ =>
        split at h
        · next hDigit =>
          cases h
          exact .cons hWord
            (hSign.trans (.cons (isWordByte_of_isDigitByte hDigit) (passes_spanDigits rest₂)))
        · cases h
    · cases h
      exact .refl _

theorem readNumber_parts {negative : Bool} {n : Number}
    (h : readNumber negative rest = .ok (n, rest')) :
    ∃ whole fraction exponent behindWhole behindFraction,
      readWhole rest = .ok (whole, behindWhole) ∧
      readFraction behindWhole = .ok (fraction, behindFraction) ∧
      readExponent behindFraction = .ok (exponent, rest') ∧
      (⟨negative, whole, fraction, exponent⟩ : Numeral).value = .ok n := by
  unfold readNumber at h
  split at h
  · cases h
  next numeral behind hn =>
  unfold readNumeral at hn
  split at hn
  · cases hn
  next hw =>
  split at hn
  · cases hn
  next hf =>
  split at hn
  · cases hn
  next he =>
  cases hn
  split at h
  · next hv =>
    cases h
    exact ⟨_, _, _, _, _, hw, hf, he, hv⟩
  · cases h

theorem passes_readNumber {negative : Bool} {n : Number}
    (h : readNumber negative rest = .ok (n, rest')) : Passes isWordByte rest rest' := by
  obtain ⟨_, _, _, _, _, hw, hf, he, -⟩ := readNumber_parts h
  exact (passes_readWhole hw).trans ((passes_readFraction hf).trans (passes_readExponent he))

/-- What stands behind a backslash, and what it spells. -/
inductive Escape : List UInt8 → List UInt8 → Prop
  | letter {b e : UInt8} : escaped? b = some e → Escape [b] [e]
  | unicode {digits : List UInt8} {n : Nat} : readHex digits = .ok (n, []) →
      ¬ (0xd800 ≤ n ∧ n ≤ 0xdfff) →
      Escape (byte 'u' :: digits) (String.utf8EncodeChar (Char.ofNat n))
  | pair {digits digits' : List UInt8} {n low : Nat} : readHex digits = .ok (n, []) →
      0xd800 ≤ n ∧ n ≤ 0xdbff → readHex digits' = .ok (low, []) → 0xdc00 ≤ low ∧ low ≤ 0xdfff →
      Escape (byte 'u' :: (digits ++ byte '\\' :: byte 'u' :: digits'))
        (String.utf8EncodeChar (Char.ofNat ((n - 0xd800) * 0x400 + (low - 0xdc00) + 0x10000)))

inductive Quoted : List UInt8 → List UInt8 → Prop
  | close : Quoted [byte '"'] []
  | escape {letters spelt taken bytes : List UInt8} : Escape letters spelt → Quoted taken bytes →
      Quoted (byte '\\' :: (letters ++ taken)) (spelt ++ bytes)
  | plain {b : UInt8} {taken bytes : List UInt8} : b ≠ byte '"' → b ≠ byte '\\' → ¬ b < 0x20 →
      Quoted taken bytes → Quoted (b :: taken) (b :: bytes)

theorem Quoted.of_plain {bytes : List UInt8}
    (h : ∀ b ∈ bytes, b ≠ byte '"' ∧ b ≠ byte '\\' ∧ ¬ b < 0x20) :
    Quoted (bytes ++ [byte '"']) bytes := by
  induction bytes with
  | nil => exact .close
  | cons b bytes ih =>
    obtain ⟨hq, hb, hc⟩ := h b (by simp)
    exact .plain hq hb hc (ih fun b hb => h b (by simp [hb]))

theorem readHex_eq_ok {n : Nat} (h : readHex rest = .ok (n, rest')) :
    ∃ digits, readHex digits = .ok (n, []) ∧ rest = digits ++ rest' := by
  unfold readHex at h
  split at h
  · next a b c d _ =>
    split at h
    · next ha hb hc hd =>
      cases h
      exact ⟨[a, b, c, d], by simp [readHex, ha, hb, hc, hd], rfl⟩
    · cases h
  · cases h

theorem readHex_digits {digits : List UInt8} {n : Nat} (h : readHex digits = .ok (n, [])) :
    ∃ a b c d, digits = [a, b, c, d] ∧ (hexValue? a).isSome ∧ (hexValue? b).isSome ∧
      (hexValue? c).isSome ∧ (hexValue? d).isSome := by
  unfold readHex at h
  split at h
  · next a b c d _ =>
    split at h
    · next ha hb hc hd =>
      cases h
      exact ⟨a, b, c, d, rfl, by simp [ha], by simp [hb], by simp [hc], by simp [hd]⟩
    · cases h
  · cases h

theorem readHex_append {digits : List UInt8} {n : Nat} (h : readHex digits = .ok (n, []))
    (rest : List UInt8) : readHex (digits ++ rest) = .ok (n, rest) := by
  obtain ⟨a, b, c, d, rfl, -⟩ := readHex_digits h
  simp only [readHex] at h
  split at h
  · next ha hb hc hd =>
    cases h
    simp [readHex, ha, hb, hc, hd]
  · cases h

theorem readLowSurrogate_eq_ok {n : Nat} (h : readLowSurrogate rest = .ok (n, rest')) :
    ∃ digits, readHex digits = .ok (n, []) ∧ (0xdc00 ≤ n ∧ n ≤ 0xdfff) ∧
      rest = byte '\\' :: byte 'u' :: (digits ++ rest') := by
  unfold readLowSurrogate at h
  split at h
  · cases h
  split at h
  · next hb =>
    subst hb
    split at h
    · cases h
    split at h
    · next hu =>
      subst hu
      split at h
      · cases h
      next hx =>
      obtain ⟨digits, hDigits, rfl⟩ := readHex_eq_ok hx
      split at h
      · next hn =>
        cases h
        exact ⟨digits, hDigits, hn, rfl⟩
      · cases h
    · cases h
  · cases h

theorem readEscape_eq_ok (h : readEscape rest = .ok (bytes, rest')) :
    ∃ letters, Escape letters bytes ∧ rest = letters ++ rest' := by
  unfold readEscape at h
  split at h
  · cases h
  next b rest =>
  split at h
  · next he =>
    cases h
    exact ⟨[b], .letter he, rfl⟩
  split at h
  · next hu =>
    subst hu
    split at h
    · cases h
    next c behind hc =>
    cases h
    unfold readUnicode at hc
    split at hc
    · cases hc
    next n behind' hx =>
    obtain ⟨digits, hDigits, rfl⟩ := readHex_eq_ok hx
    split at hc
    · cases hc
    next hLow =>
    split at hc
    · next hHigh =>
      split at hc
      · cases hc
      next low behind'' hl =>
      simp only [Except.ok.injEq, Prod.mk.injEq] at hc
      obtain ⟨rfl, rfl⟩ := hc
      obtain ⟨digits', hDigits', hRange, rfl⟩ := readLowSurrogate_eq_ok hl
      exact ⟨_, .pair hDigits hHigh hDigits' hRange, by simp⟩
    · next hHigh =>
      cases hc
      exact ⟨_, .unicode hDigits (by omega), by simp⟩
  · cases h

theorem Escape.readEscape_eq {letters : List UInt8} (h : Escape letters bytes)
    (rest : List UInt8) : readEscape (letters ++ rest) = .ok (bytes, rest) := by
  have hu : escaped? (byte 'u') = none := by decide
  cases h with
  | letter he => simp [readEscape, he]
  | @unicode digits n hDigits hn =>
    have hLow : ¬ (0xdc00 ≤ n ∧ n ≤ 0xdfff) := by omega
    have hHigh : ¬ (0xd800 ≤ n ∧ n ≤ 0xdbff) := by omega
    simp only [List.cons_append, readEscape, hu, if_true, readUnicode, readHex_append hDigits,
      if_neg hLow, if_neg hHigh]
  | @pair digits digits' n low hDigits hn hDigits' hRange =>
    have hLow : ¬ (0xdc00 ≤ n ∧ n ≤ 0xdfff) := by omega
    simp only [List.cons_append, List.append_assoc, readEscape, hu, if_true, readUnicode,
      readHex_append hDigits, if_neg hLow, if_pos hn, readLowSurrogate, readHex_append hDigits',
      if_pos hRange]

theorem readStringFrom_eq_ok {acc : List UInt8} (h : readStringFrom acc rest = .ok (bytes, rest')) :
    ∃ taken spelt, Quoted taken spelt ∧ rest = taken ++ rest' ∧ bytes = acc.reverse ++ spelt := by
  fun_induction readStringFrom acc rest with
  | case1 => cases h
  | case2 =>
    cases h
    exact ⟨_, _, .close, rfl, by simp⟩
  | case3 => cases h
  | case4 acc rest more behind he _ ih =>
    obtain ⟨letters, hLetters, rfl⟩ := readEscape_eq_ok he
    obtain ⟨taken, spelt, hTaken, rfl, rfl⟩ := ih h
    exact ⟨_, _, .escape hLetters hTaken, by simp, by simp⟩
  | case5 => cases h
  | case6 acc b rest hq hb hc ih =>
    obtain ⟨taken, spelt, hTaken, rfl, rfl⟩ := ih h
    exact ⟨_, _, .plain hq hb hc hTaken, rfl, by simp⟩

theorem Quoted.readStringFrom_eq {taken spelt : List UInt8} (h : Quoted taken spelt)
    (acc rest : List UInt8) :
    readStringFrom acc (taken ++ rest) = .ok (acc.reverse ++ spelt, rest) := by
  have hQuote : byte '\\' ≠ byte '"' := by decide
  induction h generalizing acc with
  | close =>
    unfold readStringFrom
    simp
  | @escape letters spelt taken bytes hLetters _ ih =>
    unfold readStringFrom
    have he := hLetters.readEscape_eq (taken ++ rest)
    rw [← List.append_assoc] at he
    simp only [List.cons_append, if_neg hQuote, if_true]
    split
    · next hf =>
      rw [he] at hf
      cases hf
    · next hm =>
      rw [he] at hm
      cases hm
      simp [ih]
  | plain hq hb hc _ ih =>
    unfold readStringFrom
    simp [hq, hb, hc, ih]

/-- The reader takes a string as it is spelt, and looks at nothing behind its closing quote. -/
theorem readText_eq_ok_iff {s : String} : readText rest = .ok (s, rest') ↔
    ∃ taken, Quoted taken (Text.Utf8.encode s) ∧ rest = taken ++ rest' := by
  constructor
  · intro h
    unfold readText at h
    split at h
    · cases h
    next hs =>
    obtain ⟨taken, spelt, hTaken, rfl, rfl⟩ := readStringFrom_eq_ok hs
    split at h
    · next hd =>
      cases h
      refine ⟨taken, ?_, rfl⟩
      rwa [Text.Utf8.encode_of_decode? hd]
    · cases h
  · rintro ⟨taken, hTaken, rfl⟩
    simp only [readText, hTaken.readStringFrom_eq, List.reverse_nil, List.nil_append,
      Text.Utf8.decode?_encode]

end SyntaxDrawing.Json
