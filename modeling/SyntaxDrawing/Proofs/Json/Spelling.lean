import SyntaxDrawing.Proofs.Decimal.LengthText
import SyntaxDrawing.Proofs.Json.Rendering
import SyntaxDrawing.Proofs.Json.Trailing
import SyntaxDrawing.Proofs.Text.Utf8

/-!
# Strings and integers as they are written

A written string is quoted as its own bytes, whatever characters it holds, and the digits of an
integer of 64 bits are gathered into that integer if nothing goes on with them. So the reader takes
what is written for a value without brackets as this value.
-/

namespace SyntaxDrawing.Json

-- Powers mean those of the core library, whatever else is imported beside it.
attribute [local instance (high)] instPowNat

open Text.Utf8 (encode encode_append encode_ofList encode_eq_flatMap)

variable {rest : List UInt8}

theorem utf8EncodeChar_eq_byte {c : Char} (h : c.toNat < 128) :
    String.utf8EncodeChar c = [byte c] := by
  have hVal : c.val ≤ 127 := UInt32.le_iff_toNat_le.mpr (Nat.le_of_lt_succ h)
  rw [String.utf8EncodeChar_eq_singleton (Char.utf8Size_eq_one_iff.mpr hVal)]
  rfl

theorem flatMap_utf8EncodeChar_eq {cs : List Char} (h : ∀ c ∈ cs, c.toNat < 128) :
    cs.flatMap String.utf8EncodeChar = cs.map byte := by
  induction cs with
  | nil => rfl
  | cons c cs ih =>
    rw [List.forall_mem_cons] at h
    rw [List.flatMap_cons, List.map_cons, utf8EncodeChar_eq_byte h.1, ih h.2,
      List.singleton_append]

theorem Quoted.append_plain {front taken bytes : List UInt8}
    (hFront : ∀ b ∈ front, b ≠ byte '"' ∧ b ≠ byte '\\' ∧ ¬ b < 0x20) (h : Quoted taken bytes) :
    Quoted (front ++ taken) (front ++ bytes) := by
  induction front with
  | nil => exact h
  | cons b front ih =>
    obtain ⟨⟨hq, hb, hc⟩, hFront⟩ := List.forall_mem_cons.mp hFront
    exact .plain hq hb hc (ih hFront)

theorem toNat_byte {c : Char} (h : c.toNat < 128) : (byte c).toNat = c.toNat :=
  Nat.mod_eq_of_lt (by omega)

/-- The byte of an ASCII character stands in no other character. -/
theorem eq_of_byte_mem {c d : Char} (hd : d.toNat < 128) (h : byte d ∈ String.utf8EncodeChar c) :
    c = d := by
  have hByte := toNat_byte hd
  have hAscii : byte d < 0x80 := UInt8.lt_iff_toNat_lt.mpr (hByte.symm ▸ hd)
  exact Char.toNat_inj.mp ((Text.Utf8.toNat_of_mem_utf8EncodeChar hAscii h).symm.trans hByte)

theorem plain_of_mem_utf8EncodeChar {c : Char} (hQuote : c ≠ '"') (hSlash : c ≠ '\\')
    (hControl : ¬ c.toNat < 0x20) :
    ∀ b ∈ String.utf8EncodeChar c, b ≠ byte '"' ∧ b ≠ byte '\\' ∧ ¬ b < 0x20 := by
  intro b hb
  have hChar {d : Char} (hd : d.toNat < 128) (hne : c ≠ d) : b ≠ byte d := by
    rintro rfl
    exact hne (eq_of_byte_mem hd hb)
  refine ⟨hChar (by decide) hQuote, hChar (by decide) hSlash, ?_⟩
  intro hLow
  have hLow : b.toNat < 32 := UInt8.lt_iff_toNat_lt.mp hLow
  have hAscii : b < 0x80 := UInt8.lt_iff_toNat_lt.mpr (Nat.lt_trans hLow (by decide))
  have hSame := Text.Utf8.toNat_of_mem_utf8EncodeChar hAscii hb
  omega

theorem readHex_hexDigit {n : Nat} (h : n < 32) :
    readHex (['0', '0', hexDigit (n / 16), hexDigit (n % 16)].map byte) = .ok (n, []) := by
  have hAll : ∀ n < 32,
      readHex (['0', '0', hexDigit (n / 16), hexDigit (n % 16)].map byte) = .ok (n, []) := by
    decide
  exact hAll n h

theorem toNat_hexDigit_lt {n : Nat} (h : n < 16) : (hexDigit n).toNat < 128 := by
  have hAll : ∀ n < 16, (hexDigit n).toNat < 128 := by decide
  exact hAll n h

/-- A written character is quoted as the bytes of the character. -/
theorem Quoted.escapeChar (c : Char) {taken bytes : List UInt8} (h : Quoted taken bytes) :
    Quoted ((escapeChar c).flatMap String.utf8EncodeChar ++ taken)
      (String.utf8EncodeChar c ++ bytes) := by
  obtain ⟨letter, hMem, hChars⟩ | ⟨hControl, hChars⟩ | ⟨hQuote, hSlash, hControl, hChars⟩ :=
    escapeChar_cases c
  · have hAll : ∀ p ∈ letterEscapes, p.1.toNat < 128 ∧ p.2.toNat < 128 ∧
        escaped? (byte p.2) = some (byte p.1) := by decide
    obtain ⟨hChar, hLetter, hEscape⟩ := hAll _ hMem
    have hAscii : ∀ d ∈ ['\\', letter], d.toNat < 128 :=
      List.forall_mem_cons.mpr ⟨by decide, List.forall_mem_singleton.mpr hLetter⟩
    rw [hChars, flatMap_utf8EncodeChar_eq hAscii, utf8EncodeChar_eq_byte hChar]
    exact .escape (.letter hEscape) h
  · have hAscii : ∀ d ∈ ['\\', 'u', '0', '0', hexDigit (c.toNat / 16), hexDigit (c.toNat % 16)],
        d.toNat < 128 := by
      simp only [List.forall_mem_cons]
      exact ⟨by decide, by decide, by decide, by decide, toNat_hexDigit_lt (by omega),
        toNat_hexDigit_lt (by omega), nofun⟩
    have hUnicode := Escape.unicode (readHex_hexDigit hControl) (by omega)
    rw [Char.ofNat_toNat] at hUnicode
    rw [hChars, flatMap_utf8EncodeChar_eq hAscii]
    exact .escape hUnicode h
  · rw [hChars, List.flatMap_singleton]
    exact h.append_plain (plain_of_mem_utf8EncodeChar hQuote hSlash hControl)

theorem encode_quote (s : String) :
    ∃ taken, encode (quote s) = byte '"' :: taken ∧ Quoted taken (encode s) := by
  have hBody : ∀ cs : List Char, Quoted ((cs.flatMap escapeChar).flatMap String.utf8EncodeChar ++
      [byte '"']) (cs.flatMap String.utf8EncodeChar) := by
    intro cs
    induction cs with
    | nil => exact .close
    | cons c cs ih =>
      rw [List.flatMap_cons, List.flatMap_cons, List.flatMap_append, List.append_assoc]
      exact ih.escapeChar c
  refine ⟨_, ?_, encode_eq_flatMap s ▸ hBody s.toList⟩
  rw [quote, encode_ofList, List.cons_append, List.flatMap_cons, List.flatMap_append]
  rfl

theorem toNat_of_isDigit {c : Char} (h : c.isDigit = true) : 48 ≤ c.toNat ∧ c.toNat ≤ 57 := by
  simpa [Char.isDigit, UInt32.le_iff_toNat_le] using h

theorem isDigitByte_byte {c : Char} (h : c.isDigit = true) : isDigitByte (byte c) = true := by
  obtain ⟨hLow, hHigh⟩ := toNat_of_isDigit h
  have hByte := toNat_byte (c := c) (by omega)
  simp only [isDigitByte, Bool.and_eq_true, decide_eq_true_eq, UInt8.le_iff_toNat_le, hByte]
  exact ⟨hLow, hHigh⟩

theorem digitOf_byte {c : Char} (h : c.isDigit = true) :
    digitOf (byte c) = Decimal.digitValue c := by
  have hRange := toNat_of_isDigit h
  rw [digitOf, toNat_byte (by omega)]
  rfl

theorem spanDigits_append {digits : List Char} (hDigits : ∀ c ∈ digits, c.isDigit = true)
    (hRest : rest.head?.any isDigitByte = false) :
    spanDigits (digits.map byte ++ rest) = (digits.map Decimal.digitValue, rest) := by
  have hBytes : ∀ b ∈ digits.map byte, isDigitByte b = true := by
    intro b hb
    obtain ⟨c, hc, rfl⟩ := List.mem_map.mp hb
    exact isDigitByte_byte (hDigits c hc)
  have hTake : rest.takeWhile isDigitByte = [] ∧ rest.dropWhile isDigitByte = rest := by
    cases rest with
    | nil => exact ⟨rfl, rfl⟩
    | cons b rest =>
      have hb : isDigitByte b = false := hRest
      simp [hb]
  rw [spanDigits, List.takeWhile_append_of_pos hBytes, List.dropWhile_append_of_pos hBytes,
    hTake.1, hTake.2, List.append_nil, List.map_map]
  exact congrArg (·, rest) (List.map_congr_left fun c hc => digitOf_byte (hDigits c hc))

/-- Only zero begins with a zero. -/
theorem exists_cons_toDigits_of_pos {n : Nat} (h : 0 < n) :
    ∃ c cs, Nat.toDigits 10 n = c :: cs ∧ c ≠ '0' := by
  induction n using Nat.strongRecOn with
  | ind n ih =>
    by_cases hLess : n < 10
    · refine ⟨_, _, Nat.toDigits_of_lt_base hLess, ?_⟩
      have hAll : ∀ n < 10, 0 < n → n.digitChar ≠ '0' := by decide
      exact hAll n hLess h
    · obtain ⟨c, cs, hDigits, hc⟩ := ih (n / 10) (by omega) (by omega)
      refine ⟨c, cs ++ [(n % 10).digitChar], ?_, hc⟩
      rw [Nat.toDigits_of_base_le (by decide) (by omega), hDigits, List.cons_append]

theorem readWhole_toDigits (n : Nat) (hRest : rest.head?.any isDigitByte = false) :
    readWhole ((Nat.toDigits 10 n).map byte ++ rest) =
      .ok ((Nat.toDigits 10 n).map Decimal.digitValue, rest) := by
  have hDigits : ∀ c ∈ Nat.toDigits 10 n, c.isDigit = true :=
    fun _ => Decimal.isDigit_of_mem_toDigits
  rcases Nat.eq_zero_or_pos n with rfl | hPos
  · rw [Nat.toDigits_zero, List.map_singleton, List.map_singleton, List.singleton_append,
      readWhole_zero, if_neg (by simp [hRest])]
    rfl
  · obtain ⟨c, cs, hCons, hc⟩ := exists_cons_toDigits_of_pos hPos
    rw [hCons, List.forall_mem_cons] at hDigits
    have hNotZero : byte c ≠ byte '0' := by
      intro hSame
      have hRange := toNat_of_isDigit hDigits.1
      have hNat := congrArg UInt8.toNat hSame
      rw [toNat_byte (by omega), toNat_byte (by decide)] at hNat
      exact hc (Char.toNat_inj.mp hNat)
    rw [hCons, List.map_cons, List.cons_append]
    simp only [readWhole, isDigitByte_byte hDigits.1, not_true, if_false, if_neg hNotZero,
      spanDigits_append hDigits.2 hRest, digitOf_byte hDigits.1, List.map_cons]

theorem gather_eq {s : Nat} {digits : List Nat}
    (h : digits.foldl (fun n d => 10 * n + d) s < 2 ^ (64 : Nat)) :
    gather s digits = (digits.foldl (fun n d => 10 * n + d) s, []) := by
  have hLe : ∀ (digits : List Nat) s, s ≤ digits.foldl (fun n d => 10 * n + d) s := by
    intro digits
    induction digits with
    | nil => exact fun s => Nat.le_refl s
    | cons d digits ih => exact fun s => Nat.le_trans (by omega) (ih (10 * s + d))
  induction digits generalizing s with
  | nil => rfl
  | cons d digits ih =>
    have hNext := hLe digits (10 * s + d)
    rw [List.foldl_cons] at h
    rw [gather, if_pos (by omega), ih h, List.foldl_cons]

theorem gather_toDigits {n : Nat} (h : n < 2 ^ (64 : Nat)) :
    gather 0 ((Nat.toDigits 10 n).map Decimal.digitValue) = (n, []) := by
  have hValue := Decimal.ofDigits_toDigits n
  rw [Decimal.ofDigits] at hValue
  rw [gather_eq (hValue.symm ▸ h), hValue]

structure Ends (rest : List UInt8) : Prop where
  digit : rest.head?.any isDigitByte = false
  point : rest.head?.any (· == byte '.') = false
  exponent : rest.head?.any (fun b => b == byte 'e' || b == byte 'E') = false

theorem Ends.nil : Ends [] :=
  ⟨rfl, rfl, rfl⟩

theorem readNumber_toDigits (negative : Bool) {n : Nat} {i : Int} (h : n < 2 ^ (64 : Nat))
    (hValue : (if negative then if 1 ≤ n ∧ n ≤ 2 ^ (63 : Nat) then some (-(n : Int)) else none
      else some (n : Int)) = some i) (hRest : Ends rest) :
    readNumber negative ((Nat.toDigits 10 n).map byte ++ rest) = .ok (.integer i, rest) := by
  refine readNumber_of_parts (readWhole_toDigits n hRest.digit) (readFraction_of_head hRest.point)
    (readExponent_of_head hRest.exponent) ?_
  have hInteger : (⟨negative, (Nat.toDigits 10 n).map Decimal.digitValue, [], none⟩ :
      Numeral).integer? = some i := by
    rw [Numeral.integer?, gather_toDigits h]
    exact hValue
  rw [Numeral.value, hInteger]

def IsShortInteger (i : Int) : Prop :=
  -((2 ^ (63 : Nat) : Nat) : Int) ≤ i ∧ i < ((2 ^ (64 : Nat) : Nat) : Int)

theorem encode_repr (n : Nat) : encode (Nat.repr n) = (Nat.toDigits 10 n).map byte := by
  rw [encode_eq_flatMap, Nat.toList_repr]
  apply flatMap_utf8EncodeChar_eq
  intro c hc
  have := toNat_of_isDigit (Decimal.isDigit_of_mem_toDigits hc)
  omega

theorem scalar_integerText {i : Int} (h : IsShortInteger i) (hRest : Ends rest) :
    Scalar (encode (Decimal.integerText i) ++ rest) (.number (.integer i)) rest := by
  obtain ⟨hLow, hHigh⟩ := h
  by_cases hNegative : i < 0
  · rw [Decimal.integerText, if_pos hNegative, encode_append, encode_repr]
    refine .negative (readNumber_toDigits true ?_ ?_ hRest)
    · omega
    · rw [if_pos rfl, if_pos (by omega)]
      congr 1
      omega
  · rw [Decimal.integerText, if_neg hNegative, encode_repr]
    have hValue : (i.natAbs : Int) = i := by omega
    have hRead := readNumber_toDigits false (n := i.natAbs) (by omega)
      (by rw [if_neg Bool.false_ne_true, hValue]) hRest
    obtain ⟨c, cs, hCons, hDigit⟩ := Decimal.exists_cons_toDigits i.natAbs
    rw [hCons] at hRead ⊢
    exact .number (isDigitByte_byte hDigit) hRead

end SyntaxDrawing.Json
