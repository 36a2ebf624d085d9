import Mathlib.Tactic.GCongr
import SyntaxDrawing.Proofs.Decimal.ExactOperation
import SyntaxDrawing.Settings

/-!
# Every length has a text

The least number is a whole multiple of `10 ^ -1074`, and so are all the others. With these places
written out a number has a text that reads as the number itself.
-/

namespace SyntaxDrawing.Decimal

open Float.Model Float.Model.UnpackedFloat

variable {m p : Nat} {e : Int}

def significand (m : Nat) (e : Int) (p : Nat) : Nat :=
  m * 5 ^ p * 2 ^ (e + p).toNat

theorem Canonical.significand_pos (h : Canonical m e) (p : Nat) : 0 < significand m e p :=
  Nat.mul_pos (Nat.mul_pos h.pos (by positivity)) (by positivity)

theorem Canonical.significand_value (h : Canonical m e) (hFine : 1074 ≤ p) :
    (significand m e p : ℚ) = m * 2 ^ e * (5 ^ p * 2 ^ p) := by
  have hLeast := h.least
  have hExponent : ((e + p).toNat : Int) = e + p := Int.toNat_of_nonneg (by omega)
  rw [significand, Nat.cast_mul, Nat.cast_mul, Nat.cast_pow, Nat.cast_pow, Nat.cast_two,
    Nat.cast_ofNat, ← zpow_natCast 2 (e + p).toNat, hExponent, zpow_add₀ two_ne_zero, zpow_natCast]
  ring

theorem Canonical.ofScientific_eq (h : Canonical m e) (hFine : 1074 ≤ p) (hp : p ≤ 2048) :
    UnpackedFloat.ofScientific .binary64 (significand m e p) (-p) =
      .finite .positive m e h.pos := by
  have hPos := h.significand_pos p
  have hTen : ((10 ^ (- -(p : Int)).toNat : Nat) : ℚ) = 5 ^ p * 2 ^ p := by
    rw [Int.neg_neg, Int.toNat_natCast, Nat.cast_pow, Nat.cast_ofNat, ← mul_pow]
    norm_num
  have hSmall : ¬ -(p : Int) > 2048 := by omega
  have hLarge : ¬ -(p : Int) < -((2048 : Int) + ((significand m e p).log2 : Int)) := by omega
  have hNegative : ¬ 0 ≤ -(p : Int) := by omega
  have hBranch : UnpackedFloat.ofScientific .binary64 (significand m e p) (-p) =
      div .binary64 (.finite .positive (significand m e p) 0 hPos)
        (.finite .positive (10 ^ (- -(p : Int)).toNat) 0 (Nat.pow_pos (by decide))) :=
    (dif_neg hPos.ne').trans ((if_neg hSmall).trans ((if_neg hLarge).trans (if_neg hNegative)))
  rw [hBranch]
  refine h.div_of_value .positive .positive hPos _ ?_
  rw [zpow_zero, mul_one, mul_one, hTen, h.significand_value hFine]

theorem Canonical.significand_lt (h : Canonical m e) (p : Nat) :
    significand m e p < 10 ^ (p + 310) := by
  have hGreatest := h.greatest
  obtain ⟨t, hLong, hTop⟩ : ∃ t, 1024 ≤ t ∧ 2 ^ t ≤ 10 ^ (62 * 5) := by
    refine ⟨205 * 5, by decide, ?_⟩
    simpa only [Nat.pow_mul] using Nat.pow_le_pow_left (show 2 ^ 205 ≤ 10 ^ 62 by decide) 5
  have hTen : 2 ^ p * 5 ^ p = 10 ^ p := (Nat.mul_pow 2 5 p).symm
  have hExponent : 53 + (e + p).toNat ≤ t + p := by omega
  calc m * 5 ^ p * 2 ^ (e + p).toNat < 2 ^ 53 * 5 ^ p * 2 ^ (e + p).toNat := by
        have := h.below
        gcongr
    _ = 2 ^ (53 + (e + p).toNat) * 5 ^ p := by rw [Nat.pow_add, Nat.mul_right_comm]
    _ ≤ 2 ^ (t + p) * 5 ^ p := Nat.mul_le_mul_right _ (Nat.pow_le_pow_right (by decide) hExponent)
    _ = 2 ^ t * 10 ^ p := by rw [Nat.pow_add, Nat.mul_assoc, hTen]
    _ ≤ 10 ^ (62 * 5) * 10 ^ p := Nat.mul_le_mul_right _ hTop
    _ = 10 ^ (p + 310) := by rw [← Nat.pow_add, Nat.add_comm]

theorem Canonical.le_significand (h : Canonical m e) (hFine : 1074 ≤ p) :
    10 ^ (p - 324) ≤ significand m e p := by
  have hLeast := h.least
  have hBottom : 2 ^ (179 * 6) ≤ 10 ^ (54 * 6) := by
    simpa only [Nat.pow_mul] using Nat.pow_le_pow_left (show 2 ^ 179 ≤ 10 ^ 54 by decide) 6
  have hScaled : 10 ^ (p - 324) * 2 ^ (179 * 6) ≤ 5 ^ p * 2 ^ (p - 1074) * 2 ^ (179 * 6) :=
    calc 10 ^ (p - 324) * 2 ^ (179 * 6) ≤ 10 ^ (p - 324) * 10 ^ (54 * 6) :=
          Nat.mul_le_mul_left _ hBottom
      _ = 10 ^ p := by
          rw [← Nat.pow_add]
          congr 1
          omega
      _ = 5 ^ p * 2 ^ p := Nat.mul_pow 5 2 p
      _ = 5 ^ p * 2 ^ (p - 1074) * 2 ^ (179 * 6) := by
          rw [Nat.mul_assoc, ← Nat.pow_add]
          congr 2
          omega
  calc 10 ^ (p - 324) ≤ 5 ^ p * 2 ^ (p - 1074) := Nat.le_of_mul_le_mul_right hScaled (by positivity)
    _ ≤ m * 5 ^ p * 2 ^ (e + p).toNat :=
        Nat.mul_le_mul (Nat.le_mul_of_pos_left _ h.pos)
          (Nat.pow_le_pow_right (by decide) (by omega))

theorem Canonical.toFloat_eq (h : Canonical m e) {x : Float}
    (hx : x.toModel = Float.Model.pack (.finite .positive m e h.pos)) (hFine : 1074 ≤ p)
    (hp : p ≤ 2048) : Scaled.toFloat ⟨significand m e p, -p⟩ = x := by
  have hPos := h.significand_pos p
  have hDigits : digitCount (significand m e p) ≤ p + 310 :=
    (Nat.length_toDigits_le_iff (by decide) (by omega)).2 (h.significand_lt p)
  have hMore : p - 324 < digitCount (significand m e p) := by
    by_contra hNot
    have hBelow := (Nat.length_toDigits_le_iff (by decide) (by omega)).1 (Nat.not_lt.1 hNot)
    exact absurd (h.le_significand hFine) (Nat.not_le.2 hBelow)
  have hBig : ¬ 310 < (digitCount (significand m e p) : Int) + -(p : Int) := by omega
  have hSmall : ¬ (digitCount (significand m e p) : Int) + -(p : Int) < -330 := by omega
  have hNegative : decide (-(p : Int) < 0) = true := decide_eq_true (by omega)
  have hAbs : (-(p : Int)).natAbs = p := by omega
  have hScientific : Float.ofScientific (significand m e p) true p =
      ⟨Float.Model.pack (UnpackedFloat.ofScientific .binary64 (significand m e p)
        (Int.negOfNat p))⟩ := dif_neg (by omega)
  have hNeg : Int.negOfNat p = -(p : Int) := rfl
  simp only [Scaled.toFloat, hPos.ne', if_false, if_neg hBig, if_neg hSmall, hNegative, hAbs]
  rw [hScientific, hNeg, h.ofScientific_eq hFine hp, ← hx]

theorem ofDigits_toDigits (n : Nat) : ofDigits ((Nat.toDigits 10 n).map digitValue) = n := by
  rw [ofDigits, List.foldl_map]
  exact Nat.ofDigitChars_ten_toDigits

theorem isDigit_of_mem_toDigits {n : Nat} {c : Char} (h : c ∈ Nat.toDigits 10 n) :
    c.isDigit = true :=
  Nat.isDigit_of_mem_toDigits (by decide) (by decide) h

/-- The rest does not begin with a digit. -/
theorem spanDigits_toDigits (n : Nat) {c : Char} (hc : c.isDigit = false) (rest : List Char) :
    spanDigits (Nat.toDigits 10 n ++ c :: rest) =
      ((Nat.toDigits 10 n).map digitValue, c :: rest) := by
  have hDigits : ∀ d ∈ Nat.toDigits 10 n, d.isDigit = true := fun d => isDigit_of_mem_toDigits
  rw [spanDigits, List.takeWhile_append_of_pos hDigits, List.dropWhile_append_of_pos hDigits]
  simp [hc]

theorem readScaled_toDigits (n : Nat) :
    readScaled (Nat.toDigits 10 n ++ ['e', '-', '1', '0', '7', '4']) = some ⟨n, -1074⟩ := by
  have hSpan := spanDigits_toDigits n (c := 'e') (by decide) ['-', '1', '0', '7', '4']
  have hExponent : readExponent ['e', '-', '1', '0', '7', '4'] = some (-1074) := by decide
  have hNonempty : ((Nat.toDigits 10 n).map digitValue).isEmpty = false := by
    rw [List.isEmpty_eq_false_iff, ne_eq, List.map_eq_nil_iff]
    exact Nat.toDigits_ne_nil
  rw [readScaled, hSpan]
  simp [hNonempty, hExponent, ofDigits_toDigits]

theorem toList_scientific (n : Nat) :
    (Nat.repr n ++ "e-1074").toList = Nat.toDigits 10 n ++ ['e', '-', '1', '0', '7', '4'] := by
  rw [String.toList_append, Nat.toList_repr]
  rfl

theorem exists_cons_toDigits (n : Nat) :
    ∃ c rest, Nat.toDigits 10 n = c :: rest ∧ c.isDigit = true := by
  obtain ⟨c, rest, h⟩ := List.exists_cons_of_ne_nil (Nat.toDigits_ne_nil (n := n) (b := 10))
  exact ⟨c, rest, h, isDigit_of_mem_toDigits (h ▸ List.mem_cons_self)⟩

theorem readFloat_scientific (n : Nat) :
    readFloat (Nat.repr n ++ "e-1074") = .ok (Scaled.toFloat ⟨n, -1074⟩) := by
  obtain ⟨c, rest, hDigits, hc⟩ := exists_cons_toDigits n
  have hSign : splitSign (Nat.toDigits 10 n ++ ['e', '-', '1', '0', '7', '4']) =
      (false, Nat.toDigits 10 n ++ ['e', '-', '1', '0', '7', '4']) := by
    rw [hDigits, List.cons_append]
    unfold splitSign
    split
    · next h => cases h; cases hc
    · next h => cases h; cases hc
    · rfl
  have hNonempty : ¬ (Nat.repr n ++ "e-1074").isEmpty = true := by
    rw [String.isEmpty_iff, ← String.toList_eq_nil_iff, toList_scientific]
    simp
  rw [readFloat, if_neg hNonempty, toList_scientific, hSign]
  simp [readScaled_toDigits]

theorem not_isBlank_of_isDigit {c : Char} (h : c.isDigit = true) : Text.isBlank c = false := by
  have hRange : 48 ≤ c.toNat ∧ c.toNat ≤ 57 := by
    simpa [Char.isDigit, UInt32.le_iff_toNat_le] using h
  simp [Text.isBlank]
  omega

theorem trim_scientific (n : Nat) :
    Text.trim (Nat.repr n ++ "e-1074") = Nat.repr n ++ "e-1074" := by
  obtain ⟨c, rest, hDigits, hc⟩ := exists_cons_toDigits n
  have hFront : (Nat.toDigits 10 n ++ ['e', '-', '1', '0', '7', '4']).dropWhile Text.isBlank =
      Nat.toDigits 10 n ++ ['e', '-', '1', '0', '7', '4'] := by
    rw [hDigits, List.cons_append, List.dropWhile_cons_of_neg]
    simp [not_isBlank_of_isDigit hc]
  have hBack :
      (Nat.toDigits 10 n ++ ['e', '-', '1', '0', '7', '4']).reverse.dropWhile Text.isBlank =
      (Nat.toDigits 10 n ++ ['e', '-', '1', '0', '7', '4']).reverse := by
    rw [List.reverse_append]
    rfl
  rw [Text.trim, toList_scientific, Text.trimChars, hFront, hBack, List.reverse_reverse,
    ← toList_scientific, String.ofList_toList]

theorem exists_readLength_eq {x : Float} (h : isPositive x = true) :
    ∃ text, readLength text = .ok x := by
  obtain ⟨m, e, hc, hx⟩ := exists_canonical h
  -- A literal exponent would be evaluated.
  obtain ⟨p, hp⟩ : ∃ p : Nat, -(p : Int) = -1074 := ⟨1074, rfl⟩
  have hFloat := hc.toFloat_eq hx (p := p) (by omega) (by omega)
  rw [hp] at hFloat
  refine ⟨Nat.repr (significand m e p) ++ "e-1074", ?_⟩
  rw [readLength, trim_scientific, readFloat_scientific, hFloat]
  simp only [h, if_true]

end SyntaxDrawing.Decimal
