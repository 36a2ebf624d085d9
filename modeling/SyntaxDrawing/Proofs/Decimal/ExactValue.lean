import Mathlib.Algebra.Order.Field.Rat
import Mathlib.Tactic.Linarith
import SyntaxDrawing.Proofs.Decimal.Exact

/-!
# What a number stands for

A finite number stands for a rational, and no two of its forms for the same: what is packed is
unpacked as it was. Rounding a rational that some number stands for finds this number.
-/

namespace SyntaxDrawing.Decimal

open Float.Model Float.Model.UnpackedFloat

variable {m : Nat} {e : Int} {q : ℚ} {u : UnpackedFloat} {x : Float}

def unpackedValue? : UnpackedFloat → Option ℚ
  | .zero _ => some 0
  | .finite s m e _ => some ((s.apply m : ℤ) * 2 ^ e)
  | .infinity _ => none
  | .notANumber => none

def exactValue? (x : Float) : Option ℚ :=
  unpackedValue? x.toModel.unpack

/-- The form in which a number that stands for `q` is unpacked. -/
inductive Fits (q : ℚ) : UnpackedFloat → Prop
  | zero (s : Sign) (hq : q = 0) : Fits q (.zero s)
  | finite {m : Nat} {e : Int} (s : Sign) (hc : Canonical m e)
      (hq : q = (s.apply m : ℤ) * 2 ^ e) : Fits q (.finite s m e hc.pos)

def Representable (q : ℚ) : Prop :=
  ∃ u, Fits q u

theorem two_zpow_pos (e : Int) : (0 : ℚ) < 2 ^ e :=
  zpow_pos two_pos e

theorem Fits.positive (hc : Canonical m e) (hq : q = m * 2 ^ e) :
    Fits q (.finite .positive m e hc.pos) :=
  .finite .positive hc (hq.trans (congrArg (· * 2 ^ e) (Int.cast_natCast m).symm))

theorem Fits.negative (hc : Canonical m e) (hq : -q = m * 2 ^ e) :
    Fits q (.finite .negative m e hc.pos) := by
  refine .finite .negative hc ?_
  show q = ((-(m : ℤ) : ℤ) : ℚ) * 2 ^ e
  rw [Int.cast_neg, Int.cast_natCast, neg_mul, ← hq, neg_neg]

/-- A number is zero, positive or negative as what it stands for. -/
theorem Fits.cases (h : Fits q u) :
    (q = 0 ∧ ∃ s, u = .zero s) ∨
    (0 < q ∧ ∃ m e, ∃ hc : Canonical m e, u = .finite .positive m e hc.pos ∧ q = m * 2 ^ e) ∨
    (q < 0 ∧ ∃ m e, ∃ hc : Canonical m e, u = .finite .negative m e hc.pos ∧ -q = m * 2 ^ e) := by
  cases h with
  | zero s hq => exact .inl ⟨hq, s, rfl⟩
  | @finite m e s hc hq =>
    have hPos : (0 : ℚ) < m * 2 ^ e := mul_pos (Nat.cast_pos.mpr hc.pos) (two_zpow_pos e)
    cases s with
    | positive =>
      have hq : q = ((m : ℤ) : ℚ) * 2 ^ e := hq
      rw [Int.cast_natCast] at hq
      exact .inr (.inl ⟨hq ▸ hPos, m, e, hc, rfl, hq⟩)
    | negative =>
      have hq : q = ((-(m : ℤ) : ℤ) : ℚ) * 2 ^ e := hq
      rw [Int.cast_neg, Int.cast_natCast, neg_mul] at hq
      exact .inr (.inr ⟨by linarith, m, e, hc, rfl, by linarith⟩)

theorem fits_of_exactValue (h : exactValue? x = some q) : Fits q x.toModel.unpack := by
  rw [exactValue?] at h
  cases hu : x.toModel.unpack with
  | infinity s => rw [hu] at h; cases h
  | notANumber => rw [hu] at h; cases h
  | zero s =>
    rw [hu] at h
    exact .zero s (Option.some.inj h).symm
  | finite s m e hPos =>
    rw [hu] at h
    exact .finite s (toBitVec_of_unpack hu).1 (Option.some.inj h).symm

theorem finite_congr {s s' : Sign} {m m' : Nat} {e e' : Int} {h : 0 < m} {h' : 0 < m'}
    (hs : s = s') (hm : m = m') (he : e = e') :
    UnpackedFloat.finite s m e h = .finite s' m' e' h' := by
  subst hs hm he
  rfl

theorem unpackSign_packComponents (s : Sign) (exponent : BitVec 11) (mantissa : BitVec 52) :
    Sign.ofBitVec (@unpackSign .binary64 (packComponents .binary64 s exponent mantissa)) = s := by
  have hBit : @unpackSign .binary64 (packComponents .binary64 s exponent mantissa) =
      s.toBitVec := by
    apply BitVec.eq_of_getLsbD_eq
    intro i hi
    show ((s.toBitVec ++ exponent ++ mantissa).extractLsb 63 63).getLsbD i = _
    have hZero : i = 0 := by omega
    subst hZero
    simp only [BitVec.getLsbD_append, BitVec.getLsbD_extractLsb]
    grind
  rw [hBit]
  cases s <;> rfl

theorem unpack_components (s : Sign) {exponent : BitVec 11} {mantissa : BitVec 52}
    (hTop : exponent ≠ -1#11) (hBottom : exponent ≠ 0#11) (hPos : 0 < m)
    (hm : 2 ^ 52 + mantissa.toNat = m) (he : (exponent.toNat : Int) - 1075 = e) :
    unpack .binary64 (packComponents .binary64 s exponent mantissa) = .finite s m e hPos := by
  have hExponent : @unpackExponent .binary64 (packComponents .binary64 s exponent mantissa) =
      exponent := unpackExponent_packComponents
  have hMantissa : @unpackMantissa .binary64 (packComponents .binary64 s exponent mantissa) =
      mantissa := unpackMantissa_packComponents
  have hTop : @unpackExponent .binary64 (packComponents .binary64 s exponent mantissa) ≠ -1#11 := by
    rw [hExponent]
    exact hTop
  have hBottom :
      @unpackExponent .binary64 (packComponents .binary64 s exponent mantissa) ≠ 0#11 := by
    rw [hExponent]
    exact hBottom
  rw [unpack_eq, if_neg hTop, if_neg hBottom]
  refine finite_congr (unpackSign_packComponents s exponent mantissa) ?_ ?_
  · rw [toNat_implicit, hMantissa, hm]
  · rw [hExponent, he]

theorem unpack_subnormal (s : Sign) {mantissa : BitVec 52} (hPos : 0 < m)
    (hm : mantissa.toNat = m) (he : e = -1074) :
    unpack .binary64 (packComponents .binary64 s 0#11 mantissa) = .finite s m e hPos := by
  have hExponent : @unpackExponent .binary64 (packComponents .binary64 s 0#11 mantissa) = 0#11 :=
    unpackExponent_packComponents
  have hMantissa : @unpackMantissa .binary64 (packComponents .binary64 s 0#11 mantissa) =
      mantissa := unpackMantissa_packComponents
  have hTop : @unpackExponent .binary64 (packComponents .binary64 s 0#11 mantissa) ≠ -1#11 := by
    rw [hExponent]
    decide
  have hNonzero : @unpackMantissa .binary64 (packComponents .binary64 s 0#11 mantissa) ≠ 0#52 := by
    rw [hMantissa]
    rintro rfl
    exact hPos.ne hm
  rw [unpack_eq, if_neg hTop, if_pos hExponent, dif_neg hNonzero]
  refine finite_congr (unpackSign_packComponents s 0#11 mantissa) ?_ ?_
  · rw [hMantissa, hm]
  · rw [hExponent, he]
    rfl

/-- What is packed is unpacked as it was. -/
theorem Canonical.unpack_pack (h : Canonical m e) (s : Sign) :
    (Float.Model.pack (.finite s m e h.pos)).unpack = .finite s m e h.pos := by
  have hLeast := h.least
  have hGreatest := h.greatest
  have hBelow := h.below
  have hPack := pack_finite s m e h.pos
  rw [if_neg (by omega)] at hPack
  show unpack .binary64 (pack .binary64 (.finite s m e h.pos)) = _
  -- A pattern leaves out the leading bit of a full mantissa; any other has the least exponent.
  by_cases hFull : 2 ^ 52 ≤ m
  · have hLog : m.log2 + 1 = 53 := by
      rw [(Nat.log2_eq_iff (k := 52) h.pos.ne').mpr ⟨hFull, hBelow⟩]
    rw [if_pos hLog] at hPack
    have hExponent : (BitVec.ofNat 11 (e + 1023 + 52).toNat).toNat = (e + 1075).toNat := by
      rw [BitVec.toNat_ofNat, Nat.mod_eq_of_lt (by omega)]
      omega
    rw [hPack]
    apply unpack_components
    · intro hTop
      rw [hTop] at hExponent
      have hTop : 2047 = (e + 1075).toNat := hExponent
      omega
    · intro hBottom
      rw [hBottom] at hExponent
      have hBottom : 0 = (e + 1075).toNat := hExponent
      omega
    · rw [BitVec.toNat_ofNat]
      omega
    · rw [hExponent]
      omega
  · have hLog : ¬ m.log2 + 1 = 53 := by
      have hShort := (Nat.log2_lt h.pos.ne').mpr (Nat.not_le.mp hFull)
      omega
    rw [if_neg hLog] at hPack
    rw [hPack]
    apply unpack_subnormal
    · rw [BitVec.toNat_ofNat, Nat.mod_eq_of_lt (Nat.not_le.mp hFull)]
    · exact h.full.resolve_right hFull

theorem Fits.unpack_pack (h : Fits q u) : (Float.Model.pack u).unpack = u := by
  cases h with
  | zero s hq => cases s <;> rfl
  | finite s hc hq => exact hc.unpack_pack s

theorem Fits.unpackedValue?_eq (h : Fits q u) : unpackedValue? u = some q := by
  cases h with
  | zero s hq => exact congrArg some hq.symm
  | finite s hc hq => exact congrArg some hq.symm

theorem Fits.exactValue?_pack (h : Fits q u) :
    exactValue? (.ofModel (Float.Model.pack u)) = some q := by
  show unpackedValue? (Float.Model.pack u).unpack = some q
  rw [h.unpack_pack, h.unpackedValue?_eq]

/-- Of two ways to write a number, the one with the smaller exponent has the more bits. -/
theorem exists_shift {M : Nat} {E : Int} (hValue : (M : ℚ) * 2 ^ E = m * 2 ^ e) (hLe : E ≤ e) :
    ∃ k : Nat, E = e - k ∧ M = m * 2 ^ k := by
  obtain ⟨k, hk⟩ : ∃ k : Nat, e = E + k := ⟨(e - E).toNat, by omega⟩
  refine ⟨k, by omega, ?_⟩
  have hTwo : (2 : ℚ) ^ E ≠ 0 := zpow_ne_zero E two_ne_zero
  rw [hk, zpow_add₀ two_ne_zero, zpow_natCast, mul_left_comm, mul_comm] at hValue
  exact_mod_cast mul_left_cancel₀ hTwo hValue

theorem Canonical.roundWithAccuracy_of_value (h : Canonical m e) (s : Sign) {M : Nat} {E : Int}
    (hValue : (M : ℚ) * 2 ^ E = m * 2 ^ e) (hLe : E ≤ e) :
    roundWithAccuracy .binary64 s M E .exact = .finite s m e h.pos := by
  obtain ⟨k, rfl, rfl⟩ := exists_shift hValue hLe
  exact h.roundWithAccuracy_eq s k

theorem totalExponent_eq_of_value {M : Nat} {E : Int} (hM : 0 < M) (hm : 0 < m)
    (hValue : (M : ℚ) * 2 ^ E = m * 2 ^ e) : totalExponent M E = totalExponent m e := by
  show (M.log2 : Int) + 1 + E = (m.log2 : Int) + 1 + e
  rcases Int.le_total E e with hLe | hLe
  · obtain ⟨k, rfl, rfl⟩ := exists_shift hValue hLe
    rw [log2_mul_two_pow hm]
    omega
  · obtain ⟨k, rfl, rfl⟩ := exists_shift hValue.symm hLe
    rw [log2_mul_two_pow hM]
    omega

theorem decreaseExponent_value (m : Nat) (e target : Int) :
    ((decreaseExponent m e target).1 : ℚ) * 2 ^ (decreaseExponent m e target).2 = m * 2 ^ e := by
  show ((m <<< (e - target).toNat : Nat) : ℚ) * 2 ^ (e - ((e - target).toNat : Int)) = _
  rw [Nat.shiftLeft_eq, Nat.cast_mul, Nat.cast_pow, Nat.cast_two, mul_assoc, ← zpow_natCast,
    ← zpow_add₀ two_ne_zero, add_sub_cancel]

theorem Canonical.round_of_value (h : Canonical m e) (s : Sign) {M : Nat} {E : Int}
    (hM : 0 < M) (hValue : (M : ℚ) * 2 ^ E = m * 2 ^ e) :
    UnpackedFloat.round .binary64 s M E = .finite s m e h.pos := by
  have hTarget : Format.binary64.targetExponent (totalExponent M E) = e := by
    rw [totalExponent_eq_of_value hM h.pos hValue]
    exact h.target_eq
  have hRound : ∀ target, target = e → roundWithAccuracy .binary64 s
      (decreaseExponent M E target).1 (decreaseExponent M E target).2 .exact =
        .finite s m e h.pos := by
    rintro target rfl
    apply h.roundWithAccuracy_of_value s ((decreaseExponent_value M E target).trans hValue)
    show E - ((E - target).toNat : Int) ≤ target
    omega
  exact hRound _ hTarget

theorem normalize_of_pos {M : Int} (hM : 0 < M) (E : Int) (zeroSign : Sign) :
    UnpackedFloat.normalize .binary64 M E zeroSign =
      UnpackedFloat.round .binary64 .positive M.toNat E := by
  have hCompare : compare M 0 = .gt := compare_gt_iff_gt.mpr hM
  delta UnpackedFloat.normalize
  rw [hCompare]

theorem normalize_of_neg {M : Int} (hM : M < 0) (E : Int) (zeroSign : Sign) :
    UnpackedFloat.normalize .binary64 M E zeroSign =
      UnpackedFloat.round .binary64 .negative (-M).toNat E := by
  have hCompare : compare M 0 = .lt := compare_lt_iff_lt.mpr hM
  delta UnpackedFloat.normalize
  rw [hCompare]

/-- Rounding finds the number that stands for the exact result. -/
theorem Fits.normalize (h : Fits q u) {M : Int} {E : Int} (hValue : (M : ℚ) * 2 ^ E = q)
    (zeroSign : Sign) : Fits q (UnpackedFloat.normalize .binary64 M E zeroSign) := by
  have hTwo := two_zpow_pos E
  rcases h.cases with ⟨hq, s, rfl⟩ | ⟨hq, m, e, hc, rfl, hFits⟩ | ⟨hq, m, e, hc, rfl, hFits⟩
  · have hM : M = 0 := by
      rw [hq] at hValue
      exact_mod_cast (mul_eq_zero.mp hValue).resolve_right hTwo.ne'
    subst hM
    exact .zero zeroSign hq
  · have hM : 0 < M := by
      rw [← hValue] at hq
      exact Int.cast_pos.mp (pos_of_mul_pos_left hq hTwo.le)
    have hNat : (M.toNat : ℚ) = M := by exact_mod_cast Int.toNat_of_nonneg hM.le
    rw [normalize_of_pos hM, hc.round_of_value .positive (by omega)
      (hNat.symm ▸ hValue.trans hFits)]
    exact .positive hc hFits
  · have hM : M < 0 := by
      rw [← hValue] at hq
      exact Int.cast_lt_zero.mp (neg_of_mul_neg_left hq hTwo.le)
    have hNat : ((-M).toNat : ℚ) = -M := by exact_mod_cast Int.toNat_of_nonneg (by omega)
    have hMagnitude : ((-M).toNat : ℚ) * 2 ^ E = m * 2 ^ e := by
      rw [hNat, neg_mul, hValue, hFits]
    rw [normalize_of_neg hM, hc.round_of_value .negative (by omega) hMagnitude]
    exact .negative hc hFits

end SyntaxDrawing.Decimal
