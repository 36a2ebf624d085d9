import Mathlib.Tactic.Positivity
import SyntaxDrawing.Decimal.Binary

/-!
# Numbers that are not rounded

A finite number is `m · 2 ^ e`. `Canonical` says which pairs a bit pattern can hold, and rounding
leaves such a number as it is.
-/

namespace SyntaxDrawing.Decimal

open Float.Model Float.Model.UnpackedFloat

variable {m k : Nat} {e : Int}

/-- `m` has as many bits as the least exponent allows. -/
structure Canonical (m : Nat) (e : Int) : Prop where
  pos : 0 < m
  below : m < 2 ^ 53
  least : -1074 ≤ e
  greatest : e ≤ 971
  full : e = -1074 ∨ 2 ^ 52 ≤ m

theorem packComponents_fields (b : BitVec 64) :
    packComponents .binary64 (Sign.ofBitVec (@unpackSign .binary64 b))
      (@unpackExponent .binary64 b) (@unpackMantissa .binary64 b) = b := by
  have hSign (s : BitVec 1) : (Sign.ofBitVec s).toBitVec = s := by
    revert s; decide
  apply BitVec.eq_of_getLsbD_eq
  intro i hi
  show ((Sign.ofBitVec (@unpackSign .binary64 b)).toBitVec ++ @unpackExponent .binary64 b ++
    @unpackMantissa .binary64 b).getLsbD i = _
  rw [hSign]
  show (b.extractLsb 63 63 ++ b.extractLsb 62 52 ++ b.extractLsb 51 0 : BitVec 64).getLsbD i = _
  simp only [BitVec.getLsbD_append, BitVec.getLsbD_extractLsb]
  grind

theorem pack_finite (s : Sign) (m : Nat) (e : Int) (hPos : 0 < m) :
    pack .binary64 (.finite s m e hPos) =
      if 2048 ≤ (e + 1023 + 52).toNat + 1 then packedInfinity .binary64 s
      else if m.log2 + 1 = 53 then
        packComponents .binary64 s (BitVec.ofNat 11 (e + 1023 + 52).toNat) (BitVec.ofNat 52 m)
      else packComponents .binary64 s 0#11 (BitVec.ofNat 52 m) := rfl

theorem toNat_implicit (mantissa : BitVec 52) :
    (1#1 ++ mantissa).toNat = 2 ^ 52 + mantissa.toNat := by
  rw [BitVec.toNat_append, ← Nat.shiftLeft_add_eq_or_of_lt mantissa.isLt]
  rfl

theorem implicit_pos (mantissa : BitVec 52) : 0 < (1#1 ++ mantissa).toNat := by
  have := toNat_implicit mantissa
  omega

theorem unpack_eq (b : BitVec 64) :
    unpack .binary64 b =
      if @unpackExponent .binary64 b = -1#11 then
        if @unpackMantissa .binary64 b = 0#52 then .infinity (.ofBitVec (@unpackSign .binary64 b))
        else .notANumber
      else if @unpackExponent .binary64 b = 0#11 then
        if h : @unpackMantissa .binary64 b = 0#52 then .zero (.ofBitVec (@unpackSign .binary64 b))
        else .finite (.ofBitVec (@unpackSign .binary64 b)) (@unpackMantissa .binary64 b).toNat
          (((@unpackExponent .binary64 b).toNat : Int) - 1075 + 1)
          (by simpa [BitVec.toNat_pos, BitVec.pos_iff_ne_zero] using h)
      else .finite (.ofBitVec (@unpackSign .binary64 b)) (1#1 ++ @unpackMantissa .binary64 b).toNat
        (((@unpackExponent .binary64 b).toNat : Int) - 1075) (implicit_pos _) := rfl

theorem toBitVec_of_unpack {s : Sign} {b : BitVec 64} {hPos : 0 < m}
    (h : unpack .binary64 b = .finite s m e hPos) :
    Canonical m e ∧ pack .binary64 (.finite s m e hPos) = b := by
  have hSplit := packComponents_fields b
  rw [unpack_eq] at h
  generalize Sign.ofBitVec (@unpackSign .binary64 b) = sign at *
  generalize (@unpackExponent .binary64 b : BitVec 11) = exponent at *
  generalize (@unpackMantissa .binary64 b : BitVec 52) = mantissa at *
  have hM : mantissa.toNat < 2 ^ 52 := mantissa.isLt
  have hE : exponent.toNat < 2 ^ 11 := exponent.isLt
  by_cases hInf : exponent = -1#11
  · rw [if_pos hInf] at h
    by_cases hMantissa : mantissa = 0#52
    · rw [if_pos hMantissa] at h
      cases h
    · rw [if_neg hMantissa] at h
      cases h
  rw [if_neg hInf] at h
  have hTop : exponent.toNat ≠ 2047 := fun hTop => hInf (BitVec.eq_of_toNat_eq hTop)
  by_cases hZero : exponent = 0#11
  · rw [if_pos hZero] at h
    by_cases hMantissa : mantissa = 0#52
    · rw [dif_pos hMantissa] at h
      cases h
    rw [dif_neg hMantissa] at h
    cases h
    refine ⟨⟨hPos, by omega, by omega, by subst hZero; decide, .inl (by subst hZero; rfl)⟩, ?_⟩
    have hLog : ¬ mantissa.toNat.log2 + 1 = 53 := by
      have := (Nat.log2_lt hPos.ne').2 hM
      omega
    rw [pack_finite, if_neg (by subst hZero; decide), if_neg hLog, BitVec.ofNat_toNat,
      BitVec.setWidth_eq, ← hZero]
    exact hSplit
  · rw [if_neg hZero] at h
    have hBottom : exponent.toNat ≠ 0 := fun h => hZero (BitVec.eq_of_toNat_eq h)
    have hImplicit := toNat_implicit mantissa
    cases h
    refine ⟨⟨hPos, by omega, by omega, by omega, .inr (by omega)⟩, ?_⟩
    have hLog : (1#1 ++ mantissa).toNat.log2 + 1 = 53 := by
      rw [(Nat.log2_eq_iff (k := 52) hPos.ne').2 ⟨by omega, by omega⟩]
    have hBiased : ((exponent.toNat : Int) - 1075 + 1023 + 52).toNat = exponent.toNat := by omega
    have hLow : BitVec.ofNat 52 (1#1 ++ mantissa).toNat = mantissa := by
      apply BitVec.eq_of_toNat_eq
      rw [BitVec.toNat_ofNat, hImplicit]
      omega
    rw [pack_finite, if_neg (by omega), if_pos hLog, hBiased, hLow, BitVec.ofNat_toNat,
      BitVec.setWidth_eq]
    exact hSplit

theorem unpack_of_isPositive {x : Float} (h : isPositive x = true) :
    ∃ m e, ∃ hPos : 0 < m, x.toModel.unpack = .finite .positive m e hPos := by
  have hBoth : (x.toModel.unpack.isFinite && decide (0 < x)) = true := h
  simp only [Bool.and_eq_true, decide_eq_true_eq] at hBoth
  have hFinite := hBoth.1
  have hLess : UnpackedFloat.lt (Float.toModel 0).unpack x.toModel.unpack = true :=
    of_decide_eq_true hBoth.2
  have hZero : (Float.toModel 0).unpack = .zero .positive := rfl
  rw [hZero] at hLess
  cases hu : x.toModel.unpack with
  | infinity s => rw [hu] at hFinite; cases hFinite
  | notANumber => rw [hu] at hFinite; cases hFinite
  | zero s => rw [hu] at hLess; cases hLess
  | finite s m e hPos =>
    cases s with
    | negative => rw [hu] at hLess; cases hLess
    | positive => exact ⟨m, e, hPos, rfl⟩

theorem model_ext {x y : Float.Model} (h : x.toBits = y.toBits) : x = y := by
  cases x
  cases y
  cases h
  rfl

theorem exists_canonical {x : Float} (h : isPositive x = true) :
    ∃ m e, ∃ hc : Canonical m e, x.toModel = Float.Model.pack (.finite .positive m e hc.pos) := by
  obtain ⟨m, e, hPos, hUnpack⟩ := unpack_of_isPositive h
  obtain ⟨hc, hPack⟩ := toBitVec_of_unpack hUnpack
  exact ⟨m, e, hc, model_ext (UInt64.toBitVec_inj.1 hPack.symm)⟩

theorem Canonical.log2_le (h : Canonical m e) : m.log2 ≤ 52 :=
  Nat.lt_succ_iff.1 ((Nat.log2_lt h.pos.ne').2 h.below)

theorem targetExponent_eq (x : Int) :
    Format.binary64.targetExponent x = max (x - 53) (-1074) := rfl

/-- Rounding aims at the exponent that the number has. -/
theorem Canonical.target_eq (h : Canonical m e) :
    Format.binary64.targetExponent ((m.log2 : Int) + 1 + e) = e := by
  rw [targetExponent_eq]
  have hLog := h.log2_le
  have hLeast := h.least
  rcases h.full with he | hFull
  · omega
  · have := (Nat.le_log2 h.pos.ne').2 hFull
    omega

theorem shiftRight_exact (m k : Nat) :
    (⟨m * 2 ^ k, false, false⟩ : ExtendedMantissa) >>> k = ⟨m, false, false⟩ := by
  show k.repeat ExtendedMantissa.shiftRightOne _ = _
  induction k generalizing m with
  | zero => rw [Nat.pow_zero, Nat.mul_one]; rfl
  | succ k ih =>
    have hTwice : m * 2 ^ (k + 1) = m * 2 * 2 ^ k := by rw [Nat.pow_succ', Nat.mul_assoc]
    show ExtendedMantissa.shiftRightOne (k.repeat ExtendedMantissa.shiftRightOne _) = _
    rw [hTwice, ih]
    show (⟨m * 2 / 2, m * 2 % 2 != 0, false⟩ : ExtendedMantissa) = _
    rw [Nat.mul_div_cancel _ (by decide), Nat.mul_mod_left]
    rfl

theorem log2_mul_two_pow (h : 0 < m) (k : Nat) : (m * 2 ^ k).log2 = m.log2 + k := by
  have hLow := Nat.log2_self_le h.ne'
  have hHigh := @Nat.lt_log2_self m
  refine (Nat.log2_eq_iff (by positivity)).2 ⟨?_, ?_⟩
  · rw [Nat.pow_add]
    exact Nat.mul_le_mul_right _ hLow
  · rw [Nat.add_right_comm, Nat.pow_add]
    exact Nat.mul_lt_mul_of_pos_right hHigh (by positivity)

theorem Canonical.shiftToTargetExponent_eq (h : Canonical m e) (k : Nat) :
    shiftToTargetExponent .binary64 (m * 2 ^ k) (e - k) .exact = (⟨m, false, false⟩, e) := by
  let target := Format.binary64.targetExponent (totalExponent (m * 2 ^ k) (e - k))
  have hTotal : totalExponent (m * 2 ^ k) (e - k) = (m.log2 : Int) + 1 + e := by
    show ((m * 2 ^ k).log2 : Int) + 1 + (e - k) = _
    rw [log2_mul_two_pow h.pos]
    omega
  have hTarget : target = e := (congrArg Format.binary64.targetExponent hTotal).trans h.target_eq
  have hAmount : (target - (e - k)).toNat = k := by omega
  show (ExtendedMantissa.mk (m * 2 ^ k) false false >>> (target - (e - k)).toNat,
    e - k + (target - (e - k)).toNat) = _
  rw [hAmount, shiftRight_exact, Int.sub_add_cancel]

theorem roundWithAccuracy_of_shifts {s : Sign} {accuracy : Accuracy}
    {first second : ExtendedMantissa × Int}
    (h₁ : shiftToTargetExponent .binary64 m e accuracy = first)
    (h₂ : shiftToTargetExponent .binary64 first.1.roundedMantissa first.2 .exact = second)
    (hPos : 0 < second.1.mantissa) :
    roundWithAccuracy .binary64 s m e accuracy = .finite s second.1.mantissa second.2 hPos := by
  subst h₁ h₂
  exact dif_neg hPos.ne'

theorem Canonical.roundWithAccuracy_eq (h : Canonical m e) (s : Sign) (k : Nat) :
    roundWithAccuracy .binary64 s (m * 2 ^ k) (e - k) .exact = .finite s m e h.pos := by
  have hAgain := h.shiftToTargetExponent_eq 0
  rw [Nat.pow_zero, Nat.mul_one, Int.natCast_zero, Int.sub_zero] at hAgain
  exact roundWithAccuracy_of_shifts (h.shiftToTargetExponent_eq k) hAgain h.pos

theorem log2_mul_le {n : Nat} (hm : 0 < m) (hn : 0 < n) :
    (m * n).log2 ≤ m.log2 + n.log2 + 1 := by
  have hProduct : m * n < 2 ^ (m.log2 + 1 + (n.log2 + 1)) := by
    rw [Nat.pow_add]
    exact Nat.mul_lt_mul'' Nat.lt_log2_self Nat.lt_log2_self
  have := (Nat.log2_lt (Nat.mul_pos hm hn).ne').2 hProduct
  omega

end SyntaxDrawing.Decimal
