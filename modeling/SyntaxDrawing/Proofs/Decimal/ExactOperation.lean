import Mathlib.Tactic.LinearCombination
import Mathlib.Tactic.Ring
import SyntaxDrawing.Proofs.Decimal.ExactValue

/-!
# Operations without rounding

An operation whose exact result is what some number stands for returns such a number, and all
integers below `2 ^ 53` are such results.
-/

namespace SyntaxDrawing.Decimal

open Float.Model Float.Model.UnpackedFloat

variable {m k : Nat} {e : Int} {q a b : ℚ} {u v : UnpackedFloat} {x y : Float}

/-- A mantissa shifted to a smaller exponent. -/
theorem aligned_value (s : Sign) (m : Nat) {e target : Int} (h : target ≤ e) :
    ((s.apply ((m <<< (e - target).toNat : Nat) : ℤ) : ℤ) : ℚ) * 2 ^ target =
      (s.apply m : ℤ) * 2 ^ e := by
  have hValue := decreaseExponent_value m e target
  have hExponent : (decreaseExponent m e target).2 = target := by
    show e - ((e - target).toNat : Int) = target
    omega
  rw [hExponent] at hValue
  have hValue : ((m <<< (e - target).toNat : Nat) : ℚ) * 2 ^ target = m * 2 ^ e := hValue
  cases s with
  | positive => exact_mod_cast hValue
  | negative =>
    show ((-((m <<< (e - target).toNat : Nat) : ℤ) : ℤ) : ℚ) * 2 ^ target =
      ((-(m : ℤ) : ℤ) : ℚ) * 2 ^ e
    rw [Int.cast_neg, Int.cast_neg, neg_mul, neg_mul]
    exact_mod_cast congrArg Neg.neg hValue

theorem Fits.add (hu : Fits a u) (hv : Fits b v) (h : Representable (a + b)) :
    Fits (a + b) (UnpackedFloat.add .binary64 u v) := by
  obtain ⟨w, hw⟩ := h
  cases hu with
  | zero s ha =>
    subst ha
    cases hv with
    | zero s' hb =>
      subst hb
      have hZero : ∃ t, UnpackedFloat.add .binary64 (.zero s) (.zero s') = .zero t := by
        cases s <;> cases s' <;> exact ⟨_, rfl⟩
      obtain ⟨t, ht⟩ := hZero
      exact ht ▸ .zero t (add_zero 0)
    | finite s' hc hb => exact .finite s' hc (by rw [zero_add, hb])
  | @finite m e s hc ha =>
    cases hv with
    | zero s' hb => exact .finite s hc (by rw [hb, add_zero, ha])
    | @finite m' e' s' hc' hb =>
      apply hw.normalize
      rw [Int.cast_add, add_mul, aligned_value s m (min_le_left e e'),
        aligned_value s' m' (min_le_right e e'), ha, hb]

theorem apply_neg (s : Sign) (k : Int) : (-s).apply k = -s.apply k := by
  cases s with
  | positive => rfl
  | negative => exact (neg_neg k).symm

theorem Fits.neg (h : Fits q u) : Fits (-q) u.neg := by
  cases h with
  | zero s hq => exact .zero (-s) (by rw [hq, neg_zero])
  | finite s hc hq => exact .finite (-s) hc (by rw [hq, apply_neg, Int.cast_neg, neg_mul])

theorem Representable.neg (h : Representable q) : Representable (-q) := by
  obtain ⟨u, hu⟩ := h
  exact ⟨u.neg, hu.neg⟩

theorem sub_eq_add (u v : UnpackedFloat) :
    UnpackedFloat.sub .binary64 u v = UnpackedFloat.add .binary64 u v.neg := by
  cases u with
  | finite s m e hPos =>
    cases v with
    | finite s' m' e' hPos' =>
      have hDifference : ∀ k l : Int, s.apply k - s'.apply l = s.apply k + (-s').apply l := by
        intro k l
        rw [apply_neg, sub_eq_add_neg]
      exact congrArg (fun k => UnpackedFloat.normalize .binary64 k (min e e') .positive)
        (hDifference _ _)
    | _ => rfl
  | _ => cases v <;> rfl

theorem Fits.sub (hu : Fits a u) (hv : Fits b v) (h : Representable (a - b)) :
    Fits (a - b) (UnpackedFloat.sub .binary64 u v) := by
  rw [sub_eq_add_neg] at h ⊢
  rw [sub_eq_add]
  exact hu.add hv.neg h

/-- The value of a sign and a magnitude. -/
theorem apply_eq_mul (s : Sign) (m : Nat) : ((s.apply m : ℤ) : ℚ) = (s.apply 1 : ℤ) * m := by
  cases s with
  | positive =>
    show (((m : ℕ) : ℤ) : ℚ) = ((1 : ℤ) : ℚ) * m
    simp
  | negative =>
    show ((-((m : ℕ) : ℤ) : ℤ) : ℚ) = ((-1 : ℤ) : ℚ) * m
    simp

theorem Fits.exists_canonical (h : Fits q u) {s : Sign} {w : ℚ} (hw : 0 < w)
    (hq : q = (s.apply 1 : ℤ) * w) :
    ∃ m e, ∃ hc : Canonical m e, w = m * 2 ^ e ∧ Fits q (.finite s m e hc.pos) := by
  cases s with
  | positive =>
    have hq : q = ((1 : ℤ) : ℚ) * w := hq
    rw [Int.cast_one, one_mul] at hq
    rcases h.cases with ⟨hZero, _⟩ | ⟨_, m, e, hc, _, hFits⟩ | ⟨hNegative, _⟩
    · exact absurd (hq.symm.trans hZero) hw.ne'
    · exact ⟨m, e, hc, hq.symm.trans hFits, .positive hc hFits⟩
    · exact absurd (hq ▸ hNegative) hw.not_gt
  | negative =>
    have hq : q = ((-1 : ℤ) : ℚ) * w := hq
    rw [Int.cast_neg, Int.cast_one, neg_one_mul] at hq
    rcases h.cases with ⟨hZero, _⟩ | ⟨hPositive, _⟩ | ⟨_, m, e, hc, _, hFits⟩
    · linarith
    · linarith
    · exact ⟨m, e, hc, by linarith, .negative hc hFits⟩

/-- A product that is a number has no fewer bits than its factors. -/
theorem exponent_le_of_product {m' : Nat} {e' E : Int} {M : Nat} (hc : Canonical m e)
    (hc' : Canonical m' e') (hC : Canonical M E)
    (hValue : ((m * m' : Nat) : ℚ) * 2 ^ (e + e') = M * 2 ^ E) : e + e' ≤ E := by
  by_contra hLess
  obtain ⟨k, hk, hM⟩ := exists_shift hValue.symm (by omega)
  have hPos := hc.pos
  have hPos' := hc'.pos
  have hLeast := hC.least
  have hBelow := hC.below
  have hTwo : 2 ≤ 2 ^ k := Nat.le_self_pow (by omega) 2
  -- Only two factors of the least exponent can both be short, and `E` is not below it.
  have hLarge : 2 ^ 52 ≤ m * m' := by
    rcases hc.full with he | hFull
    · rcases hc'.full with he' | hFull'
      · omega
      · exact hFull'.trans (Nat.le_mul_of_pos_left m' hPos)
    · exact hFull.trans (Nat.le_mul_of_pos_right m hPos')
  have hTooLarge := Nat.mul_le_mul hLarge hTwo
  omega

theorem Fits.mul (hu : Fits a u) (hv : Fits b v) (h : Representable (a * b)) :
    Fits (a * b) (UnpackedFloat.mul .binary64 u v) := by
  obtain ⟨w, hw⟩ := h
  cases hu with
  | zero s ha =>
    subst ha
    cases hv with
    | zero s' hb => exact .zero (s * s') (zero_mul b)
    | finite s' hc hb => exact .zero (s * s') (zero_mul b)
  | @finite m e s hc ha =>
    cases hv with
    | zero s' hb => exact .zero (s * s') (by rw [hb, mul_zero])
    | @finite m' e' s' hc' hb =>
      have hSign : (s * s').apply 1 = s.apply 1 * s'.apply 1 := by
        cases s <;> cases s' <;> rfl
      have hProduct : a * b = ((s * s').apply 1 : ℤ) * (((m * m' : Nat) : ℚ) * 2 ^ (e + e')) := by
        rw [ha, hb, apply_eq_mul s m, apply_eq_mul s' m', hSign, zpow_add₀ two_ne_zero]
        push_cast
        ring
      have hPos : (0 : ℚ) < ((m * m' : Nat) : ℚ) * 2 ^ (e + e') :=
        mul_pos (Nat.cast_pos.mpr (Nat.mul_pos hc.pos hc'.pos)) (two_zpow_pos _)
      obtain ⟨M, E, hC, hValue, hFits⟩ := hw.exists_canonical hPos hProduct
      have hRound := hC.roundWithAccuracy_of_value (s * s') hValue
        (exponent_le_of_product hc hc' hC hValue)
      show Fits (a * b) (roundWithAccuracy .binary64 (s * s') (m * m') (e + e') .exact)
      rw [hRound]
      exact hFits

/-- The quotient has bits to spare, and none of them is lost. -/
theorem Canonical.divCore_of_value (h : Canonical m e) {m₁ m₂ : Nat} {e₁ e₂ : Int}
    (h₁ : 0 < m₁) (h₂ : 0 < m₂) (hValue : (m₁ : ℚ) * 2 ^ e₁ = m * 2 ^ e * (m₂ * 2 ^ e₂)) :
    ∃ k : Nat, divCore .binary64 m₁ e₁ m₂ e₂ = (m * 2 ^ k, e - k, .exact) := by
  have hProduct : (m₁ : ℚ) * 2 ^ e₁ = ((m * m₂ : Nat) : ℚ) * 2 ^ (e + e₂) := by
    rw [hValue, zpow_add₀ two_ne_zero, Nat.cast_mul]
    ring
  obtain ⟨t, ht⟩ : ∃ t, t = min (e₁ - e₂) (Format.binary64.targetExponent
    (totalExponent m₁ e₁ - totalExponent m₂ e₂)) := ⟨_, rfl⟩
  have hCore : divCore .binary64 m₁ e₁ m₂ e₂ = (m₁ <<< (e₁ - e₂ - t).toNat / m₂, t,
      accuracyOfFraction (m₁ <<< (e₁ - e₂ - t).toNat % m₂) m₂) := by
    rw [ht]
    rfl
  -- The quotient is cut at `t`, which is never above `e`.
  have hCut : t ≤ e := by
    have hTarget := h.target_eq
    have hLogs := log2_mul_le h.pos h₂
    have hDifference : totalExponent m₁ e₁ - totalExponent m₂ e₂ ≤ (m.log2 : Int) + 1 + e := by
      rw [totalExponent_eq_of_value h₁ (Nat.mul_pos h.pos h₂) hProduct]
      show ((m * m₂).log2 : Int) + 1 + (e + e₂) - ((m₂.log2 : Int) + 1 + e₂) ≤ _
      omega
    rw [targetExponent_eq] at ht hTarget
    omega
  have hShifted := decreaseExponent_value m₁ e₁ (t + e₂)
  have hShifted : ((m₁ <<< (e₁ - (t + e₂)).toNat : Nat) : ℚ) *
      2 ^ (e₁ - ((e₁ - (t + e₂)).toNat : Int)) = m₁ * 2 ^ e₁ := hShifted
  have hAmount : e₁ - (t + e₂) = e₁ - e₂ - t := by omega
  have hExponent : e₁ - ((e₁ - e₂ - t).toNat : Int) = t + e₂ := by omega
  rw [hAmount, hExponent, hProduct] at hShifted
  obtain ⟨k, hk, hNumerator⟩ := exists_shift hShifted (by omega)
  refine ⟨k, ?_⟩
  have hWhole : m₁ <<< (e₁ - e₂ - t).toNat = m * 2 ^ k * m₂ := by
    rw [hNumerator]
    ring
  have ht : t = e - k := by omega
  rw [hCore, hWhole, Nat.mul_div_cancel _ h₂, Nat.mul_mod_left, ht]
  rfl

/-- A quotient that is a number is not rounded. -/
theorem Canonical.div_of_value (h : Canonical m e) (s s' : Sign) {m₁ m₂ : Nat} {e₁ e₂ : Int}
    (h₁ : 0 < m₁) (h₂ : 0 < m₂) (hValue : (m₁ : ℚ) * 2 ^ e₁ = m * 2 ^ e * (m₂ * 2 ^ e₂)) :
    UnpackedFloat.div .binary64 (.finite s m₁ e₁ h₁) (.finite s' m₂ e₂ h₂) =
      .finite (s / s') m e h.pos := by
  obtain ⟨k, hCore⟩ := h.divCore_of_value h₁ h₂ hValue
  have hRounded (q : Nat × Int × Accuracy) (hq : q = (m * 2 ^ k, e - k, .exact)) :
      roundWithAccuracy .binary64 (s / s') q.1 q.2.1 q.2.2 = .finite (s / s') m e h.pos := by
    rw [hq]
    exact h.roundWithAccuracy_eq (s / s') k
  exact hRounded (divCore .binary64 m₁ e₁ m₂ e₂) hCore

theorem Fits.div (hu : Fits a u) (hv : Fits b v) (hb : b ≠ 0) (h : Representable (a / b)) :
    Fits (a / b) (UnpackedFloat.div .binary64 u v) := by
  obtain ⟨w, hw⟩ := h
  cases hv with
  | zero s' hZero => exact absurd hZero hb
  | @finite m' e' s' hc' hb' =>
    cases hu with
    | zero s ha => exact .zero (s / s') (by rw [ha, zero_div])
    | @finite m e s hc ha =>
      have hSign : s.apply 1 = (s / s').apply 1 * s'.apply 1 := by
        cases s <;> cases s' <;> rfl
      have hDivisor : (m' : ℚ) * 2 ^ e' ≠ 0 :=
        (mul_pos (Nat.cast_pos.mpr hc'.pos) (two_zpow_pos e')).ne'
      have hQuotient : a / b = ((s / s').apply 1 : ℤ) * (m * 2 ^ e / (m' * 2 ^ e')) := by
        have hNumerator := div_mul_cancel₀ ((m : ℚ) * 2 ^ e) hDivisor
        rw [div_eq_iff hb, ha, hb', apply_eq_mul s m, apply_eq_mul s' m', hSign, Int.cast_mul]
        linear_combination (-((s / s').apply 1 * s'.apply 1 : ℚ)) * hNumerator
      have hPos : (0 : ℚ) < m * 2 ^ e / (m' * 2 ^ e') :=
        div_pos (mul_pos (Nat.cast_pos.mpr hc.pos) (two_zpow_pos e))
          (mul_pos (Nat.cast_pos.mpr hc'.pos) (two_zpow_pos e'))
      obtain ⟨M, E, hC, hValue, hFits⟩ := hw.exists_canonical hPos hQuotient
      rw [hC.div_of_value s s' hc.pos hc'.pos ((div_eq_iff hDivisor).mp hValue)]
      exact hFits

/-- Of two numbers with different exponents the one with the greater exponent is the greater. -/
theorem Canonical.value_lt {m' : Nat} {e' : Int} (h : Canonical m e) (h' : Canonical m' e')
    (hLess : e < e') : (m : ℚ) * 2 ^ e < m' * 2 ^ e' := by
  have hLeast := h.least
  have hFull : 2 ^ 52 ≤ m' := h'.full.resolve_left (by omega)
  calc (m : ℚ) * 2 ^ e < 2 ^ 53 * 2 ^ e :=
        mul_lt_mul_of_pos_right (by exact_mod_cast h.below) (two_zpow_pos e)
    _ = 2 ^ 52 * 2 ^ (e + 1) := by
        rw [zpow_add_one₀ two_ne_zero]
        ring
    _ ≤ m' * 2 ^ e' := by
        have hPower : (2 : ℚ) ^ (e + 1) ≤ 2 ^ e' := zpow_le_zpow_right₀ one_le_two hLess
        exact mul_le_mul (by exact_mod_cast hFull) hPower (two_zpow_pos _).le (Nat.cast_nonneg m')

theorem Canonical.compare_eq_lt_iff {m' : Nat} {e' : Int} (h : Canonical m e)
    (h' : Canonical m' e') :
    (compare e e').then (compare m m') = .lt ↔ (m : ℚ) * 2 ^ e < m' * 2 ^ e' := by
  rw [Ordering.then_eq_lt, compare_lt_iff_lt, compare_eq_iff_eq, compare_lt_iff_lt]
  rcases lt_trichotomy e e' with hLess | rfl | hGreater
  · exact iff_of_true (.inl hLess) (h.value_lt h' hLess)
  · rw [mul_lt_mul_iff_left₀ (two_zpow_pos e), Nat.cast_lt]
    simp
  · exact iff_of_false (by omega) (h'.value_lt h hGreater).not_gt

/-- Numbers are compared as what they stand for. -/
theorem Fits.lt_iff (hu : Fits a u) (hv : Fits b v) :
    UnpackedFloat.lt u v = true ↔ a < b := by
  rcases hu.cases with ⟨rfl, s, rfl⟩ | ⟨ha, m, e, hc, rfl, hq⟩ | ⟨ha, m, e, hc, rfl, hq⟩
  · rcases hv.cases with ⟨rfl, s', rfl⟩ | ⟨hb, m', e', hc', rfl, hq'⟩ | ⟨hb, m', e', hc', rfl, hq'⟩
    · exact iff_of_false (by cases s <;> cases s' <;> exact Bool.false_ne_true) (lt_irrefl 0)
    · exact iff_of_true (by cases s <;> rfl) hb
    · exact iff_of_false (by cases s <;> exact Bool.false_ne_true) hb.not_gt
  · rcases hv.cases with ⟨rfl, s', rfl⟩ | ⟨hb, m', e', hc', rfl, hq'⟩ | ⟨hb, m', e', hc', rfl, hq'⟩
    · exact iff_of_false (by cases s' <;> exact Bool.false_ne_true) ha.not_gt
    · show (some ((compare e e').then (compare m m')) == some .lt) = true ↔ a < b
      rw [beq_iff_eq, Option.some.injEq, hc.compare_eq_lt_iff hc', hq, hq']
    · exact iff_of_false Bool.false_ne_true (hb.trans ha).not_gt
  · rcases hv.cases with ⟨rfl, s', rfl⟩ | ⟨hb, m', e', hc', rfl, hq'⟩ | ⟨hb, m', e', hc', rfl, hq'⟩
    · exact iff_of_true (by cases s' <;> rfl) ha
    · exact iff_of_true rfl (ha.trans hb)
    · show (some ((compare e e').then (compare m m')).swap == some .lt) = true ↔ a < b
      rw [beq_iff_eq, Option.some.injEq, Ordering.swap_then, Int.compare_swap, Nat.compare_swap,
        hc'.compare_eq_lt_iff hc, ← hq, ← hq', neg_lt_neg_iff]

theorem representable_natCast {k : Nat} (h : k < 2 ^ 53) : Representable (k : ℚ) := by
  rcases Nat.eq_zero_or_pos k with rfl | hPos
  · exact ⟨.zero .positive, .zero .positive Nat.cast_zero⟩
  have hLog := (Nat.log2_lt hPos.ne').mpr h
  obtain ⟨j, hj⟩ : ∃ j, k.log2 + j = 52 := ⟨52 - k.log2, by omega⟩
  have hFull : (k * 2 ^ j).log2 = 52 := (log2_mul_two_pow hPos j).trans hj
  have hProduct : 0 < k * 2 ^ j := Nat.mul_pos hPos (Nat.two_pow_pos j)
  obtain ⟨hLow, hHigh⟩ := (Nat.log2_eq_iff hProduct.ne').mp hFull
  have hc : Canonical (k * 2 ^ j) (-(j : Int)) :=
    ⟨hProduct, hHigh, by omega, by omega, .inr hLow⟩
  refine ⟨_, .positive hc ?_⟩
  rw [Nat.cast_mul, Nat.cast_pow, Nat.cast_two, mul_assoc, ← zpow_natCast, ← zpow_add₀ two_ne_zero,
    add_neg_cancel, zpow_zero, mul_one]

theorem representable_intCast {z : Int} (h : |z| < 2 ^ 53) : Representable (z : ℚ) := by
  obtain ⟨k, rfl | rfl⟩ := z.eq_nat_or_neg
  · rw [Nat.abs_cast] at h
    rw [Int.cast_natCast]
    exact representable_natCast (by exact_mod_cast h)
  · rw [abs_neg, Nat.abs_cast] at h
    rw [Int.cast_neg, Int.cast_natCast]
    exact (representable_natCast (by exact_mod_cast h)).neg

theorem exactValue?_add (hx : exactValue? x = some a) (hy : exactValue? y = some b)
    (h : Representable (a + b)) : exactValue? (x + y) = some (a + b) :=
  ((fits_of_exactValue hx).add (fits_of_exactValue hy) h).exactValue?_pack

theorem exactValue?_sub (hx : exactValue? x = some a) (hy : exactValue? y = some b)
    (h : Representable (a - b)) : exactValue? (x - y) = some (a - b) :=
  ((fits_of_exactValue hx).sub (fits_of_exactValue hy) h).exactValue?_pack

theorem exactValue?_mul (hx : exactValue? x = some a) (hy : exactValue? y = some b)
    (h : Representable (a * b)) : exactValue? (x * y) = some (a * b) :=
  ((fits_of_exactValue hx).mul (fits_of_exactValue hy) h).exactValue?_pack

theorem exactValue?_div (hx : exactValue? x = some a) (hy : exactValue? y = some b) (hb : b ≠ 0)
    (h : Representable (a / b)) : exactValue? (x / y) = some (a / b) :=
  ((fits_of_exactValue hx).div (fits_of_exactValue hy) hb h).exactValue?_pack

theorem lt_iff_of_exactValue (hx : exactValue? x = some a) (hy : exactValue? y = some b) :
    x < y ↔ a < b := by
  rw [← (fits_of_exactValue hx).lt_iff (fits_of_exactValue hy)]
  show decide (UnpackedFloat.lt x.toModel.unpack y.toModel.unpack = true) = true ↔ _
  rw [decide_eq_true_eq]

theorem isNaN_of_exactValue (hx : exactValue? x = some a) : x.isNaN = false := by
  have hFits := fits_of_exactValue hx
  show x.toModel.unpack.isNaN = false
  generalize x.toModel.unpack = u at hFits
  cases hFits <;> rfl

theorem isPositive_iff : isPositive x = true ↔ ∃ q, exactValue? x = some q ∧ 0 < q := by
  constructor
  · intro h
    obtain ⟨m, e, hc, hPack⟩ := exists_canonical h
    have hUnpack : x.toModel.unpack = .finite .positive m e hc.pos := by
      rw [hPack, hc.unpack_pack]
    refine ⟨m * 2 ^ e, ?_, mul_pos (Nat.cast_pos.mpr hc.pos) (two_zpow_pos e)⟩
    rw [exactValue?, hUnpack, (Fits.positive hc rfl).unpackedValue?_eq]
  · rintro ⟨q, hq, hPos⟩
    have hFits := fits_of_exactValue hq
    have hFinite : x.isFinite = true := by
      show x.toModel.unpack.isFinite = true
      generalize x.toModel.unpack = u at hFits
      cases hFits <;> rfl
    have hZero : exactValue? 0 = some 0 := rfl
    rw [isPositive, hFinite, Bool.true_and, decide_eq_true_eq]
    exact (lt_iff_of_exactValue hZero hq).mpr hPos

theorem exactValue?_ofNat (h : k < 2 ^ 53) : exactValue? (Float.ofNat k) = some (k : ℚ) := by
  have hBoth : k < 2 ^ 53 ∧ 0 ≤ 22 := ⟨h, by decide⟩
  have hOfNat : Float.ofNat k = k.toUInt64.toFloat * Float.ofBits 4607182418800017408 :=
    dif_pos hBoth
  have hOne : exactValue? (Float.ofBits 4607182418800017408) = some 1 := by
    have hPower : exactValue? (Float.ofBits 4607182418800017408) =
        some (((2 ^ 52 : ℤ) : ℚ) * 2 ^ (-52 : ℤ)) := rfl
    rw [hPower]
    norm_num
  have hRepresentable := representable_natCast h
  have hConverted : exactValue? k.toUInt64.toFloat = some (k : ℚ) := by
    obtain ⟨u, hu⟩ := hRepresentable
    have hWord : k.toUInt64.toNat = k := by
      show k % 2 ^ 64 = k
      exact Nat.mod_eq_of_lt (by omega)
    have hValue : ((k.toUInt64.toNat : Int) : ℚ) * 2 ^ (0 : Int) = k := by simp [hWord]
    exact (hu.normalize hValue .positive).exactValue?_pack
  rw [hOfNat, exactValue?_mul hConverted hOne (by rwa [mul_one]), mul_one]

theorem isPositive_ofNat (hPos : 0 < k) (hLess : k < 2 ^ 53) : isPositive (Float.ofNat k) = true :=
  isPositive_iff.mpr ⟨k, exactValue?_ofNat hLess, Nat.cast_pos.mpr hPos⟩

theorem exactValue?_negZero : exactValue? (-0.0) = some 0 :=
  rfl

end SyntaxDrawing.Decimal
