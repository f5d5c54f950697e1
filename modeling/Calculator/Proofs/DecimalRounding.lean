import Calculator.Arithmetic.Decimal
import Calculator.Proofs.Rounding

/-!
# The floats of decimal numbers

A decimal number is rounded to the nearest float, whatever its digits and its exponent.

* `Decimal.value`: the number itself.
* `Decimal.isNearest_toFloat`: the float of a decimal number is the nearest one.
* `Rounding.isNearest_ofScientific`: the same for a coefficient and an exponent.
* `Rounding.IsExact`: the floats that the short way computes with.

Proof. A number with few digits and a small exponent is the product or the quotient of two floats,
both exact, and that is rounded once. Any other number is the product or the quotient of a
coefficient of any length and a power of ten, and that is rounded once as well. What is left out
because of its exponent is beyond the greatest float or far below the least one.
-/

namespace Calculator

open Float.Model Float.Model.UnpackedFloat

namespace Rounding

/-! ## Very small numbers -/

section Small

variable {x : ℚ}

/-- What is less than half of the least float is rounded to zero. -/
theorem isNearest_zero (hx : 0 ≤ x) (h : x * 2 ^ (1074 : ℤ) < 1 / 2) :
    IsNearest x (.ofModel (.pack (.zero .positive))) := by
  obtain ⟨y, hy⟩ : ∃ y, y = x * 2 ^ (1074 : ℤ) := ⟨_, rfl⟩
  have hunits : x = y * 2 ^ (-1074 : ℤ) := by
    rw [hy, mul_assoc, ← zpow_add₀ two_ne_zero, add_neg_cancel, zpow_zero, mul_one]
  have hnonneg : 0 ≤ y := by rw [hy]; positivity
  rw [← hy] at h
  have hscale : OnScale y (-1074) := ⟨hnonneg, by linarith, le_rfl, .inl rfl⟩
  have hnear : IsNearestNat y 0 := .of_lt (by rwa [Nat.cast_zero, sub_zero, abs_of_nonneg hnonneg])
  have hrounded := hscale.isRounded hnear (by decide)
  rw [← hunits] at hrounded
  exact hrounded.isNearest hx

end Small

/-! ## Exact factors -/

/-- The float is a number that is not rounded, with a significand of full length. -/
def IsExact (x : Float) (q : ℚ) : Prop :=
  ∃ a j, ∃ h : IsNormal a j, (a * 2 ^ j : ℚ) = q ∧ x.toModel.unpack = .finite .positive a j h.pos

section Exact

variable {x y : Float} {p q : ℚ}

theorem IsExact.mul (hx : IsExact x p) (hy : IsExact y q) : IsNearest (p * q) (x * y) := by
  obtain ⟨a, i, ha, rfl, hx⟩ := hx
  obtain ⟨b, j, hb, rfl, hy⟩ := hy
  have hfull : 2 ^ 52 ≤ a * b := ha.le_significand.trans (Nat.le_mul_of_pos_right a hb.pos)
  show IsNearest _ (.ofModel (.pack (UnpackedFloat.mul Format.binary64 _ _)))
  rw [hx, hy]
  exact isNearest_mul ha.pos hb.pos (.inl hfull)

theorem IsExact.div (hx : IsExact x p) (hy : IsExact y q) : IsNearest (p / q) (x / y) := by
  obtain ⟨a, i, ha, rfl, hx⟩ := hx
  obtain ⟨b, j, hb, rfl, hy⟩ := hy
  show IsNearest _ (.ofModel (.pack (UnpackedFloat.div Format.binary64 _ _)))
  rw [hx, hy]
  exact isNearest_div ha.pos hb.pos

theorem isExact_toFloat {m : ℕ} (hm : m ≠ 0) (h : m < 2 ^ 53) :
    IsExact m.toUInt64.toFloat m := by
  have hnormal := ExactFloat.isNormal_mul_two_pow hm h
  refine ⟨_, _, hnormal, ?_, ?_⟩
  · rw [zpow_neg, zpow_natCast]
    push_cast
    field_simp
  · have hsign : ExactFloat.signOf m = .positive := if_neg (not_lt.2 (Int.natCast_nonneg m))
    have hparts := @ExactFloat.ofInt_eq m _ (by exact_mod_cast hm) hnormal
    rw [hsign] at hparts
    rw [ExactFloat.toFloat_toUInt64 h]
    exact (@ExactFloat.unpack_ofInt m h).trans hparts

/-- The powers of ten in the table: a power of ten is one of five with a higher exponent. -/
theorem power_eq : ∀ k : Fin 23, Float.exactlyRepresentablePowersOfTen[k] =
    .ofModel (.pack (ofParts .positive (5 ^ k.val * 2 ^ (52 - (5 ^ k.val).log2))
      (k.val - (52 - (5 ^ k.val).log2 : ℕ)))) := by
  decide

theorem isExact_power (k : Fin 23) :
    IsExact Float.exactlyRepresentablePowersOfTen[k] (10 ^ k.val) := by
  have hfive : 5 ^ k.val < 2 ^ 53 :=
    lt_of_le_of_lt (Nat.pow_le_pow_right (by decide) (Nat.le_of_lt_succ k.isLt))
      (by decide : 5 ^ 22 < _)
  have hnormal := ExactFloat.isNormal_mul_two_pow (pow_ne_zero k.val (by decide)) hfive
  have hraised : IsNormal (5 ^ k.val * 2 ^ (52 - (5 ^ k.val).log2))
      (k.val - (52 - (5 ^ k.val).log2 : ℕ)) :=
    ⟨hnormal.le_significand, hnormal.significand_lt, by omega, by omega⟩
  refine ⟨_, _, hraised, ?_, ?_⟩
  · rw [zpow_sub₀ two_ne_zero, zpow_natCast, zpow_natCast, show (10 : ℚ) = 5 * 2 by norm_num,
      mul_pow]
    push_cast
    field_simp
  · rw [power_eq, ofParts, dif_neg hraised.pos.ne']
    exact ExactFloat.unpack_pack_normal hraised .positive

/-- The product of an integer and an exact float. The integer may be zero. -/
theorem isNearest_toFloat_mul {m : ℕ} (h : m < 2 ^ 53) (hy : IsExact y q) :
    IsNearest (m * q) (m.toUInt64.toFloat * y) := by
  by_cases hm : m = 0
  · obtain ⟨b, j, hb, rfl, hy⟩ := hy
    subst hm
    rw [Nat.cast_zero, zero_mul]
    show IsNearest _ (.ofModel (.pack (UnpackedFloat.mul Format.binary64 (.zero .positive) _)))
    rw [hy]
    exact isNearest_zero le_rfl (by norm_num)
  · exact (isExact_toFloat hm h).mul hy

theorem isNearest_toFloat_div {m : ℕ} (h : m < 2 ^ 53) (hy : IsExact y q) :
    IsNearest (m / q) (m.toUInt64.toFloat / y) := by
  by_cases hm : m = 0
  · obtain ⟨b, j, hb, rfl, hy⟩ := hy
    subst hm
    rw [Nat.cast_zero, zero_div]
    show IsNearest _ (.ofModel (.pack (UnpackedFloat.div Format.binary64 (.zero .positive) _)))
    rw [hy]
    exact isNearest_zero le_rfl (by norm_num)
  · exact (isExact_toFloat hm h).div hy

end Exact

/-! ## Any factors -/

section Scientific

variable {m : ℕ} {e : ℤ}

theorem overflowBound_le (hm : m ≠ 0) (he : 1024 ≤ e) : overflowBound ≤ m * 10 ^ e := by
  have hone : (1 : ℚ) ≤ m := by exact_mod_cast Nat.one_le_iff_ne_zero.2 hm
  calc overflowBound ≤ 2 ^ 1024 := sub_le_self _ (by positivity)
    _ ≤ 10 ^ 1024 := pow_le_pow_left₀ (by norm_num) (by norm_num) _
    _ = 10 ^ (1024 : ℤ) := (zpow_natCast _ _).symm
    _ ≤ 10 ^ e := zpow_le_zpow_right₀ (by norm_num) he
    _ ≤ m * 10 ^ e := le_mul_of_one_le_left (by positivity) hone

/-- Each zero of a power of ten that divides a number takes at least one bit off it. -/
theorem mul_pow_lt (he : e ≤ -(m.log2 + 1077)) : m * 10 ^ e * 2 ^ (1074 : ℤ) < (1 / 2 : ℚ) := by
  have hbits : (m : ℚ) ≤ 2 ^ ((m.log2 + 1 : ℕ) : ℤ) := by
    rw [zpow_natCast]
    exact_mod_cast Nat.lt_log2_self.le
  have hpower : (10 : ℚ) ^ e ≤ 2 ^ (-(m.log2 + 1077) : ℤ) := by
    calc (10 : ℚ) ^ e ≤ 10 ^ (-(m.log2 + 1077) : ℤ) := zpow_le_zpow_right₀ (by norm_num) he
      _ ≤ 2 ^ (-(m.log2 + 1077) : ℤ) := by
        rw [zpow_neg, zpow_neg]
        gcongr
        · exact zpow_le_zpow_left₀ (by omega) (by norm_num) (by norm_num)
  calc m * (10 : ℚ) ^ e * 2 ^ (1074 : ℤ)
      ≤ 2 ^ ((m.log2 + 1 : ℕ) : ℤ) * 2 ^ (-(m.log2 + 1077) : ℤ) * 2 ^ (1074 : ℤ) := by gcongr
    _ = 2 ^ (-2 : ℤ) := by
      rw [← zpow_add₀ two_ne_zero, ← zpow_add₀ two_ne_zero]
      congr 1
      omega
    _ < 1 / 2 := by norm_num

/-- The coefficient is shifted, so that the product has all its bits. -/
theorem isNearest_mul_power (hm : m ≠ 0) (he : 0 ≤ e) (hpos : 0 < m <<< 53)
    (hpower : 0 < 10 ^ e.toNat) :
    IsNearest (m * 10 ^ e) (.ofModel (.pack (UnpackedFloat.mul Format.binary64
      (.finite .positive (m <<< 53) (-(53 : ℕ)) hpos)
      (.finite .positive (10 ^ e.toNat) 0 hpower)))) := by
  have hvalue : ((m <<< 53 : ℕ) * 2 ^ (-(53 : ℕ) : ℤ) * ((10 ^ e.toNat : ℕ) * 2 ^ (0 : ℤ)) : ℚ) =
      m * 10 ^ e := by
    obtain ⟨k, rfl⟩ := Int.eq_ofNat_of_zero_le he
    rw [Nat.shiftLeft_eq, zpow_neg, zpow_natCast, zpow_natCast, zpow_zero, Int.toNat_natCast,
      Nat.cast_mul, Nat.cast_pow, Nat.cast_ofNat, mul_inv_cancel_right₀ (by positivity), mul_one,
      Nat.cast_pow, Nat.cast_ofNat]
  have hfull : 2 ^ 52 ≤ m <<< 53 * 10 ^ e.toNat := by
    have hm := Nat.pos_of_ne_zero hm
    rw [Nat.shiftLeft_eq]
    calc 2 ^ 52 ≤ m * 2 ^ 53 := by omega
      _ ≤ m * 2 ^ 53 * 10 ^ e.toNat := Nat.le_mul_of_pos_right _ hpower
  rw [← hvalue]
  exact isNearest_mul _ _ (.inl hfull)

theorem isNearest_div_power (he : e < 0) (hpos : 0 < m) (hpower : 0 < 10 ^ (-e).toNat) :
    IsNearest (m * 10 ^ e) (.ofModel (.pack (UnpackedFloat.div Format.binary64
      (.finite .positive m 0 hpos) (.finite .positive (10 ^ (-e).toNat) 0 hpower)))) := by
  have hvalue : (m * 2 ^ (0 : ℤ) / ((10 ^ (-e).toNat : ℕ) * 2 ^ (0 : ℤ)) : ℚ) = m * 10 ^ e := by
    obtain ⟨k, hk⟩ := Int.eq_ofNat_of_zero_le (neg_nonneg.2 he.le)
    rw [hk, Int.toNat_natCast, ← neg_neg e, hk, zpow_neg, zpow_natCast, zpow_zero, mul_one, mul_one,
      Nat.cast_pow, Nat.cast_ofNat, div_eq_mul_inv]
  rw [← hvalue]
  exact isNearest_div _ _

/-- A decimal number is rounded correctly, whatever its digits and its exponent. -/
theorem isNearest_ofScientific_model (m : ℕ) (e : ℤ) :
    IsNearest (m * 10 ^ e) (.ofModel (Float.Model.ofScientific m e)) := by
  have hrange : (2 : ℤ) ^ Format.binary64.exponentBits = 2048 := rfl
  rw [Float.Model.ofScientific, UnpackedFloat.ofScientific, hrange]
  by_cases hm : m = 0
  · rw [dif_pos hm, hm, Nat.cast_zero, zero_mul]
    exact isNearest_zero le_rfl (by norm_num)
  rw [dif_neg hm]
  by_cases hlarge : e > 2048
  · rw [if_pos hlarge]
    exact .infinite (overflowBound_le hm (by omega))
  rw [if_neg hlarge]
  by_cases hsmall : e < -(2048 + m.log2)
  · rw [if_pos hsmall]
    exact isNearest_zero (by positivity) (mul_pow_lt (by omega))
  rw [if_neg hsmall]
  by_cases hnonneg : 0 ≤ e
  · rw [if_pos hnonneg]
    exact isNearest_mul_power hm hnonneg _ _
  · rw [if_neg hnonneg]
    exact isNearest_div_power (not_le.1 hnonneg) _ _

/-- The short way with an exact power of ten is as good. -/
theorem isNearest_ofScientific (m : ℕ) (e : ℤ) :
    IsNearest (m * 10 ^ e) (Float.ofScientific m (e < 0) e.natAbs) := by
  rw [Float.ofScientific]
  split
  case isTrue hexact =>
    obtain ⟨hsmall, hexponent⟩ := hexact
    have hpower := isExact_power ⟨e.natAbs, Nat.lt_succ_of_le hexponent⟩
    dsimp only
    rcases lt_or_ge e 0 with hneg | hnonneg
    · have hvalue : (m / 10 ^ e.natAbs : ℚ) = m * 10 ^ e := by
        rw [← zpow_natCast, Int.ofNat_natAbs_of_nonpos hneg.le, zpow_neg, div_inv_eq_mul]
      rw [if_pos (decide_eq_true hneg), ← hvalue]
      exact isNearest_toFloat_div hsmall hpower
    · have hvalue : (m * 10 ^ e.natAbs : ℚ) = m * 10 ^ e := by
        rw [← zpow_natCast, Int.natAbs_of_nonneg hnonneg]
      rw [if_neg (mt of_decide_eq_true (not_lt.2 hnonneg)), ← hvalue]
      exact isNearest_toFloat_mul hsmall hpower
  case isFalse =>
    have hexponent : (if decide (e < 0) = true then Int.negOfNat e.natAbs else Int.ofNat e.natAbs) =
        e := by
      split_ifs with hneg
      · have hlt := of_decide_eq_true hneg
        rw [Int.negOfNat_eq, Int.ofNat_eq_natCast]
        omega
      · have hle := mt decide_eq_true hneg
        rw [Int.ofNat_eq_natCast]
        omega
    dsimp only
    rw [hexponent]
    exact isNearest_ofScientific_model m e

end Scientific

end Rounding

/-! ## The floats of decimal numbers -/

namespace Decimal

/-- The number itself. -/
def value (d : Decimal) : ℚ := d.coefficient * 10 ^ d.exponent

theorem value_normalize (d : Decimal) : d.normalize.value = d.value := by
  fun_induction normalize d with
  | case1 d hd => rw [value, value, hd, Nat.cast_zero, zero_mul, zero_mul]
  | case2 d hd hten ih =>
    have hcoefficient : ((d.coefficient / 10 : ℕ) : ℚ) * 10 = d.coefficient := by
      exact_mod_cast Nat.div_mul_cancel (Nat.dvd_of_mod_eq_zero hten)
    rw [ih, value, value, zpow_add_one₀ (by norm_num), ← hcoefficient]
    ring
  | case3 d hd hten => rfl

/-- A decimal number is rounded to the nearest float. -/
theorem isNearest_toFloat (d : Decimal) : IsNearest d.value d.toFloat := by
  rw [← d.value_normalize]
  exact Rounding.isNearest_ofScientific d.normalize.coefficient d.normalize.exponent

end Decimal

end Calculator
