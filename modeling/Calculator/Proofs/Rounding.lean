import Calculator.Proofs.NearestFloat

/-!
# Rounding to the nearest float

Products and quotients of floats are rounded correctly, also when they are very small or too large.

* `Represents`: the number that a significand with a round bit and a sticky bit stands for.
* `Represents.shiftRight`, `Represents.isNearestNat`: shifting keeps the number, and rounding takes
  the nearest significand.
* `OnScale`: numbers in units of the last bit of the floats around them.
* `IsRounded`: the parts of the nearest float.
* `roundWithAccuracy_isRounded`: what rounding computes.
* `isNearest_mul`, `isNearest_div`: products and quotients.

Proof. Rounding shifts a significand until 53 bits are left, or the exponent is the least one, and
keeps what is shifted out in two bits. These tell the nearest whole number of units. Floats on a
coarser scale are whole numbers of units as well, and those on a finer scale are below the 53rd bit,
so that none of them is nearer. If 53 bits are rounded up to 54, one more shift has nothing to
round.
-/

namespace Calculator

open Float.Model Float.Model.UnpackedFloat

namespace Rounding

/-! ## Nearest whole numbers -/

/-- No whole number is nearer, and of two that are equally near this is the even one. -/
structure IsNearestNat (y : ℚ) (n : ℕ) : Prop where
  le_half : |y - n| ≤ 1 / 2
  even : |y - n| = 1 / 2 → Even n

namespace IsNearestNat

variable {y : ℚ} {m n : ℕ}

theorem of_lt (h : |y - n| < 1 / 2) : IsNearestNat y n := ⟨h.le, fun heq => absurd heq h.ne⟩

theorem of_half (h : y = m + 1 / 2) : IsNearestNat y (m + m % 2) := by
  have htie : |y - (m + m % 2 : ℕ)| = 1 / 2 := by
    rcases Nat.mod_two_eq_zero_or_one m with hmod | hmod
    · rw [h, hmod, add_zero, add_sub_cancel_left, abs_of_pos (by norm_num)]
    · rw [h, hmod, Nat.cast_succ, add_sub_add_left_eq_sub, abs_of_neg (by norm_num)]
      norm_num
  exact ⟨htie.le, fun _ => Nat.even_iff.2 (by omega)⟩

/-- No other whole number is better. -/
theorem asGood (h : IsNearestNat y n) (k : ℕ) : AsGood y n n k := by
  by_cases hk : k = n
  · rw [hk]
    exact ⟨le_rfl, fun _ => .inl rfl⟩
  · have hapart : (1 : ℚ) ≤ |(k : ℚ) - n| := by
      have hne : (k - n : ℤ) ≠ 0 := by omega
      exact_mod_cast Int.one_le_abs hne
    have htriangle : |(k : ℚ) - n| ≤ |y - n| + |y - k| := by
      rw [abs_sub_comm y k, add_comm]
      exact abs_sub_le _ y _
    have hle := h.le_half
    exact ⟨by linarith, fun heq => .inr (h.even (by linarith))⟩

end IsNearestNat

/-! ## Round and sticky bits -/

/-- The number in units of the significand, when bits have been shifted out: the significand and
the round bit count the halves in it, and the sticky bit tells whether anything is left. -/
structure Represents (em : ExtendedMantissa) (y : ℚ) : Prop where
  halves_le : 2 * em.mantissa + em.roundBit.toNat ≤ 2 * y
  lt_halves : 2 * y < 2 * em.mantissa + em.roundBit.toNat + 1
  stickyBit_iff : em.stickyBit = true ↔ 2 * em.mantissa + em.roundBit.toNat < 2 * y

namespace Represents

variable {em : ExtendedMantissa} {y : ℚ}

theorem mantissa_le (h : Represents em y) : em.mantissa ≤ y := by
  have hround : (0 : ℚ) ≤ em.roundBit.toNat := Nat.cast_nonneg _
  have hle := h.halves_le
  linarith

theorem lt_mantissa (h : Represents em y) : y < em.mantissa + 1 := by
  have hround : (em.roundBit.toNat : ℚ) ≤ 1 := by exact_mod_cast em.roundBit.toNat_le
  have hlt := h.lt_halves
  linarith

/-- The bit that is shifted out becomes the round bit, and the old round bit is only remembered. -/
theorem shiftRightOne (h : Represents em y) : Represents em.shiftRightOne (y / 2) := by
  have hhalves : 2 * ((em.mantissa / 2 : ℕ) : ℚ) + (em.mantissa % 2 != 0).toNat = em.mantissa := by
    have hround : (em.mantissa % 2 != 0).toNat = em.mantissa % 2 := by
      rcases Nat.mod_two_eq_zero_or_one em.mantissa with hmod | hmod <;> rw [hmod] <;> rfl
    rw [hround]
    exact_mod_cast Nat.div_add_mod em.mantissa 2
  have hsticky : (em.roundBit || em.stickyBit) = true ↔ (em.mantissa : ℚ) < y := by
    have hle := h.halves_le
    have hiff := h.stickyBit_iff
    cases hround : em.roundBit
    · rw [hround, Bool.toNat_false, Nat.cast_zero, add_zero] at hiff
      rw [Bool.false_or, hiff]
      exact mul_lt_mul_iff_of_pos_left (by norm_num)
    · rw [hround, Bool.toNat_true, Nat.cast_one] at hle
      exact iff_of_true (Bool.true_or _) (by linarith)
  constructor
  · rw [ExtendedMantissa.shiftRightOne, hhalves, mul_div_cancel₀ y two_ne_zero]
    exact h.mantissa_le
  · rw [ExtendedMantissa.shiftRightOne, hhalves, mul_div_cancel₀ y two_ne_zero]
    exact h.lt_mantissa
  · rw [ExtendedMantissa.shiftRightOne, hhalves, mul_div_cancel₀ y two_ne_zero]
    exact hsticky

theorem shiftRight (h : Represents em y) (d : ℕ) : Represents (em >>> d) (y / 2 ^ d) := by
  change Represents (d.repeat ExtendedMantissa.shiftRightOne em) (y / 2 ^ d)
  induction d with
  | zero => rwa [pow_zero, div_one]
  | succ d ih =>
    rw [Nat.repeat, pow_succ, ← div_div]
    exact ih.shiftRightOne

/-- The rounded significand is the nearest one. -/
theorem isNearestNat (h : Represents em y) : IsNearestNat y em.roundedMantissa := by
  obtain ⟨m, round, sticky⟩ := em
  obtain ⟨hle, hlt, hsticky⟩ := h
  dsimp only at hle hlt hsticky
  cases round
  case false =>
    rw [Bool.toNat_false, Nat.cast_zero, add_zero] at hle hlt
    have hrounded : ExtendedMantissa.roundedMantissa ⟨m, false, sticky⟩ = m := by
      cases sticky <;> rfl
    rw [hrounded]
    exact .of_lt (abs_lt.2 ⟨by linarith, by linarith⟩)
  case true =>
    rw [Bool.toNat_true, Nat.cast_one] at hle hlt hsticky
    cases sticky
    case false =>
      have hhalf : y = m + 1 / 2 := by
        have hnot := mt hsticky.2 Bool.false_ne_true
        linarith
      exact .of_half hhalf
    case true =>
      have hmore := hsticky.1 rfl
      refine .of_lt (abs_lt.2 ⟨?_, ?_⟩)
      · show -(1 / 2) < y - (m + 1 : ℕ)
        push_cast
        linarith
      · show y - (m + 1 : ℕ) < 1 / 2
        push_cast
        linarith

end Represents

theorem represents_exact (m : ℕ) : Represents (.ofMantissaAndAccuracy m .exact) m := by
  constructor <;> simp [ExtendedMantissa.ofMantissaAndAccuracy]

/-- The remainder of a division gives the bits behind the quotient. -/
theorem represents_div (a : ℕ) {b : ℕ} (hb : 0 < b) :
    Represents (.ofMantissaAndAccuracy (a / b) (accuracyOfFraction (a % b) b)) (a / b) := by
  have hb' : (0 : ℚ) < b := by exact_mod_cast hb
  have hdivision : (a : ℚ) / b = (a / b : ℕ) + (a % b : ℕ) / b := by
    have hmod : (b * (a / b : ℕ) + (a % b : ℕ) : ℚ) = a := by exact_mod_cast Nat.div_add_mod a b
    rw [← hmod]
    field_simp
  have hrest : ((a % b : ℕ) : ℚ) / b < 1 :=
    (div_lt_one hb').2 (by exact_mod_cast Nat.mod_lt a hb)
  rw [hdivision, accuracyOfFraction]
  generalize a / b = q, a % b = r at hrest ⊢
  split
  case isTrue hr =>
    rw [hr, Nat.cast_zero, zero_div, add_zero]
    exact represents_exact q
  case isFalse hr =>
    have hpos : (0 : ℚ) < r / b := div_pos (by exact_mod_cast Nat.pos_of_ne_zero hr) hb'
    cases hcompare : compare (2 * r) b
    case lt =>
      have hless : (r : ℚ) / b < 1 / 2 := by
        rw [div_lt_div_iff₀ hb' two_pos, mul_comm, one_mul]
        exact_mod_cast compare_lt_iff_lt.1 hcompare
      constructor <;> simp [ExtendedMantissa.ofMantissaAndAccuracy] <;> linarith
    case eq =>
      have hhalf : (r : ℚ) / b = 1 / 2 := by
        rw [div_eq_div_iff hb'.ne' two_ne_zero, mul_comm, one_mul]
        exact_mod_cast compare_eq_iff_eq.1 hcompare
      constructor <;> simp [ExtendedMantissa.ofMantissaAndAccuracy] <;> linarith
    case gt =>
      have hmore : 1 / 2 < (r : ℚ) / b := by
        rw [div_lt_div_iff₀ two_pos hb', one_mul, mul_comm]
        exact_mod_cast compare_gt_iff_gt.1 hcompare
      constructor <;> simp [ExtendedMantissa.ofMantissaAndAccuracy] <;> linarith

/-! ## Scales -/

/-- The floats around `y * 2 ^ t` are multiples of `2 ^ t`, and those below the 53rd bit of it are
at most as fine. -/
structure OnScale (y : ℚ) (t : ℤ) : Prop where
  nonneg : 0 ≤ y
  lt_pow : y < 2 ^ 53
  le_exponent : -1074 ≤ t
  full : t = -1074 ∨ 2 ^ 52 ≤ y

namespace OnScale

variable {y : ℚ} {n m : ℕ} {t e : ℤ}

/-- No float is better than the nearest unit of the scale. -/
theorem asGood (h : OnScale y t) (hn : IsNearestNat y n) (hc : IsCanonical m e) :
    AsGood y n n (m * 2 ^ (e - t)) := by
  rcases le_or_gt t e with hle | hlt
  · -- a float on this scale or a coarser one is a whole number of units
    obtain ⟨k, hk⟩ := Int.eq_ofNat_of_zero_le (sub_nonneg.2 hle)
    rw [hk, zpow_natCast]
    exact_mod_cast hn.asGood (m * 2 ^ k)
  · -- a float on a finer scale is farther away than the 53rd bit
    have hfull : 2 ^ 52 ≤ y := h.full.resolve_left (by have := hc.le_exponent; omega)
    have hfine : m * 2 ^ (e - t) < (2 : ℚ) ^ 52 := by
      have hm : (m : ℚ) < 2 ^ 53 := by exact_mod_cast hc.significand_lt
      have hscale : (2 : ℚ) ^ (e - t) ≤ 2 ^ (-1 : ℤ) :=
        zpow_le_zpow_right₀ one_le_two (by omega)
      calc m * (2 : ℚ) ^ (e - t) < 2 ^ 53 * 2 ^ (e - t) := by gcongr
        _ ≤ 2 ^ 53 * 2 ^ (-1 : ℤ) := by gcongr
        _ = 2 ^ 52 := by norm_num
    have hfar : |y - n| < |y - m * 2 ^ (e - t)| := by
      refine lt_of_le_of_lt (hn.asGood (2 ^ 52)).1 ?_
      push_cast
      rw [abs_of_nonneg (by linarith), abs_of_pos (by linarith)]
      linarith
    exact ⟨hfar.le, fun htie => absurd htie hfar.ne⟩

theorem le_pow (h : OnScale y t) (hn : IsNearestNat y n) : n ≤ 2 ^ 53 := by
  have hhalf := (abs_le.1 hn.le_half).1
  have hlt := h.lt_pow
  have hcast : (n : ℚ) < 2 ^ 53 + 1 := by linarith
  exact Nat.le_of_lt_succ (by exact_mod_cast hcast)

theorem pow_le (h : OnScale y t) (hn : IsNearestNat y n) : t = -1074 ∨ 2 ^ 52 ≤ n := by
  refine h.full.imp_right fun hfull => ?_
  have hhalf := (abs_le.1 hn.le_half).2
  have hcast : (2 ^ 52 : ℚ) < n + 1 := by linarith
  exact Nat.le_of_lt_succ (by exact_mod_cast hcast)

/-- A number is rounded up to the next power of two from the middle on, since that is even. -/
theorem eq_pow_iff (h : OnScale y t) (hn : IsNearestNat y n) : n = 2 ^ 53 ↔ 2 ^ 53 - 1 / 2 ≤ y := by
  have hhalf := abs_le.1 hn.le_half
  constructor
  · intro heq
    rw [heq] at hhalf
    push_cast at hhalf
    linarith
  · intro hy
    by_contra hne
    have hlt := lt_of_le_of_ne (h.le_pow hn) hne
    have hcast : (n : ℚ) ≤ 2 ^ 53 - 1 := by
      have hsucc : (n + 1 : ℕ) ≤ (2 ^ 53 : ℕ) := hlt
      have hcast : ((n + 1 : ℕ) : ℚ) ≤ (2 ^ 53 : ℕ) := by exact_mod_cast hsucc
      push_cast at hcast
      linarith
    have heq : (n : ℚ) = 2 ^ 53 - 1 := by linarith
    have heven : Even n := hn.even (by rw [abs_of_nonneg (by linarith)]; linarith)
    have hodd : n = 2 ^ 53 - 1 := by
      have hcast : (n : ℚ) = (2 ^ 53 - 1 : ℕ) := by rw [heq]; norm_num
      exact_mod_cast hcast
    rw [hodd] at heven
    revert heven
    decide

/-- The same for the numbers themselves. -/
theorem asGood_mul (h : OnScale y t) (hn : IsNearestNat y n) (hc : IsCanonical m e) :
    AsGood (y * 2 ^ t) (n * 2 ^ t) n (m * 2 ^ e) := by
  have hunit : (0 : ℚ) < 2 ^ t := by positivity
  have hunits : (m * 2 ^ e : ℚ) = m * 2 ^ (e - t) * 2 ^ t := by
    rw [mul_assoc, ← zpow_add₀ two_ne_zero, sub_add_cancel]
  have hnear := h.asGood hn hc
  rw [AsGood, hunits, ← sub_mul, ← sub_mul, abs_mul, abs_mul, abs_of_pos hunit]
  refine ⟨mul_le_mul_of_nonneg_right hnear.1 hunit.le, fun htie => ?_⟩
  exact (hnear.2 (mul_right_cancel₀ hunit.ne' htie)).imp_left fun heq => by rw [heq]

theorem lt_overflowBound_iff (h : OnScale y t) :
    y * 2 ^ t < overflowBound ↔ t < 971 ∨ t = 971 ∧ y < 2 ^ 53 - 1 / 2 := by
  -- the unit of the greatest floats, and those of its neighbours
  obtain ⟨u, hu⟩ : ∃ u : ℚ, u = 2 ^ (971 : ℤ) := ⟨_, rfl⟩
  have hbelow : 2 ^ (970 : ℤ) = u / 2 := by rw [hu]; exact zpow_sub_one₀ two_ne_zero 971
  have habove : 2 ^ (972 : ℤ) = u * 2 := by rw [hu]; exact zpow_add_one₀ two_ne_zero 971
  have hbound : overflowBound = (2 ^ 53 - 1 / 2) * u := by
    have hlow : (2 : ℚ) ^ 970 = u / 2 := hbelow
    rw [overflowBound, show 1024 = 54 + 970 from rfl, pow_add, hlow]
    ring
  have hpos : 0 < u := by rw [hu]; positivity
  rw [hbound]
  rcases lt_trichotomy t 971 with hlt | rfl | hgt
  · refine iff_of_true ?_ (.inl hlt)
    have hscale : (2 : ℚ) ^ t ≤ 2 ^ (970 : ℤ) := zpow_le_zpow_right₀ one_le_two (by omega)
    calc y * 2 ^ t ≤ 2 ^ 53 * 2 ^ (970 : ℤ) := by gcongr; exact h.lt_pow.le
      _ < (2 ^ 53 - 1 / 2) * u := by rw [hbelow]; linarith only [hpos]
  · rw [← hu, mul_lt_mul_iff_of_pos_right hpos]
    exact ⟨fun hy => .inr ⟨rfl, hy⟩,
      fun hor => hor.elim (fun hlt => absurd hlt (by omega)) And.right⟩
  · refine iff_of_false (not_lt.2 ?_) (by omega)
    have hfull : 2 ^ 52 ≤ y := h.full.resolve_left (by omega)
    have hscale : (2 : ℚ) ^ (972 : ℤ) ≤ 2 ^ t := zpow_le_zpow_right₀ one_le_two (by omega)
    calc (2 ^ 53 - 1 / 2) * u ≤ 2 ^ 52 * 2 ^ (972 : ℤ) := by rw [habove]; linarith only [hpos]
      _ ≤ y * 2 ^ t := by gcongr

end OnScale

/-- The parts are those of the float nearest to the number, and too large if there is none. -/
structure IsRounded (x : ℚ) (m : ℕ) (e : ℤ) : Prop extends IsCanonical m e where
  asGood {m' : ℕ} {e' : ℤ} : IsCanonical m' e' → AsGood x (m * 2 ^ e) m (m' * 2 ^ e')
  exponent_le_iff : e ≤ 971 ↔ x < overflowBound

section Rounded

variable {y : ℚ} {n : ℕ} {t : ℤ}

theorem OnScale.isRounded (h : OnScale y t) (hn : IsNearestNat y n) (hne : n ≠ 2 ^ 53) :
    IsRounded (y * 2 ^ t) n t where
  significand_lt := lt_of_le_of_ne (h.le_pow hn) hne
  le_exponent := h.le_exponent
  full := h.pow_le hn
  asGood := h.asGood_mul hn
  exponent_le_iff := by
    have hy := not_le.1 (mt (h.eq_pow_iff hn).2 hne)
    rw [h.lt_overflowBound_iff, and_iff_left hy]
    exact le_iff_lt_or_eq

/-- The next power of two has the same number of bits with one exponent more. -/
theorem OnScale.isRounded_carry (h : OnScale y t) (hn : IsNearestNat y (2 ^ 53)) :
    IsRounded (y * 2 ^ t) (2 ^ 52) (t + 1) where
  significand_lt := by decide
  le_exponent := by have := h.le_exponent; omega
  full := .inr le_rfl
  asGood {m' e'} hc := by
    have hcarry : ((2 ^ 52 : ℕ) * 2 ^ (t + 1) : ℚ) = (2 ^ 53 : ℕ) * 2 ^ t := by
      rw [zpow_add₀ two_ne_zero]
      push_cast
      ring
    rw [hcarry]
    obtain ⟨hle, htie⟩ := h.asGood_mul hn hc
    exact ⟨hle, fun heq => (htie heq).imp_right fun _ => by decide⟩
  exponent_le_iff := by
    have hy := not_lt.2 ((h.eq_pow_iff hn).1 rfl)
    rw [h.lt_overflowBound_iff]
    exact ⟨fun hle => .inl (by omega),
      fun hor => hor.elim (fun hlt => by omega) fun heq => absurd heq.2 hy⟩

end Rounded

/-! ## Operations -/

section Operations

variable {m : ℕ} {e : ℤ} {accuracy : Accuracy} {y : ℚ}

theorem shiftToTargetExponent_canonical (h : IsCanonical m e) :
    shiftToTargetExponent Format.binary64 m e .exact = (⟨m, false, false⟩, e) := by
  by_cases hm : m = 0
  · have he : e = -1074 := h.full.resolve_right (by omega)
    rw [hm, he]
    rfl
  · have hexact := ExactFloat.shiftToTargetExponent_exact h hm 0
    rwa [pow_zero, mul_one, Nat.cast_zero, sub_zero] at hexact

/-- Rounding first shifts until 53 bits are left, or further up to the least exponent. -/
theorem exists_shift (hfull : 2 ^ 52 ≤ m ∨ e ≤ -1074) (accuracy : Accuracy) :
    ∃ d : ℕ, m < 2 ^ (53 + d) ∧ -1074 ≤ e + d ∧ (e + d = -1074 ∨ 2 ^ (52 + d) ≤ m) ∧
      shiftToTargetExponent Format.binary64 m e accuracy =
        (ExtendedMantissa.ofMantissaAndAccuracy m accuracy >>> d, e + d) := by
  obtain ⟨d, hd⟩ : ∃ d, d = (max (m.log2 + 1 + e - 53) (-1074) - e).toNat := ⟨_, rfl⟩
  have hshift : shiftToTargetExponent Format.binary64 m e accuracy =
      (ExtendedMantissa.ofMantissaAndAccuracy m accuracy >>> d, e + d) := by
    rw [hd]
    rfl
  have hbits : m < 2 ^ (m.log2 + 1) := Nat.lt_log2_self
  rcases Nat.lt_or_ge m (2 ^ 52) with hsmall | hlarge
  · have hlog : m.log2 < 52 := by
      by_cases hm : m = 0
      · rw [hm]
        decide
      · exact (Nat.log2_lt hm).2 hsmall
    exact ⟨d, hbits.trans_le (Nat.pow_le_pow_right two_pos (by omega)), by omega, .inl (by omega),
      hshift⟩
  · have hm := Nat.ne_zero_of_lt hlarge
    have hlog := (Nat.le_log2 hm).2 hlarge
    refine ⟨d, hbits.trans_le (Nat.pow_le_pow_right two_pos (by omega)), by omega, ?_, hshift⟩
    refine or_iff_not_imp_left.2 fun hleast => ?_
    rw [show 52 + d = m.log2 by omega]
    exact Nat.log2_self_le hm

/-- So the number is on the scale of the floats around it. -/
theorem Represents.onScale {d : ℕ} (hrep : Represents (.ofMantissaAndAccuracy m accuracy) y)
    (hbits : m < 2 ^ (53 + d)) (hleast : -1074 ≤ e + d)
    (hfull : e + d = -1074 ∨ 2 ^ (52 + d) ≤ m) : OnScale (y / 2 ^ d) (e + d) := by
  have hmantissa : (ExtendedMantissa.ofMantissaAndAccuracy m accuracy).mantissa = m := by
    rcases accuracy with _ | _ | _ | _ <;> rfl
  have hlow : (m : ℚ) ≤ y := by simpa only [hmantissa] using hrep.mantissa_le
  have hhigh : y < m + 1 := by simpa only [hmantissa] using hrep.lt_mantissa
  have hunit : (0 : ℚ) < 2 ^ d := by positivity
  refine ⟨div_nonneg (le_trans (Nat.cast_nonneg m) hlow) hunit.le, ?_, hleast, ?_⟩
  · have hcast : (m + 1 : ℚ) ≤ 2 ^ 53 * 2 ^ d := by
      rw [← pow_add]
      exact_mod_cast hbits
    rw [div_lt_iff₀ hunit]
    linarith
  · refine hfull.imp_right fun hbits => ?_
    have hcast : (2 ^ 52 * 2 ^ d : ℚ) ≤ m := by
      rw [← pow_add]
      exact_mod_cast hbits
    rw [le_div_iff₀ hunit]
    linarith

/-- What is rounded becomes the nearest float, if all its bits are given or the exponent is low
enough. -/
theorem roundWithAccuracy_isRounded (hrep : Represents (.ofMantissaAndAccuracy m accuracy) y)
    (hfull : 2 ^ 52 ≤ m ∨ e ≤ -1074) (s : UnpackedFloat.Sign) :
    ∃ m' e', IsRounded (y * 2 ^ e) m' e' ∧
      roundWithAccuracy Format.binary64 s m e accuracy = ofParts s m' e' := by
  obtain ⟨d, hbits, hleast, hfull, hshift⟩ := exists_shift hfull accuracy
  have hscale := hrep.onScale hbits hleast hfull
  have hnear := (hrep.shiftRight d).isNearestNat
  have hunits : y * 2 ^ e = y / 2 ^ d * 2 ^ (e + d) := by
    rw [zpow_add₀ two_ne_zero, zpow_natCast]
    field_simp
  rw [hunits, roundWithAccuracy, hshift]
  dsimp only
  generalize (ExtendedMantissa.ofMantissaAndAccuracy m accuracy >>> d).roundedMantissa = n
    at hnear ⊢
  by_cases hn : n = 2 ^ 53
  · subst hn
    have hcarry := hscale.isRounded_carry hnear
    have hexact := ExactFloat.shiftToTargetExponent_exact hcarry.toIsCanonical (by decide) 1
    rw [show 2 ^ 52 * 2 ^ 1 = 2 ^ 53 from rfl, Nat.cast_one, add_sub_cancel_right] at hexact
    refine ⟨_, _, hcarry, ?_⟩
    rw [hexact]
    rfl
  · have hrounded := hscale.isRounded hnear hn
    refine ⟨_, _, hrounded, ?_⟩
    rw [shiftToTargetExponent_canonical hrounded.toIsCanonical]
    rfl

end Operations

/-! ## Nearest floats -/

section Nearest

variable {m : ℕ} {e : ℤ} {x : ℚ}

/-- A float with a sign is not nearer to a number that is not negative than the one without. -/
theorem abs_sub_le_value (hx : 0 ≤ x) (f : FiniteFloat) :
    |x - f.significand * 2 ^ f.exponent| ≤ |x - f.value| := by
  have hle := abs_abs_sub_abs_le x f.value
  rwa [f.abs_value, abs_of_nonneg hx] at hle

/-- Rounded parts make up the nearest float. -/
theorem IsRounded.isNearest (h : IsRounded x m e) (hx : 0 ≤ x) :
    IsNearest x (.ofModel (.pack (ofParts .positive m e))) := by
  rcases le_or_gt e 971 with he | he
  · have hvalue : FiniteFloat.value ⟨false, m, e⟩ = m * 2 ^ e := one_mul _
    refine .finite (ofFloat?_ofParts h.toIsCanonical he) rfl (h.exponent_le_iff.1 he) ?_
    intro y g hg
    rw [hvalue]
    obtain ⟨hle, htie⟩ := h.asGood (ofFloat?_isCanonical hg).1
    have hsign := abs_sub_le_value hx g
    refine ⟨hle.trans hsign, fun heq => ?_⟩
    rcases htie (le_antisymm hle (hsign.trans heq.ge)) with hsame | heven
    · refine .inl ?_
      rw [FiniteFloat.value, hsame] at heq ⊢
      split_ifs at heq ⊢
      · -- then zero would be nearer, were it not the same number
        have horigin := (h.asGood IsCanonical.zero).1
        have hnonneg : (0 : ℚ) ≤ m * 2 ^ e := by positivity
        rw [Nat.cast_zero, zero_mul, sub_zero, abs_of_nonneg hx, heq, neg_one_mul, sub_neg_eq_add,
          abs_of_nonneg (add_nonneg hx hnonneg)] at horigin
        linarith
      · exact one_mul _
    · exact .inr heven
  · rw [pack_overflow h.toIsCanonical he]
    exact .infinite (not_lt.1 (mt h.exponent_le_iff.2 (not_le.2 he)))

end Nearest

/-! ## Products and quotients -/

section Products

variable {a b : ℕ} {i j : ℤ}

theorem isNearest_mul (ha : 0 < a) (hb : 0 < b) (hfull : 2 ^ 52 ≤ a * b ∨ i + j ≤ -1074) :
    IsNearest (a * 2 ^ i * (b * 2 ^ j)) (.ofModel (.pack (UnpackedFloat.mul Format.binary64
      (.finite .positive a i ha) (.finite .positive b j hb)))) := by
  obtain ⟨m, e, hrounded, hround⟩ :=
    roundWithAccuracy_isRounded (represents_exact (a * b)) hfull .positive
  have hvalue : ((a * b : ℕ) * 2 ^ (i + j) : ℚ) = a * 2 ^ i * (b * 2 ^ j) := by
    rw [zpow_add₀ two_ne_zero]
    push_cast
    ring
  show IsNearest _ (.ofModel (.pack (roundWithAccuracy Format.binary64 .positive _ _ .exact)))
  rw [hround, ← hvalue]
  exact hrounded.isNearest (by positivity)

/-- The dividend is shifted until the quotient has all its bits, or is on the least scale. -/
theorem divCore_eq (ha : a ≠ 0) (hb : b ≠ 0) :
    ∃ k : ℕ, (2 ^ 52 ≤ a * 2 ^ k / b ∨ i - j - k ≤ -1074) ∧
      divCore Format.binary64 a i b j =
        (a * 2 ^ k / b, i - j - k, accuracyOfFraction (a * 2 ^ k % b) b) := by
  obtain ⟨t, ht⟩ : ∃ t, t = min (i - j)
    (Format.binary64.targetExponent (totalExponent a i - totalExponent b j)) := ⟨_, rfl⟩
  have hdiv : divCore Format.binary64 a i b j = (a <<< (i - j - t).toNat / b, t,
      accuracyOfFraction (a <<< (i - j - t).toNat % b) b) := by rw [ht]; rfl
  rw [targetExponent_binary64, totalExponent, totalExponent] at ht
  rw [hdiv, Nat.shiftLeft_eq]
  refine ⟨(i - j - t).toNat, ?_, Prod.ext rfl (Prod.ext (by dsimp only; omega) rfl)⟩
  refine or_iff_not_imp_right.2 fun hexponent => ?_
  have hbits : b.log2 + 53 ≤ a.log2 + (i - j - t).toNat := by omega
  rw [Nat.le_div_iff_mul_le (Nat.pos_of_ne_zero hb)]
  calc 2 ^ 52 * b ≤ 2 ^ 52 * 2 ^ (b.log2 + 1) := Nat.mul_le_mul_left _ Nat.lt_log2_self.le
    _ = 2 ^ (b.log2 + 53) := by rw [← pow_add]; congr 1; omega
    _ ≤ 2 ^ (a.log2 + (i - j - t).toNat) := Nat.pow_le_pow_right two_pos hbits
    _ ≤ a * 2 ^ (i - j - t).toNat := by
      rw [pow_add]
      exact Nat.mul_le_mul_right _ (Nat.log2_self_le ha)

theorem isNearest_div (ha : 0 < a) (hb : 0 < b) :
    IsNearest (a * 2 ^ i / (b * 2 ^ j)) (.ofModel (.pack (UnpackedFloat.div Format.binary64
      (.finite .positive a i ha) (.finite .positive b j hb)))) := by
  obtain ⟨k, hfull, hdiv⟩ := @divCore_eq a b i j ha.ne' hb.ne'
  obtain ⟨m, e, hrounded, hround⟩ :=
    roundWithAccuracy_isRounded (represents_div (a * 2 ^ k) hb) hfull .positive
  have hvalue : ((a * 2 ^ k : ℕ) / b * 2 ^ (i - j - k) : ℚ) = a * 2 ^ i / (b * 2 ^ j) := by
    have hb' : (b : ℚ) ≠ 0 := by exact_mod_cast hb.ne'
    rw [zpow_sub₀ two_ne_zero, zpow_sub₀ two_ne_zero, zpow_natCast]
    push_cast
    field_simp
  show IsNearest _ (.ofModel (.pack (match divCore Format.binary64 a i b j with
    | (m, e, accuracy) => roundWithAccuracy Format.binary64 .positive m e accuracy)))
  rw [hdiv]
  dsimp only
  rw [hround, ← hvalue]
  exact hrounded.isNearest (by positivity)

end Products

end Rounding

end Calculator
