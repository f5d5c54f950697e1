import Calculator.Arithmetic.FiniteFloat
import Mathlib.Algebra.Order.Field.Power
import Mathlib.Algebra.Order.Field.Rat
import Mathlib.Tactic.FieldSimp
import Mathlib.Tactic.Linarith
import Mathlib.Tactic.Positivity
import Mathlib.Tactic.Ring

/-!
# Exact floats

Integers of at most 53 bits are floats, and what is computed from them is exact as long as it has
at most 53 bits.

* `IsCanonical`, `IsNormal`: the parts of floats, and those with a significand of full length.
* `ExactFloat.roundWithAccuracy_exact`: rounding gives normal parts back, however they are scaled.
* `ExactFloat.add_ofInt`, `ExactFloat.mul_ofInt_one`, `ExactFloat.div_ofInt`: exact operations.
* `ExactFloat.ofInt_eq_ofModel`, `ExactFloat.ofInt_add_ofInt`: integers as floats, and their sums.
* `HasValue`: the number that a float stands for, by its parts.
* `hasValue_ofInt`, `hasValue_ofInt_div`: the values of integers and of their quotients by `2 ^ 32`.

Proof. The operations of floats take numbers apart, compute with the parts and round the result.
An integer has normal parts, in which its bits are moved up to the 53rd. The exact result of an
operation is a multiple of the normal parts of the same number, with the factor a power of two.
Rounding shifts out just that factor, all of whose bits are zero.
-/

namespace Calculator

open Float.Model Float.Model.UnpackedFloat

/-! ## Normal parts -/

namespace ExactFloat

theorem log2_mul_two_pow {n : ℕ} (hn : n ≠ 0) (d : ℕ) : (n * 2 ^ d).log2 = n.log2 + d := by
  obtain ⟨hlow, hhigh⟩ := (Nat.log2_eq_iff hn).1 rfl
  rw [Nat.log2_eq_iff (Nat.mul_ne_zero hn (Nat.two_pow_pos d).ne'), pow_add]
  refine ⟨Nat.mul_le_mul_right _ hlow, ?_⟩
  rw [Nat.add_right_comm, pow_add]
  exact Nat.mul_lt_mul_of_pos_right hhigh (Nat.two_pow_pos d)

/-- The leading bit stays where it is when a factor moves from the exponent to the significand. -/
theorem totalExponent_mul_two_pow {n : ℕ} (hn : n ≠ 0) (e : ℤ) (d : ℕ) :
    totalExponent (n * 2 ^ d) (e - d) = totalExponent n e := by
  rw [totalExponent, totalExponent, log2_mul_two_pow hn]
  omega

end ExactFloat

/-- The exponent with which 53 bits are left, or the least one. -/
theorem targetExponent_binary64 (e : ℤ) :
    Format.binary64.targetExponent e = max (e - 53) (-1074) := rfl

/-- The significand has at most 53 bits, and fewer only with the least exponent. -/
structure IsCanonical (m : ℕ) (e : ℤ) : Prop where
  significand_lt : m < 2 ^ 53
  le_exponent : -1074 ≤ e
  full : e = -1074 ∨ 2 ^ 52 ≤ m

/-- The exponent is the one that rounding moves to. -/
theorem IsCanonical.targetExponent_eq {m : ℕ} {e : ℤ} (h : IsCanonical m e) :
    Format.binary64.targetExponent (totalExponent m e) = e := by
  rw [targetExponent_binary64, totalExponent]
  have hleast := h.le_exponent
  rcases h.full with he | hfull
  · by_cases hm : m = 0
    · rw [hm, Nat.log2_zero]
      omega
    · have hlog := (Nat.log2_lt hm).2 h.significand_lt
      omega
  · have hlog : m.log2 = 52 :=
      (Nat.log2_eq_iff (Nat.ne_zero_of_lt hfull)).2 ⟨hfull, h.significand_lt⟩
    omega

/-- A significand of 53 bits, and an exponent with which it makes up a float. -/
structure IsNormal (m : ℕ) (e : ℤ) : Prop where
  le_significand : 2 ^ 52 ≤ m
  significand_lt : m < 2 ^ 53
  le_exponent : -1074 ≤ e
  exponent_le : e ≤ 971

namespace IsNormal

variable {m : ℕ} {e : ℤ}

theorem pos (h : IsNormal m e) : 0 < m := Nat.lt_of_lt_of_le (by decide) h.le_significand

theorem log2_eq (h : IsNormal m e) : m.log2 = 52 :=
  (Nat.log2_eq_iff h.pos.ne').2 ⟨h.le_significand, h.significand_lt⟩

theorem isCanonical (h : IsNormal m e) : IsCanonical m e :=
  ⟨h.significand_lt, h.le_exponent, .inr h.le_significand⟩

end IsNormal

namespace ExactFloat

/-! ## Rounding -/

section Rounding

variable {m : ℕ} {e : ℤ}

/-- Zero bits are shifted out without a trace. -/
theorem shiftRight_exact (m d : ℕ) :
    (⟨m * 2 ^ d, false, false⟩ : ExtendedMantissa) >>> d = ⟨m, false, false⟩ := by
  change d.repeat ExtendedMantissa.shiftRightOne _ = _
  induction d generalizing m with
  | zero => rw [pow_zero, mul_one]; rfl
  | succ d ih =>
    rw [Nat.repeat, pow_succ', ← mul_assoc, ih]
    simp [ExtendedMantissa.shiftRightOne]

theorem shiftToTargetExponent_exact (h : IsCanonical m e) (hm : m ≠ 0) (d : ℕ) :
    shiftToTargetExponent Format.binary64 (m * 2 ^ d) (e - d) .exact = (⟨m, false, false⟩, e) := by
  have hshift : (e - (e - d)).toNat = d := by omega
  rw [shiftToTargetExponent, totalExponent_mul_two_pow hm, h.targetExponent_eq,
    shiftToExponent, hshift]
  refine Prod.ext (shiftRight_exact m d) ?_
  show e - d + (d : ℤ) = e
  omega

/-- Rounding gives normal parts back, however they are scaled. -/
theorem roundWithAccuracy_exact (h : IsNormal m e) (s : UnpackedFloat.Sign) (d : ℕ) :
    roundWithAccuracy Format.binary64 s (m * 2 ^ d) (e - d) .exact = .finite s m e h.pos := by
  -- Nothing is left to be shifted after the rounding.
  have hagain := shiftToTargetExponent_exact h.isCanonical h.pos.ne' 0
  rw [pow_zero, mul_one, Nat.cast_zero, sub_zero] at hagain
  have hrounded : (⟨m, false, false⟩ : ExtendedMantissa).roundedMantissa = m := rfl
  rw [roundWithAccuracy, shiftToTargetExponent_exact h.isCanonical h.pos.ne' d]
  dsimp only
  rw [hrounded, hagain]
  exact dif_neg h.pos.ne'

end Rounding

/-! ## Integers -/

/-- The leading bit of a number of at most 53 bits can be moved up to the 53rd. -/
theorem isNormal_mul_two_pow {m : ℕ} (hm : m ≠ 0) (h : m < 2 ^ 53) :
    IsNormal (m * 2 ^ (52 - m.log2)) (-(52 - m.log2 : ℕ)) := by
  have hlog : m.log2 < 53 := (Nat.log2_lt hm).2 h
  obtain ⟨hlow, hhigh⟩ := (Nat.log2_eq_iff hm).1 rfl
  refine ⟨?_, ?_, by omega, by omega⟩
  · calc 2 ^ 52 = 2 ^ m.log2 * 2 ^ (52 - m.log2) := by rw [← pow_add]; congr 1; omega
      _ ≤ m * 2 ^ (52 - m.log2) := Nat.mul_le_mul_right _ hlow
  · calc m * 2 ^ (52 - m.log2)
        < 2 ^ (m.log2 + 1) * 2 ^ (52 - m.log2) :=
          Nat.mul_lt_mul_of_pos_right hhigh (Nat.two_pow_pos _)
      _ = 2 ^ 53 := by rw [← pow_add]; congr 1; omega

/-- An integer of at most 53 bits is a normal float if it is not zero. -/
theorem exists_isNormal {n : ℤ} (hn : n ≠ 0) (h : n.natAbs < 2 ^ 53) :
    ∃ k : ℕ, k ≤ 52 ∧ IsNormal (n.natAbs * 2 ^ k) (-k) :=
  ⟨52 - n.natAbs.log2, Nat.sub_le _ _, isNormal_mul_two_pow (Int.natAbs_ne_zero.2 hn) h⟩

/-- Scaled parts of an integer are rounded to its normal parts, whichever of the two scales is the
finer one. -/
theorem round_exact {n k : ℕ} (hn : n ≠ 0) (h : IsNormal (n * 2 ^ k) (-k))
    (s : UnpackedFloat.Sign) (d : ℕ) :
    UnpackedFloat.round Format.binary64 s (n * 2 ^ d) (-d) = .finite s (n * 2 ^ k) (-k) h.pos := by
  have hsame : ∀ j : ℕ, totalExponent (n * 2 ^ j) (-j) = totalExponent n 0 := fun j => by
    rw [← totalExponent_mul_two_pow hn 0 j, zero_sub]
  have htarget : Format.binary64.targetExponent (totalExponent (n * 2 ^ d) (-d)) = -k := by
    rw [hsame, ← hsame k, h.isCanonical.targetExponent_eq]
  have hdecrease : decreaseExponent (n * 2 ^ d) (-d) (-k) =
      (n * 2 ^ k * 2 ^ (d - k), (-k : ℤ) - (d - k : ℕ)) := by
    have hshift : (-d - -k : ℤ).toNat = k - d := by omega
    rw [decreaseExponent, hshift, Nat.shiftLeft_eq]
    refine Prod.ext ?_ ?_
    · show n * 2 ^ d * 2 ^ (k - d) = n * 2 ^ k * 2 ^ (d - k)
      rw [mul_assoc, mul_assoc, ← pow_add, ← pow_add]
      congr 2
      omega
    · show (-d : ℤ) - (k - d : ℕ) = -k - (d - k : ℕ)
      omega
  rw [UnpackedFloat.round, htarget, hdecrease]
  exact roundWithAccuracy_exact h s (d - k)

/-- The sign of an integer. -/
def signOf (n : ℤ) : UnpackedFloat.Sign := if n < 0 then .negative else .positive

theorem signOf_apply (n : ℤ) : (signOf n).apply n.natAbs = n := by
  rw [signOf]
  split
  · rw [UnpackedFloat.Sign.apply]; omega
  · rw [UnpackedFloat.Sign.apply]; omega

theorem apply_mul (s : UnpackedFloat.Sign) (x y : ℤ) : s.apply (x * y) = s.apply x * y := by
  cases s
  · exact (Int.neg_mul x y).symm
  · rfl

theorem signOf_neg {n : ℤ} (hn : n ≠ 0) : signOf (-n) = -signOf n := by
  rcases lt_or_gt_of_ne hn with h | h
  · rw [signOf, signOf, if_pos h, if_neg (show ¬-n < 0 by omega)]
    rfl
  · rw [signOf, signOf, if_neg (show ¬n < 0 by omega), if_pos (show -n < 0 by omega)]
    rfl

/-- Any parts of an integer are rounded to the same. -/
theorem normalize_exact {n : ℤ} {k : ℕ} (hn : n ≠ 0) (h : IsNormal (n.natAbs * 2 ^ k) (-k))
    (d : ℕ) (zeroSign : UnpackedFloat.Sign) :
    UnpackedFloat.normalize Format.binary64 (n * 2 ^ d) (-d) zeroSign =
      .finite (signOf n) (n.natAbs * 2 ^ k) (-k) h.pos := by
  have hpow : (0 : ℤ) < 2 ^ d := by positivity
  have habs : (n * 2 ^ d).natAbs = n.natAbs * 2 ^ d := by
    rw [Int.natAbs_mul, Int.natAbs_pow]
    rfl
  rw [UnpackedFloat.normalize, signOf]
  rcases lt_or_gt_of_ne hn with hneg | hpos
  · have hmul : n * 2 ^ d < 0 := mul_neg_of_neg_of_pos hneg hpow
    rw [compare_lt_iff_lt.2 hmul, if_pos hneg]
    dsimp only
    rw [show (-(n * 2 ^ d)).toNat = n.natAbs * 2 ^ d by omega]
    exact round_exact (by omega) h .negative d
  · have hmul : 0 < n * 2 ^ d := mul_pos hpos hpow
    rw [compare_gt_iff_gt.2 hmul, if_neg (by omega)]
    dsimp only
    rw [show (n * 2 ^ d).toNat = n.natAbs * 2 ^ d by omega]
    exact round_exact (by omega) h .positive d

theorem finite_congr {s s' : UnpackedFloat.Sign} {m m' : ℕ} {e e' : ℤ} {hm : 0 < m} {hm' : 0 < m'}
    (hs : s = s') (hsignificand : m = m') (hexponent : e = e') :
    UnpackedFloat.finite s m e hm = .finite s' m' e' hm' := by
  subst hs hsignificand hexponent
  rfl

section Whole

variable {a b n : ℤ}

theorem ofInt_eq {k : ℕ} (hn : n ≠ 0) (h : IsNormal (n.natAbs * 2 ^ k) (-k)) :
    ofInt Format.binary64 n = .finite (signOf n) (n.natAbs * 2 ^ k) (-k) h.pos := by
  have hwhole := normalize_exact hn h 0 .positive
  rwa [pow_zero, mul_one] at hwhole

theorem normalize_eq_ofInt (h : n.natAbs < 2 ^ 53) (d : ℕ) :
    UnpackedFloat.normalize Format.binary64 (n * 2 ^ d) (-d) .positive =
      ofInt Format.binary64 n := by
  by_cases hn : n = 0
  · rw [hn, zero_mul]
    rfl
  · obtain ⟨k, -, hnormal⟩ := exists_isNormal hn h
    rw [normalize_exact hn hnormal, ofInt_eq hn hnormal]

theorem apply_decreaseExponent (n : ℤ) {k j : ℕ} (h : k ≤ j) :
    (signOf n).apply (decreaseExponent (n.natAbs * 2 ^ k) (-k) (-j)).1 = n * 2 ^ j := by
  have hshift : (-k - -j : ℤ).toNat = j - k := by omega
  rw [decreaseExponent, hshift, Nat.shiftLeft_eq, mul_assoc, ← pow_add, Nat.add_sub_cancel' h,
    Nat.cast_mul, apply_mul, signOf_apply]
  push_cast
  rfl

/-- Integers are added exactly as long as the sum has at most 53 bits. -/
theorem add_ofInt (ha : a.natAbs < 2 ^ 53) (hb : b.natAbs < 2 ^ 53)
    (hsum : (a + b).natAbs < 2 ^ 53) :
    UnpackedFloat.add Format.binary64 (ofInt Format.binary64 a) (ofInt Format.binary64 b) =
      ofInt Format.binary64 (a + b) := by
  by_cases ha0 : a = 0
  · subst ha0
    by_cases hb0 : b = 0
    · subst hb0
      rfl
    · obtain ⟨k, -, hnormal⟩ := exists_isNormal hb0 hb
      rw [zero_add, ofInt_eq hb0 hnormal]
      rfl
  · obtain ⟨k, -, hnormal⟩ := exists_isNormal ha0 ha
    by_cases hb0 : b = 0
    · subst hb0
      rw [add_zero, ofInt_eq ha0 hnormal]
      rfl
    · obtain ⟨j, -, hnormal'⟩ := exists_isNormal hb0 hb
      have hmin : min (-k : ℤ) (-j) = -(max k j : ℕ) := by omega
      rw [ofInt_eq ha0 hnormal, ofInt_eq hb0 hnormal']
      show UnpackedFloat.normalize Format.binary64
        ((signOf a).apply (decreaseExponent (a.natAbs * 2 ^ k) (-k) (min (-k) (-j))).1 +
          (signOf b).apply (decreaseExponent (b.natAbs * 2 ^ j) (-j) (min (-k) (-j))).1)
        (min (-k) (-j)) .positive = _
      rw [hmin, apply_decreaseExponent a (le_max_left k j),
        apply_decreaseExponent b (le_max_right k j), ← add_mul, normalize_eq_ofInt hsum]

theorem neg_ofInt (hn : n ≠ 0) (h : n.natAbs < 2 ^ 53) :
    (ofInt Format.binary64 n).neg = ofInt Format.binary64 (-n) := by
  obtain ⟨k, -, hnormal⟩ := exists_isNormal hn h
  have hnormal' : IsNormal ((-n).natAbs * 2 ^ k) (-k) := by rwa [Int.natAbs_neg]
  rw [ofInt_eq hn hnormal, ofInt_eq (neg_ne_zero.2 hn) hnormal']
  exact finite_congr (signOf_neg hn).symm (by rw [Int.natAbs_neg]) rfl

/-- Multiplying by one changes nothing. -/
theorem mul_ofInt_one (h : n.natAbs < 2 ^ 53) :
    UnpackedFloat.mul Format.binary64 (ofInt Format.binary64 n) (ofInt Format.binary64 1) =
      ofInt Format.binary64 n := by
  by_cases hn : n = 0
  · subst hn
    rfl
  · obtain ⟨k, -, hnormal⟩ := exists_isNormal hn h
    have hone : ofInt Format.binary64 1 = .finite .positive (2 ^ 52) (-52) (by decide) := rfl
    have hsign : ∀ s : UnpackedFloat.Sign, s * .positive = s := fun s => by cases s <;> rfl
    rw [ofInt_eq hn hnormal, hone]
    show roundWithAccuracy Format.binary64 (signOf n * UnpackedFloat.Sign.positive) _ _ .exact = _
    rw [hsign]
    exact roundWithAccuracy_exact hnormal (signOf n) 52

/-- Before it is rounded, the quotient by `2 ^ 32` has one bit more than the dividend, which is
zero. -/
theorem divCore_exact {m k : ℕ} (h : IsNormal m (-k)) (hk : k ≤ 52) :
    divCore Format.binary64 m (-k) (2 ^ 52) (-20) =
      (m * 2 ^ 1, -k - 32 - ((1 : ℕ) : ℤ), .exact) := by
  have htarget : Format.binary64.targetExponent
      (totalExponent m (-k) - totalExponent (2 ^ 52) (-20)) = -k - 33 := by
    rw [targetExponent_binary64, totalExponent, totalExponent, h.log2_eq, Nat.log2_two_pow]
    omega
  have hexponent : min (-k - -20 : ℤ) (-k - 33) = -k - 33 := by omega
  have hshift : (-k - -20 - (-k - 33) : ℤ).toNat = 53 := by omega
  have hmul : m <<< 53 = 2 ^ 52 * (m * 2 ^ 1) := by
    rw [Nat.shiftLeft_eq]
    ring
  rw [divCore, htarget, hexponent, hshift, hmul, Nat.mul_div_cancel_left _ (by decide),
    Nat.mul_mod_right]
  refine Prod.ext rfl (Prod.ext ?_ rfl)
  show (-k - 33 : ℤ) = -k - 32 - 1
  omega

/-- Dividing by `2 ^ 32` only lowers the exponent. -/
theorem div_ofInt {k : ℕ} (hn : n ≠ 0) (hk : k ≤ 52) (h : IsNormal (n.natAbs * 2 ^ k) (-k)) :
    UnpackedFloat.div Format.binary64 (ofInt Format.binary64 n)
        (ofInt Format.binary64 4294967296) =
      .finite (signOf n) (n.natAbs * 2 ^ k) (-k - 32) h.pos := by
  have hquotient : IsNormal (n.natAbs * 2 ^ k) (-k - 32) :=
    ⟨h.le_significand, h.significand_lt, by omega, by omega⟩
  have hdivisor : ofInt Format.binary64 4294967296 =
      .finite .positive (2 ^ 52) (-20) (by decide) := rfl
  have hsign : ∀ s : UnpackedFloat.Sign, s / .positive = s := fun s => by cases s <;> rfl
  rw [ofInt_eq hn h, hdivisor]
  show (let (m, e, accuracy) := divCore Format.binary64 (n.natAbs * 2 ^ k) (-k) (2 ^ 52) (-20)
    roundWithAccuracy Format.binary64 (signOf n / UnpackedFloat.Sign.positive) m e accuracy) = _
  rw [divCore_exact h hk, hsign]
  exact roundWithAccuracy_exact hquotient (signOf n) 1

end Whole

/-! ## Packing -/

theorem unpackSign_packComponents (s : UnpackedFloat.Sign) (e : BitVec 11) (m : BitVec 52) :
    unpackSign (packComponents Format.binary64 s e m) = s.toBitVec := by
  show ((s.toBitVec ++ e ++ m).extractLsb 63 63).cast rfl = s.toBitVec
  ext i hi
  have hi0 : i = 0 := by omega
  subst hi0
  have hbit : (s.toBitVec ++ e ++ m).getLsbD 63 = s.toBitVec[0] := by
    rw [BitVec.getLsbD_append, BitVec.getLsbD_append]
    rfl
  rw [BitVec.getElem_cast, BitVec.extractLsb, BitVec.getElem_extractLsb']
  exact hbit

/-- The bits of a float are its sign, its exponent and its significand one behind the other. -/
theorem toNat_packComponents (s : UnpackedFloat.Sign) (e : BitVec 11) (m : BitVec 52) :
    (packComponents Format.binary64 s e m).toNat =
      s.toBitVec.toNat * 2 ^ 63 + e.toNat * 2 ^ 52 + m.toNat := by
  rw [packComponents, BitVec.toNat_append, BitVec.toNat_append,
    ← Nat.shiftLeft_add_eq_or_of_lt m.isLt, ← Nat.shiftLeft_add_eq_or_of_lt e.isLt,
    Nat.shiftLeft_eq, Nat.shiftLeft_eq]
  ring

section Packing

variable {m : ℕ} {e : ℤ}

/-- The exponent of a normal float is stored with an offset, and its leading bit is left out. -/
theorem pack_normal (h : IsNormal m e) (s : UnpackedFloat.Sign) :
    UnpackedFloat.pack Format.binary64 (.finite s m e h.pos) =
      packComponents Format.binary64 s (BitVec.ofNat 11 (e + 1075).toNat) (BitVec.ofNat 52 m) := by
  have hbias : e + Format.binary64.exponentBias + (52 : ℕ) = e + 1075 := by
    rw [show Format.binary64.exponentBias = 1023 from rfl]
    omega
  have hle := h.exponent_le
  have hbits : m.log2 + 1 = Format.binary64.mantissaBits := by rw [h.log2_eq]; rfl
  show (if 2 ^ 11 ≤ (e + Format.binary64.exponentBias + (52 : ℕ)).toNat + 1 then _
    else if m.log2 + 1 = Format.binary64.mantissaBits then
      packComponents Format.binary64 s (BitVec.ofNat 11 (e + Format.binary64.exponentBias +
        (52 : ℕ)).toNat) (BitVec.ofNat 52 m)
    else _) = _
  rw [hbias, if_neg (by omega), if_pos hbits]

theorem unpack_of_normal {bits : BitVec 64}
    (hspecial : @unpackExponent Format.binary64 bits ≠ -1#_)
    (hzero : @unpackExponent Format.binary64 bits ≠ 0#_)
    (hpos : 0 < (1#1 ++ @unpackMantissa Format.binary64 bits).toNat) :
    UnpackedFloat.unpack Format.binary64 bits =
      .finite (.ofBitVec (@unpackSign Format.binary64 bits))
        (1#1 ++ @unpackMantissa Format.binary64 bits).toNat
        ((@unpackExponent Format.binary64 bits).toNat -
          (Format.binary64.exponentBias + (52 : ℕ))) hpos :=
  (if_neg hspecial).trans (if_neg hzero)

theorem unpack_pack_normal (h : IsNormal m e) (s : UnpackedFloat.Sign) :
    (Float.Model.pack (.finite s m e h.pos)).unpack = .finite s m e h.pos := by
  have hlow := h.le_exponent
  have hhigh := h.exponent_le
  have hexponent : (BitVec.ofNat 11 (e + 1075).toNat).toNat = (e + 1075).toNat := by
    rw [BitVec.toNat_ofNat, Nat.mod_eq_of_lt (by omega)]
  have hnot_special : BitVec.ofNat 11 (e + 1075).toNat ≠ -1#_ := fun heq => by
    have hnat := congrArg BitVec.toNat heq
    rw [hexponent, show (-1#11).toNat = 2047 from rfl] at hnat
    omega
  have hnot_zero : BitVec.ofNat 11 (e + 1075).toNat ≠ 0#_ := fun heq => by
    have hnat := congrArg BitVec.toNat heq
    rw [hexponent, show (0#11).toNat = 0 from rfl] at hnat
    omega
  have hsignificand : (1#1 ++ BitVec.ofNat 52 m).toNat = m := by
    have hle := h.le_significand
    have hlt := h.significand_lt
    rw [BitVec.toNat_append, ← Nat.shiftLeft_add_eq_or_of_lt (BitVec.isLt _), Nat.shiftLeft_eq,
      show (1#1).toNat = 1 from rfl, BitVec.toNat_ofNat]
    omega
  have hsign : UnpackedFloat.Sign.ofBitVec s.toBitVec = s := by cases s <;> rfl
  have hunbiased : ((e + 1075).toNat : ℤ) - (Format.binary64.exponentBias + (52 : ℕ)) = e := by
    rw [show Format.binary64.exponentBias = 1023 from rfl]
    omega
  rw [Float.Model.unpack, Float.Model.pack]
  dsimp only
  rw [pack_normal h]
  refine (unpack_of_normal ?_ ?_ ?_).trans (finite_congr ?_ ?_ ?_)
  · rwa [unpackExponent_packComponents]
  · rwa [unpackExponent_packComponents]
  · rw [unpackMantissa_packComponents, hsignificand]
    exact h.pos
  · rw [unpackSign_packComponents, hsign]
  · rw [unpackMantissa_packComponents, hsignificand]
  · rw [unpackExponent_packComponents, hexponent, hunbiased]

theorem toBits_normal (h : IsNormal m e) (s : UnpackedFloat.Sign) :
    (Float.ofModel (Float.Model.pack (.finite s m e h.pos))).toBits.toNat =
      s.toBitVec.toNat * 2 ^ 63 + (e + 1075).toNat * 2 ^ 52 + (m - 2 ^ 52) := by
  have hlow := h.le_significand
  have hlt := h.significand_lt
  have hexponent := h.exponent_le
  show (UnpackedFloat.pack Format.binary64 (.finite s m e h.pos)).toNat = _
  rw [pack_normal h, toNat_packComponents, BitVec.toNat_ofNat, BitVec.toNat_ofNat,
    Nat.mod_eq_of_lt (by omega : (e + 1075).toNat < 2 ^ 11)]
  omega

/-- The parts of a normal float are read off its bits again. -/
theorem ofFloat?_normal (h : IsNormal m e) (s : UnpackedFloat.Sign) :
    FiniteFloat.ofFloat? (.ofModel (Float.Model.pack (.finite s m e h.pos))) =
      some ⟨s == .negative, m, e⟩ := by
  have hlow := h.le_significand
  have hlt := h.significand_lt
  have hleast := h.le_exponent
  have hexponent := h.exponent_le
  have hbits := toBits_normal h s
  rw [FiniteFloat.ofFloat?]
  generalize (Float.ofModel _).toBits.toNat = bits at hbits ⊢
  have hsign : s.toBitVec.toNat = (s == .negative).toNat := by cases s <;> rfl
  have hfield : bits >>> 52 % 2048 = (e + 1075).toNat := by
    have hbit := s.toBitVec.isLt
    rw [Nat.shiftRight_eq_div_pow]
    omega
  have hfraction : bits % 1 <<< 52 = m - 2 ^ 52 := by
    rw [Nat.shiftLeft_eq]
    omega
  have hnegative : decide (1 <<< 63 ≤ bits) = (s == .negative) := by
    rw [Nat.shiftLeft_eq, Bool.eq_iff_iff, decide_eq_true_iff, ← Bool.toNat_eq_one]
    omega
  rw [hfield, hfraction, hnegative, if_neg (by omega), if_neg (by omega)]
  have hsignificand : 1 <<< 52 + (m - 2 ^ 52) = m := by
    rw [Nat.shiftLeft_eq]
    omega
  have hexp : ((e + 1075).toNat : ℤ) - 1075 = e := by omega
  rw [hsignificand, hexp]

end Packing

/-! ## Integers as floats -/

section Floats

variable {a b n : ℤ}

theorem unpack_ofInt (h : n.natAbs < 2 ^ 53) :
    (Float.Model.ofInt n).unpack = UnpackedFloat.ofInt Format.binary64 n := by
  by_cases hn : n = 0
  · subst hn
    rfl
  · obtain ⟨k, -, hnormal⟩ := exists_isNormal hn h
    rw [Float.Model.ofInt, ofInt_eq hn hnormal, unpack_pack_normal hnormal]

theorem toFloat_toUInt64 {n : ℕ} (h : n < 2 ^ 53) :
    (UInt64.toFloat n.toUInt64) = .ofModel (.ofInt n) := by
  show Float.ofModel (.ofInt (n.toUInt64.toNat : ℤ)) = _
  rw [Nat.toUInt64, UInt64.toNat_ofNat_of_lt' (Nat.lt_trans h (by decide))]

theorem ofNat_eq {n : ℕ} (h : n < 2 ^ 53) : Float.ofNat n = .ofModel (.ofInt n) := by
  have hone : Float.ofBits 0x3FF0000000000000 = .ofModel (.ofInt 1) := rfl
  have hscientific : Float.ofNat n = n.toUInt64.toFloat * Float.ofBits 0x3FF0000000000000 := by
    show Float.ofScientific n false 0 = _
    rw [Float.ofScientific, dif_pos ⟨h, by decide⟩]
    rfl
  rw [hscientific, toFloat_toUInt64 h, hone]
  show Float.ofModel (.pack (UnpackedFloat.mul Format.binary64 _ _)) = _
  rw [unpack_ofInt (by omega), unpack_ofInt (by decide), mul_ofInt_one (by omega)]
  rfl

/-- An integer of at most 53 bits is a float of its own. -/
theorem ofInt_eq_ofModel (h : n.natAbs < 2 ^ 53) : Float.ofInt n = .ofModel (.ofInt n) := by
  rcases n with n | n
  · exact ofNat_eq h
  · show Float.ofModel (.pack (Float.ofNat (n + 1)).toModel.unpack.neg) = _
    rw [@ofNat_eq (n + 1) h, unpack_ofInt (by omega), neg_ofInt (by omega) (by omega)]
    rfl

/-- The sum of two floats that are integers is not rounded, if all three have at most 53 bits. -/
theorem ofInt_add_ofInt (ha : a.natAbs < 2 ^ 53) (hb : b.natAbs < 2 ^ 53)
    (hsum : (a + b).natAbs < 2 ^ 53) : Float.ofInt a + Float.ofInt b = Float.ofInt (a + b) := by
  rw [ofInt_eq_ofModel ha, ofInt_eq_ofModel hb, ofInt_eq_ofModel hsum]
  show Float.ofModel (.pack (UnpackedFloat.add Format.binary64 _ _)) = _
  rw [unpack_ofInt ha, unpack_ofInt hb, add_ofInt ha hb hsum]
  rfl

end Floats

end ExactFloat

/-! ## Values -/

/-- The number that the parts make up. -/
def FiniteFloat.value (f : FiniteFloat) : ℚ :=
  (if f.negative then -1 else 1) * (f.significand * 2 ^ f.exponent)

theorem FiniteFloat.abs_value (f : FiniteFloat) :
    |f.value| = f.significand * 2 ^ f.exponent := by
  have hnonneg : (0 : ℚ) ≤ f.significand * 2 ^ f.exponent := by positivity
  rw [value, abs_mul, abs_of_nonneg hnonneg]
  split_ifs
  · rw [abs_neg, abs_one, one_mul]
  · rw [abs_one, one_mul]

/-- The float is finite and has exactly this value. -/
def HasValue (x : Float) (q : ℚ) : Prop := ∃ f, FiniteFloat.ofFloat? x = some f ∧ f.value = q

theorem truncateMagnitude_of_value {f : FiniteFloat} {n : ℕ}
    (h : (f.significand * 2 ^ f.exponent : ℚ) = n) : f.truncateMagnitude = n := by
  rw [FiniteFloat.truncateMagnitude]
  split
  case isTrue hexponent =>
    obtain ⟨k, hk⟩ := Int.eq_ofNat_of_zero_le hexponent
    rw [hk, zpow_natCast] at h
    rw [hk, Int.toNat_natCast, Nat.shiftLeft_eq]
    exact_mod_cast h
  case isFalse hexponent =>
    obtain ⟨k, hk⟩ : ∃ k : ℕ, f.exponent = -k := ⟨(-f.exponent).toNat, by omega⟩
    have hscaled : f.significand = n * 2 ^ k := by
      rw [hk, zpow_neg, zpow_natCast, ← div_eq_mul_inv, div_eq_iff (by positivity)] at h
      exact_mod_cast h
    rw [hk, neg_neg, Int.toNat_natCast, hscaled, Nat.shiftRight_eq_div_pow,
      Nat.mul_div_cancel _ (Nat.two_pow_pos k)]

/-- The integer part of an integer is the integer. -/
theorem integerPart_of_hasValue {x : Float} {n : ℤ} (h : HasValue x n) :
    integerPart x = .ok n := by
  obtain ⟨f, hf, hvalue⟩ := h
  have hmagnitude : (f.significand * 2 ^ f.exponent : ℚ) = n.natAbs := by
    rw [Nat.cast_natAbs, Int.cast_abs, ← hvalue, f.abs_value]
  rw [integerPart, hf]
  dsimp only
  rw [FiniteFloat.truncate, truncateMagnitude_of_value hmagnitude]
  rw [FiniteFloat.value] at hvalue
  split_ifs at hvalue ⊢
  · have hcast : (n : ℚ) ≤ 0 := by linarith
    have hn : n ≤ 0 := by exact_mod_cast hcast
    rw [Int.ofNat_natAbs_of_nonpos hn, neg_neg]
  · have hcast : (0 : ℚ) ≤ n := by linarith
    have hn : 0 ≤ n := by exact_mod_cast hcast
    rw [Int.natAbs_of_nonneg hn]

section Values

open ExactFloat

variable {n : ℤ}

theorem value_signOf (n : ℤ) (k : ℕ) (j : ℕ) :
    FiniteFloat.value ⟨signOf n == .negative, n.natAbs * 2 ^ k, -k - j⟩ = n / 2 ^ j := by
  have hscale : ((n.natAbs * 2 ^ k : ℕ) : ℚ) * 2 ^ (-k - j : ℤ) = n.natAbs / 2 ^ j := by
    rw [zpow_sub₀ (by norm_num), zpow_neg, zpow_natCast, zpow_natCast]
    push_cast
    field_simp
  rw [FiniteFloat.value, hscale, Nat.cast_natAbs]
  dsimp only
  rcases lt_or_ge n 0 with hneg | hnonneg
  · rw [signOf, if_pos hneg, if_pos (by rfl), abs_of_neg hneg]
    push_cast
    ring
  · rw [signOf, if_neg hnonneg.not_gt, if_neg (by decide), abs_of_nonneg hnonneg, one_mul]

/-- An integer of at most 53 bits is the value of its float. -/
theorem hasValue_ofInt (h : n.natAbs < 2 ^ 53) : HasValue (Float.ofInt n) n := by
  by_cases hn : n = 0
  · subst hn
    exact ⟨⟨false, 0, -1074⟩, by decide, by simp [FiniteFloat.value]⟩
  · obtain ⟨k, -, hnormal⟩ := exists_isNormal hn h
    have hparts := ofFloat?_normal hnormal (signOf n)
    have hvalue := value_signOf n k 0
    rw [← ofInt_eq hn hnormal] at hparts
    rw [Nat.cast_zero, sub_zero, pow_zero, div_one] at hvalue
    exact ⟨_, (congrArg _ (ofInt_eq_ofModel h)).trans hparts, hvalue⟩

/-- The quotient by `2 ^ 32` is not rounded. -/
theorem hasValue_ofInt_div (h : n.natAbs < 2 ^ 53) :
    HasValue (Float.ofInt n / 4294967296) (n / 2 ^ 32) := by
  have hdivisor : (4294967296 : Float) = .ofModel (.ofInt 4294967296) := ofNat_eq (by decide)
  have hquotient : Float.ofInt n / 4294967296 = .ofModel (.pack (UnpackedFloat.div Format.binary64
      (UnpackedFloat.ofInt Format.binary64 n)
      (UnpackedFloat.ofInt Format.binary64 4294967296))) := by
    rw [ofInt_eq_ofModel h, hdivisor, ← unpack_ofInt h, ← @unpack_ofInt 4294967296 (by decide)]
    rfl
  rw [hquotient]
  by_cases hn : n = 0
  · subst hn
    exact ⟨⟨false, 0, -1074⟩, by decide, by simp [FiniteFloat.value]⟩
  · obtain ⟨k, hk, hnormal⟩ := exists_isNormal hn h
    have hlower : IsNormal (n.natAbs * 2 ^ k) (-k - 32) :=
      ⟨hnormal.le_significand, hnormal.significand_lt, by omega, by omega⟩
    rw [div_ofInt hn hk hnormal]
    exact ⟨_, ofFloat?_normal hlower (signOf n), value_signOf n k 32⟩

end Values

end Calculator
