import Calculator.Proofs.TwosComplement
import Mathlib.Algebra.Order.Field.Power
import Mathlib.Algebra.Order.Floor.Ring
import Mathlib.Data.Nat.Size
import Mathlib.Data.Rat.Floor

/-!
# Powers of integers

`Int64.power_truncates`: the power of integers of any size is the exact rational power, truncated
toward zero and wrapped, and it fails for a negative power of zero only.

* `truncate`: a rational number without its fraction.
* `PowerState.round`: one round of square and multiply, and `PowerState.exponent_iterate`, what is
  left of the exponent after some.
* `PowerState.result_iterate`: after as many rounds as the exponent has bits, the power is there.

Proof. Square and multiply keeps the class of `result · base ^ exponent` modulo `2 ^ 64` and the
result in range, which together fix the result. A negative power of an integer is the inverse of a
power. Units are their own inverses, and any other inverse is below one in magnitude.
-/

namespace Calculator

variable {σ : Type}

/-! ## Truncation -/

/-- The integer next to a rational number on the way to zero. -/
def truncate (q : ℚ) : Int := if 0 ≤ q then ⌊q⌋ else ⌈q⌉

theorem truncate_intCast (n : Int) : truncate n = n := by
  unfold truncate
  split
  · exact Int.floor_intCast n
  · exact Int.ceil_intCast n

theorem truncate_of_abs_lt_one {q : ℚ} (h : |q| < 1) : truncate q = 0 := by
  obtain ⟨hlow, hhigh⟩ := abs_lt.1 h
  unfold truncate
  split
  · next hq => exact Int.floor_eq_zero_iff.2 ⟨hq, hhigh⟩
  · next hq => exact Int.ceil_eq_zero_iff.2 ⟨hlow, (not_le.1 hq).le⟩

/-- A negative power of an integer that is no unit has nothing in front of the point. -/
theorem truncate_zpow_of_neg {base exponent : Int} (hbase : 1 < |base|) (hexponent : exponent < 0) :
    truncate ((base : ℚ) ^ exponent) = 0 := by
  have hone : (1 : ℚ) < |(base : ℚ)| := by exact_mod_cast hbase
  refine truncate_of_abs_lt_one ?_
  rw [abs_zpow]
  exact zpow_lt_one_of_neg₀ hone hexponent

example : truncate (-7 / 2) = -3 := by decide +kernel

namespace Int64

/-! ## Square and multiply -/

/-- The loop of square and multiply between two rounds. -/
structure PowerState where
  result : Int
  base : Int
  exponent : Nat

namespace PowerState

/-- One round: the last bit of the exponent tells whether to multiply, and the base is squared. -/
def round (s : PowerState) : PowerState where
  result := if s.exponent % 2 = 1 then wrap (s.result * s.base) else s.result
  base := wrap (s.base * s.base)
  exponent := s.exponent / 2

/-- What the loop gives from here on. -/
def power (s : PowerState) : Int := powerLoop s.result s.base s.exponent

/-- Each round takes a bit of the exponent away. -/
theorem exponent_iterate (s : PowerState) (k : Nat) :
    (round^[k] s).exponent = s.exponent / 2 ^ k := by
  induction k generalizing s with
  | zero => exact (Nat.div_one _).symm
  | succ k ih =>
    rw [Function.iterate_succ_apply, ih, round, Nat.div_div_eq_div_mul, Nat.pow_succ']

theorem power_of_exponent_eq_zero {s : PowerState} (h : s.exponent = 0) : s.power = s.result := by
  rw [power, powerLoop, if_pos h]

theorem power_round (s : PowerState) : s.round.power = s.power := by
  by_cases h : s.exponent = 0
  · -- Further rounds do no harm.
    have hround : s.round.exponent = 0 := by rw [round, h]
    rw [power_of_exponent_eq_zero h, power_of_exponent_eq_zero hround, round, h]
    rfl
  · rw [power, power, powerLoop.eq_1 s.result, if_neg h]
    rfl

theorem power_iterate (s : PowerState) (k : Nat) : (round^[k] s).power = s.power := by
  induction k generalizing s with
  | zero => rfl
  | succ k ih => rw [Function.iterate_succ_apply, ih, power_round]

theorem exponent_iterate_eq_zero_iff (s : PowerState) (k : Nat) :
    (round^[k] s).exponent = 0 ↔ s.exponent.size ≤ k := by
  rw [exponent_iterate, Nat.div_eq_zero_iff, Nat.size_le]
  simp

/-- After as many rounds as the exponent has bits, the result is there. -/
theorem result_iterate (s : PowerState) {k : Nat} (hk : s.exponent.size ≤ k) :
    (round^[k] s).result = s.power := by
  rw [← power_iterate s k, power_of_exponent_eq_zero ((exponent_iterate_eq_zero_iff s k).2 hk)]

end PowerState

/-- Square and multiply gives the wrapped power. -/
theorem powerLoop_eq_wrap (base : Int) (exponent : Nat) :
    powerLoop 1 (wrap base) exponent = wrap (base ^ exponent) := by
  have hrange := powerLoop_inRange (by decide : InRange 1) (wrap base) exponent
  exact (eq_toInt_of_modEq hrange (powerLoop_wrap_modEq base exponent)).trans
    (wrap_eq_toInt _).symm

/-! ## Powers -/

theorem power_of_nonneg (base : Int) {exponent : Int} (h : 0 ≤ exponent) :
    power base exponent = .ok (wrap (truncate ((base : ℚ) ^ exponent))) := by
  obtain ⟨n, rfl⟩ := Int.eq_ofNat_of_zero_le h
  have hexact : truncate ((base : ℚ) ^ (n : Int)) = base ^ n := by
    rw [zpow_natCast, ← Int.cast_pow]
    exact truncate_intCast (base ^ n)
  rw [hexact, ← powerLoop_eq_wrap]
  exact if_pos h

/-- The powers of `-1` with negative exponents are units as well. -/
theorem negOne_zpow (exponent : Int) :
    ((-1 : Int) : ℚ) ^ exponent = ((if exponent % 2 = 0 then 1 else -1 : Int) : ℚ) := by
  rw [Int.cast_neg, Int.cast_one]
  split
  · next heven =>
    rw [(Int.even_iff.2 heven).neg_one_zpow, Int.cast_one]
  · next hodd =>
    rw [(Int.not_even_iff_odd.1 fun h => hodd (Int.even_iff.1 h)).neg_one_zpow, Int.cast_neg,
      Int.cast_one]

/-- With a negative exponent, only the powers of units do not vanish. -/
theorem power_of_neg {base exponent : Int} (hbase : base ≠ 0) (h : exponent < 0) :
    power base exponent = .ok (wrap (truncate ((base : ℚ) ^ exponent))) := by
  unfold power
  rw [if_neg (not_le.2 h), if_neg hbase]
  by_cases hone : base = 1
  · subst hone
    have hexact : ((1 : Int) : ℚ) ^ exponent = ((1 : Int) : ℚ) := by rw [Int.cast_one, one_zpow]
    rw [if_pos rfl, hexact, truncate_intCast]
    rfl
  · rw [if_neg hone]
    by_cases hneg : base = -1
    · subst hneg
      rw [if_pos rfl, negOne_zpow, truncate_intCast]
      split <;> rfl
    · have habs : 1 < |base| := by
        rw [Int.abs_eq_natAbs]
        omega
      rw [if_neg hneg, truncate_zpow_of_neg habs h]
      rfl

/-- **Powers are truncated and wrapped.** The power of any two integers, of whatever size, fails for
a negative power of zero only. Else it is the exact rational power, truncated toward zero and read
in the last 64 bits as a signed integer. For an exponent that is not negative, the loop of square
and multiply ends after exactly as many rounds as the exponent has bits, with the wrapped power. -/
theorem power_truncates (base exponent : Int) :
    let type : NumericType σ Int := int64
    type.power base exponent =
      (if base = 0 ∧ exponent < 0 then .error (.error (.evaluation .zeroToNegativePower))
      else .ok (BitVec.ofInt 64 (truncate ((base : ℚ) ^ exponent))).toInt) ∧
    ∀ n : Nat,
      powerLoop 1 (wrap base) n = wrap (base ^ n) ∧
      ∀ k, ((PowerState.round^[k] ⟨1, wrap base, n⟩).exponent = 0 ↔ n.size ≤ k) ∧
        (n.size ≤ k → (PowerState.round^[k] ⟨1, wrap base, n⟩).result = wrap (base ^ n)) := by
  intro type
  refine ⟨?_, fun n => ⟨powerLoop_eq_wrap base n, fun k => ?_⟩⟩
  · rw [← wrap_eq_toInt]
    rcases Int.lt_or_le exponent 0 with hneg | hnonneg
    · by_cases hbase : base = 0
      · subst hbase
        rw [if_pos ⟨rfl, hneg⟩]
        exact (if_neg (not_le.2 hneg)).trans (if_pos rfl)
      · rw [if_neg fun h => hbase h.1]
        exact power_of_neg hbase hneg
    · rw [if_neg fun h => not_lt.2 hnonneg h.2]
      exact power_of_nonneg base hnonneg
  · let first : PowerState := ⟨1, wrap base, n⟩
    refine ⟨first.exponent_iterate_eq_zero_iff k, fun hk => ?_⟩
    exact (first.result_iterate hk).trans (powerLoop_eq_wrap base n)

/-- A power that overflows on the way, and a base that is not wrapped to a unit. -/
theorem power_truncates_overflow :
    let type : NumericType RandomSource Int := int64
    (PowerState.round^[6] ⟨1, wrap 3, 41⟩).result = wrap (3 ^ 41) ∧
      type.power 18446744073709551617 (-1) = .ok 0 := by
  intro type
  obtain ⟨-, hloop⟩ := @power_truncates RandomSource 3 41
  obtain ⟨hpower, -⟩ := @power_truncates RandomSource 18446744073709551617 (-1)
  have hvanishes : truncate (((18446744073709551617 : Int) : ℚ) ^ (-1 : Int)) = 0 :=
    truncate_zpow_of_neg (by decide) (by decide)
  refine ⟨((hloop 41).2 6).2 (Nat.size_le.2 (by decide)), ?_⟩
  rw [hpower, hvanishes]
  rfl

end Int64

end Calculator
