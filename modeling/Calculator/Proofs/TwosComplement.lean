import Calculator.Proofs.Wrapping

/-!
# Integers in range are machine words

* `Int64.arithmetic_twosComplement`: on integers in range, the operations are those of 64-bit words
  that are read as signed integers.
* `Int64.divide_remainder_identity`: quotient and remainder of integers of any size make up the
  dividend again, modulo `2 ^ 64`.
* `Int64.tdiv_inRange`: only one quotient of integers in range is out of range.

Proof. Sums, products and negations of words are those of the integers, wrapped; and so is the
signed quotient. A remainder is below the divisor in magnitude, so there is nothing to wrap. As for
the identity, wrapping stays in the class modulo `2 ^ 64`, so the three wraps can be left out but
for the last one.
-/

namespace Calculator

variable {σ : Type}

namespace Int64

variable {a b : Int}

/-! ## Words -/

/-- Wrapping reads the last 64 bits as a signed integer. -/
theorem wrap_eq_toInt (n : Int) : wrap n = (BitVec.ofInt 64 n).toInt :=
  (@BitVec.toInt_ofInt 64 n).symm

theorem toInt_ofInt_of_inRange (h : InRange a) : (BitVec.ofInt 64 a).toInt = a := by
  rw [← wrap_eq_toInt, wrap_of_inRange h]

theorem wrap_toInt (x : BitVec 64) : wrap x.toInt = x.toInt := by
  rw [wrap_eq_toInt, BitVec.ofInt_toInt]

/-- The magnitude of a word is its negation where the sign bit is set. -/
theorem abs_toInt (x : BitVec 64) : abs x.toInt = x.abs.toInt := by
  rw [BitVec.abs_eq, BitVec.msb_eq_toInt, abs]
  by_cases hx : x.toInt < 0
  · rw [if_pos hx, if_pos (decide_eq_true hx)]
    exact BitVec.toInt_neg.symm
  · rw [if_neg hx, if_neg (by simpa using hx), wrap_toInt]

theorem call1_abs (a : Int) :
    (int64 : NumericType σ Int).call1 (Text.ofString "abs") a = .ok (abs a) := rfl

theorem divide_of_ne_zero (hb : b ≠ 0) : divide a b = .ok (wrap (a.tdiv b)) := if_neg hb

theorem remainder_of_ne_zero (hb : b ≠ 0) : remainder a b = .ok (a.tmod b) := if_neg hb

/-- The quotient of integers in range is in range, but for the one of the least value by `-1`. -/
theorem tdiv_inRange (ha : InRange a) (h : ¬ (a = -2 ^ 63 ∧ b = -1)) : InRange (a.tdiv b) := by
  have hquotient : (a.tdiv b).natAbs = a.natAbs / b.natAbs := Int.natAbs_tdiv a b
  have hle : a.natAbs / b.natAbs ≤ a.natAbs := Nat.div_le_self _ _
  rw [InRange] at *
  by_cases hleast : a = -2 ^ 63
  · -- The magnitude of the least value is one too many, so the quotient must not be its opposite.
    subst hleast
    by_cases hone : b = 1
    · subst hone
      decide
    · by_cases hzero : b = 0
      · subst hzero
        decide
      · have hhalf : (-2 ^ 63 : Int).natAbs / b.natAbs ≤ (-2 ^ 63 : Int).natAbs / 2 :=
          Nat.div_le_div_left (by omega) (by decide)
        have heq : (-2 ^ 63 : Int).natAbs / 2 = 2 ^ 62 := by decide
        omega
  · omega

/-- **Integers in range are machine words.** On integers in range, the operations give the signed
readings of what the operations on 64-bit words give, although the remainder is not wrapped and of
the quotient nothing but the result is. All quotients are truncated toward zero but one: the
magnitude of the least value is no value, so the least value stays as it is when it is negated, when
its magnitude is taken, and when it is divided by `-1`. -/
theorem arithmetic_twosComplement (ha : InRange a) (hb : InRange b) :
    let type : NumericType σ Int := int64
    let x := BitVec.ofInt 64 a
    let y := BitVec.ofInt 64 b
    (x.toInt = a ∧ y.toInt = b) ∧
    type.add a b = .ok (x + y).toInt ∧
    type.subtract a b = .ok (x - y).toInt ∧
    type.multiply a b = .ok (x * y).toInt ∧
    type.negate a = .ok (-x).toInt ∧
    type.call1 (Text.ofString "abs") a = .ok x.abs.toInt ∧
    (a = -2 ^ 63 → type.negate a = .ok a ∧ type.call1 (Text.ofString "abs") a = .ok a) ∧
    (b ≠ 0 →
      type.divide a b = .ok (x.sdiv y).toInt ∧
      type.remainder a b = .ok (x.srem y).toInt ∧
      (x.sdiv y).toInt = (if a = -2 ^ 63 ∧ b = -1 then -2 ^ 63 else a.tdiv b) ∧
      (x.srem y).toInt = a.tmod b) := by
  intro type x y
  have hx : x.toInt = a := toInt_ofInt_of_inRange ha
  have hy : y.toInt = b := toInt_ofInt_of_inRange hb
  clear_value x y
  subst hx hy
  have hquotient : wrap (x.toInt.tdiv y.toInt) = (x.sdiv y).toInt := (BitVec.toInt_sdiv x y).symm
  have hremainder : (x.srem y).toInt = x.toInt.tmod y.toInt := BitVec.toInt_srem x y
  refine ⟨⟨rfl, rfl⟩, congrArg Except.ok (BitVec.toInt_add x y).symm,
    congrArg Except.ok BitVec.toInt_sub.symm, congrArg Except.ok (BitVec.toInt_mul x y).symm,
    congrArg Except.ok BitVec.toInt_neg.symm,
    (call1_abs _).trans (congrArg Except.ok (abs_toInt x)), ?_, ?_⟩
  · intro hleast
    rw [hleast]
    exact ⟨rfl, rfl⟩
  · intro hzero
    refine ⟨(divide_of_ne_zero hzero).trans (congrArg Except.ok hquotient),
      (remainder_of_ne_zero hzero).trans (congrArg Except.ok hremainder.symm), ?_, hremainder⟩
    rw [← hquotient]
    split
    · next h =>
      rw [h.1, h.2]
      rfl
    · next h => exact wrap_of_inRange (tdiv_inRange ha h)

/-- The quotient that overflows, and a remainder. -/
theorem arithmetic_twosComplement_least :
    let type : NumericType RandomSource Int := int64
    type.divide (-9223372036854775808) (-1) = .ok (-9223372036854775808) ∧
      type.remainder (-9223372036854775808) (-1) = .ok 0 ∧
      type.subtract (-9223372036854775808) (-1) =
        .ok (BitVec.ofInt 64 (-9223372036854775808) - BitVec.ofInt 64 (-1)).toInt := by
  intro type
  obtain ⟨-, -, hsubtract, -, -, -, -, hdivide⟩ :=
    @arithmetic_twosComplement RandomSource (-9223372036854775808) (-1) (by decide) (by decide)
  obtain ⟨hquotient, hremainder, hvalue, hrest⟩ := hdivide (by decide)
  refine ⟨?_, ?_, hsubtract⟩
  · rw [hquotient, hvalue]
    rfl
  · rw [hremainder, hrest]
    rfl

/-! ## Quotient and remainder -/

/-- An operation that asks for a divisor fails for zero only. -/
theorem guarded_eq_error_iff {b result : Int} {fault f : Fault} :
    (if b = 0 then .error fault else .ok result : Except Fault Int) = .error f ↔
      b = 0 ∧ f = fault := by
  by_cases hb : b = 0
  · simp [hb, eq_comm]
  · simp [hb]

theorem divide_eq_error_iff (a b : Int) (f : Fault) :
    divide a b = .error f ↔ b = 0 ∧ f = .error (.evaluation .divisionByZero) :=
  guarded_eq_error_iff

theorem remainder_eq_error_iff (a b : Int) (f : Fault) :
    remainder a b = .error f ↔ b = 0 ∧ f = .error (.evaluation .remainderByZero) :=
  guarded_eq_error_iff

theorem abs_tmod_lt (a : Int) (hb : b ≠ 0) : |a.tmod b| < |b| := by
  have hnatAbs : (a.tmod b).natAbs = a.natAbs % b.natAbs := Int.natAbs_tmod a b
  have hlt : a.natAbs % b.natAbs < b.natAbs := Nat.mod_lt _ (Int.natAbs_pos.2 hb)
  rw [Int.abs_eq_natAbs, Int.abs_eq_natAbs, hnatAbs]
  exact Int.ofNat_lt.2 hlt

theorem tmod_eq_zero_or_sign (a b : Int) : a.tmod b = 0 ∨ (a.tmod b).sign = a.sign := by
  have hsign := Int.sign_tmod a b
  split at hsign
  · exact .inl (Int.sign_eq_zero_iff_zero.1 hsign)
  · exact .inr hsign

/-- Wraps inside of a wrapped sum of a product can be left out. -/
theorem wrap_divide_identity (a b : Int) :
    wrap (wrap (wrap (a.tdiv b) * b) + a.tmod b) = wrap a := by
  refine wrap_congr ?_
  calc wrap (wrap (a.tdiv b) * b) + a.tmod b
      ≡ wrap (a.tdiv b) * b + a.tmod b [ZMOD 2 ^ 64] := (wrap_modEq _).add_right _
    _ ≡ a.tdiv b * b + a.tmod b [ZMOD 2 ^ 64] := ((wrap_modEq _).mul_right b).add_right _
    _ = a := Int.tdiv_mul_add_tmod a b

/-- **Division identity.** Quotient and remainder of any two integers fail only for the divisor
zero. Else the remainder is below the divisor in magnitude and has the sign of the dividend, if it
has one, and the quotient times the divisor and the remainder add up to the dividend, wrapped. This
is so as well where the quotient is out of range. -/
theorem divide_remainder_identity (a b : Int) :
    let type : NumericType σ Int := int64
    (∀ f, type.divide a b = .error f ↔ b = 0 ∧ f = .error (.evaluation .divisionByZero)) ∧
    (∀ f, type.remainder a b = .error f ↔ b = 0 ∧ f = .error (.evaluation .remainderByZero)) ∧
    (b ≠ 0 → ∃ r, type.remainder a b = .ok r ∧ |r| < |b| ∧ (r = 0 ∨ r.sign = a.sign) ∧
      (do
        let quotient ← type.divide a b
        let product ← type.multiply quotient b
        let rest ← type.remainder a b
        type.add product rest) = .ok (wrap a)) := by
  intro type
  refine ⟨divide_eq_error_iff a b, remainder_eq_error_iff a b, fun hb => ?_⟩
  have hquotient : type.divide a b = .ok (wrap (a.tdiv b)) := divide_of_ne_zero hb
  have hremainder : type.remainder a b = .ok (a.tmod b) := remainder_of_ne_zero hb
  refine ⟨a.tmod b, hremainder, abs_tmod_lt a hb, tmod_eq_zero_or_sign a b, ?_⟩
  rw [hquotient, hremainder]
  exact congrArg Except.ok (wrap_divide_identity a b)

/-- The quotient that overflows, and a dividend of more than 64 bits. -/
theorem divide_remainder_identity_overflow :
    let type : NumericType RandomSource Int := int64
    (∃ r, type.remainder (-9223372036854775808) (-1) = .ok r ∧ |r| < 1) ∧
      ∃ r, type.remainder (-36893488147419103237) 3 = .ok r ∧ (r = 0 ∨ r.sign = -1) ∧
        (do
          let quotient ← type.divide (-36893488147419103237) 3
          let product ← type.multiply quotient 3
          let rest ← type.remainder (-36893488147419103237) 3
          type.add product rest) = .ok (-5) := by
  intro type
  obtain ⟨-, -, hleast⟩ :=
    @divide_remainder_identity RandomSource (-9223372036854775808) (-1)
  obtain ⟨-, -, hlarge⟩ := @divide_remainder_identity RandomSource (-36893488147419103237) 3
  obtain ⟨r, hr, hlt, -⟩ := hleast (by decide)
  obtain ⟨r', hr', -, hsign, hidentity⟩ := hlarge (by decide)
  have hwrap : wrap (-36893488147419103237) = -5 := by decide
  exact ⟨⟨r, hr, hlt⟩, r', hr', hsign, hwrap ▸ hidentity⟩

end Int64

end Calculator
