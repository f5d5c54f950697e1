import Calculator.Proofs.ExactFloat
import Mathlib.Algebra.Order.Group.Unbundled.Abs

/-!
# The nearest float

What it means that a number is rounded to a float, and that it is rounded to one float only.

* `IsNearest`: the float that a number is rounded to, ties to even, with infinity above all floats.
* `IsNearest.unique`: a number is rounded to one float.
* `IsCanonical.succ_le`: the parts of floats are in the order of the exponents first.
* `ofFloat?_ofParts`, `pack_overflow`: the float with given parts, and infinity if they are too
  large.

Proof. Of two floats on both sides of a number and as near to it, the lower one has a neighbour,
whose significand is one greater. If both significands are even, that neighbour lies strictly
between the two, so that it is nearer than both.
-/

namespace Calculator

open Float.Model Float.Model.UnpackedFloat

/-! ## The nearest float -/

/-- A candidate for a number, with its significand, is as good as another number: it is not farther
away, and if it is only as near, the two are the same or its significand is even. -/
def AsGood (q v : ℚ) (m : ℕ) (w : ℚ) : Prop :=
  |q - v| ≤ |q - w| ∧ (|q - v| = |q - w| → w = v ∨ Even m)

/-- No other float is better for the number. -/
def FiniteFloat.IsNearest (f : FiniteFloat) (q : ℚ) : Prop :=
  ∀ y g, FiniteFloat.ofFloat? y = some g → AsGood q f.value f.significand g.value

/-- The middle between the greatest float and the next power of two. -/
def overflowBound : ℚ := 2 ^ 1024 - 2 ^ 970

/-- The float that a number, which is not negative, is rounded to: the nearest one, or infinity from
the middle between the greatest float and the next power of two on. -/
inductive IsNearest (q : ℚ) : Float → Prop
  | finite {x : Float} {f : FiniteFloat} : FiniteFloat.ofFloat? x = some f → f.negative = false →
      q < overflowBound → f.IsNearest q → IsNearest q x
  | infinite : overflowBound ≤ q → IsNearest q (1 / 0)

/-! ## The order of parts -/

namespace IsCanonical

variable {m m' : ℕ} {e e' : ℤ}

theorem zero : IsCanonical 0 (-1074) := ⟨by decide, le_rfl, .inl rfl⟩

/-- A greater exponent makes a greater number, with at least a unit between the two. -/
theorem succ_le_of_exponent_lt (h : IsCanonical m e) (h' : IsCanonical m' e') (he : e < e') :
    (m + 1) * 2 ^ e ≤ (m' * 2 ^ e' : ℚ) := by
  have hfull : 2 ^ 52 ≤ m' := h'.full.resolve_left (by have := h.le_exponent; omega)
  have hsucc : (m + 1 : ℚ) ≤ 2 ^ 53 := by exact_mod_cast h.significand_lt
  have hfull' : (2 ^ 52 : ℚ) ≤ m' := by exact_mod_cast hfull
  calc (m + 1) * (2 : ℚ) ^ e ≤ 2 ^ 53 * 2 ^ e := by gcongr
    _ = 2 ^ 52 * 2 ^ (e + 1) := by rw [zpow_add_one₀ two_ne_zero]; ring
    _ ≤ m' * 2 ^ e' := by gcongr; exacts [one_le_two, he]

/-- The next greater float is at least a unit greater. -/
theorem succ_le (h : IsCanonical m e) (h' : IsCanonical m' e')
    (hlt : (m * 2 ^ e : ℚ) < m' * 2 ^ e') : (m + 1) * 2 ^ e ≤ (m' * 2 ^ e' : ℚ) := by
  rcases lt_trichotomy e e' with he | rfl | he
  · exact h.succ_le_of_exponent_lt h' he
  · have hunit : (0 : ℚ) < 2 ^ e := by positivity
    have hm : m < m' := by exact_mod_cast lt_of_mul_lt_mul_right hlt hunit.le
    exact mul_le_mul_of_nonneg_right (by exact_mod_cast hm) hunit.le
  · have hle := h'.succ_le_of_exponent_lt h he
    have hunit : (0 : ℚ) < 2 ^ e' := by positivity
    linarith

/-- A number has one way to be made up. -/
theorem eq_of_value_eq (h : IsCanonical m e) (h' : IsCanonical m' e')
    (heq : (m * 2 ^ e : ℚ) = m' * 2 ^ e') : m = m' ∧ e = e' := by
  have hunit : (0 : ℚ) < 2 ^ e := by positivity
  have hunit' : (0 : ℚ) < 2 ^ e' := by positivity
  rcases lt_trichotomy e e' with he | rfl | he
  · have hle := h.succ_le_of_exponent_lt h' he
    linarith
  · exact ⟨by exact_mod_cast mul_right_cancel₀ hunit.ne' heq, rfl⟩
  · have hle := h'.succ_le_of_exponent_lt h he
    linarith

end IsCanonical

/-! ## Floats and their parts -/

namespace Rounding

/-- The float with the given parts. -/
def ofParts (s : UnpackedFloat.Sign) (m : ℕ) (e : ℤ) : UnpackedFloat :=
  if h : m = 0 then .zero s else .finite s m e (Nat.pos_of_ne_zero h)

section Parts

variable {m : ℕ} {e : ℤ} {x : Float} {f : FiniteFloat}

/-- The bits of a float, by its parts. -/
theorem ofFloat?_cases (h : FiniteFloat.ofFloat? x = some f) :
    (f.exponent = -1074 ∧ f.significand < 2 ^ 52 ∧
      x.toBits.toNat = f.negative.toNat * 2 ^ 63 + f.significand) ∨
    IsNormal f.significand f.exponent ∧
      x.toBits.toNat = f.negative.toNat * 2 ^ 63 + (f.exponent + 1075).toNat * 2 ^ 52 +
        (f.significand - 2 ^ 52) := by
  have hlt : x.toBits.toNat < 2 ^ 64 := x.toBits.toNat_lt
  rw [FiniteFloat.ofFloat?] at h
  generalize x.toBits.toNat = bits at h hlt ⊢
  have hfield : bits >>> 52 % 2048 = bits / 2 ^ 52 % 2048 := by rw [Nat.shiftRight_eq_div_pow]
  have hfraction : bits % 1 <<< 52 = bits % 2 ^ 52 := by rw [Nat.shiftLeft_eq, one_mul]
  have hnegative : (decide (1 <<< 63 ≤ bits)).toNat = bits / 2 ^ 63 := by
    rw [Nat.shiftLeft_eq, one_mul]
    by_cases hle : 2 ^ 63 ≤ bits
    · rw [decide_eq_true hle, Bool.toNat_true]
      omega
    · rw [decide_eq_false hle, Bool.toNat_false]
      omega
  rw [hfield, hfraction] at h
  split_ifs at h with hspecial hzero
  · obtain rfl := Option.some.inj h
    refine .inl ⟨rfl, Nat.mod_lt _ (by decide), ?_⟩
    rw [hnegative]
    dsimp only
    omega
  · obtain rfl := Option.some.inj h
    refine .inr ⟨⟨?_, ?_, ?_, ?_⟩, ?_⟩
    · exact Nat.le_add_right _ _
    · show 1 <<< 52 + bits % 2 ^ 52 < _
      omega
    · show -1074 ≤ ((bits / 2 ^ 52 % 2048 : ℕ) : ℤ) - 1075
      omega
    · show ((bits / 2 ^ 52 % 2048 : ℕ) : ℤ) - 1075 ≤ 971
      omega
    · rw [hnegative]
      dsimp only
      rw [Nat.shiftLeft_eq, one_mul]
      omega

theorem ofFloat?_isCanonical (h : FiniteFloat.ofFloat? x = some f) :
    IsCanonical f.significand f.exponent ∧ f.exponent ≤ 971 := by
  rcases ofFloat?_cases h with ⟨he, hm, -⟩ | ⟨hnormal, -⟩
  · rw [he]
    exact ⟨⟨Nat.lt_trans hm (by decide), le_rfl, .inl rfl⟩, by decide⟩
  · exact ⟨hnormal.isCanonical, hnormal.exponent_le⟩

theorem pack_subnormal (h : m < 2 ^ 52) (s : UnpackedFloat.Sign) :
    UnpackedFloat.pack Format.binary64 (ofParts s m (-1074)) =
      packComponents Format.binary64 s 0#11 (BitVec.ofNat 52 m) := by
  by_cases hm : m = 0
  · rw [hm]
    rfl
  · have hlog : m.log2 + 1 ≠ Format.binary64.mantissaBits := by
      have hless := (Nat.log2_lt hm).2 h
      rw [show Format.binary64.mantissaBits = 53 from rfl]
      omega
    have hexponent :
        ¬2 ^ 11 ≤ ((-1074 : ℤ) + Format.binary64.exponentBias + (52 : ℕ)).toNat + 1 := by
      decide
    rw [ofParts, dif_neg hm]
    show (if 2 ^ 11 ≤ ((-1074 : ℤ) + Format.binary64.exponentBias + (52 : ℕ)).toNat + 1 then
        packedInfinity Format.binary64 s
      else if m.log2 + 1 = Format.binary64.mantissaBits then
        packComponents Format.binary64 s
          (BitVec.ofNat 11 ((-1074 : ℤ) + Format.binary64.exponentBias + (52 : ℕ)).toNat)
          (BitVec.ofNat 52 m)
      else packComponents Format.binary64 s 0#11 (BitVec.ofNat 52 m)) = _
    rw [if_neg hexponent, if_neg hlog]

/-- The parts of a small float are read off its bits again. -/
theorem ofFloat?_subnormal (h : m < 2 ^ 52) :
    FiniteFloat.ofFloat? (.ofModel (.pack (ofParts .positive m (-1074)))) =
      some ⟨false, m, -1074⟩ := by
  have hbits : (Float.ofModel (.pack (ofParts .positive m (-1074)))).toBits.toNat = m := by
    show (UnpackedFloat.pack Format.binary64 (ofParts .positive m (-1074))).toNat = m
    have hsignificand : (BitVec.ofNat 52 m).toNat = m := Nat.mod_eq_of_lt h
    rw [pack_subnormal h, ExactFloat.toNat_packComponents, hsignificand]
    exact Nat.zero_add m
  have hfield : m >>> 52 % 2048 = 0 := by
    rw [Nat.shiftRight_eq_div_pow, Nat.div_eq_of_lt h]
  have hfraction : m % 1 <<< 52 = m := Nat.mod_eq_of_lt h
  have hnegative : decide (1 <<< 63 ≤ m) = false :=
    decide_eq_false (not_le.2 (Nat.lt_trans h (by decide)))
  rw [FiniteFloat.ofFloat?, hbits, hfield, hfraction, hnegative, if_neg (by decide), if_pos rfl]

theorem pack_overflow (h : IsCanonical m e) (he : 971 < e) :
    Float.ofModel (.pack (ofParts .positive m e)) = 1 / 0 := by
  have hm : m ≠ 0 := Nat.ne_zero_of_lt (h.full.resolve_left (by omega))
  have hbiased : 2 ^ 11 ≤ (e + Format.binary64.exponentBias + (52 : ℕ)).toNat + 1 := by
    rw [show Format.binary64.exponentBias = 1023 from rfl]
    omega
  have hpack : UnpackedFloat.pack Format.binary64 (ofParts .positive m e) =
      UnpackedFloat.pack Format.binary64 (.infinity .positive) := by
    rw [ofParts, dif_neg hm]
    exact if_pos hbiased
  have hmodel : Float.Model.pack (ofParts .positive m e) = .pack (.infinity .positive) := by
    rw [Float.Model.pack, Float.Model.pack, Float.Model.mk.injEq, hpack]
  rw [hmodel]
  rfl

theorem ofFloat?_ofParts (h : IsCanonical m e) (he : e ≤ 971) :
    FiniteFloat.ofFloat? (.ofModel (.pack (ofParts .positive m e))) = some ⟨false, m, e⟩ := by
  rcases Nat.lt_or_ge m (2 ^ 52) with hsmall | hfull
  · rw [h.full.resolve_right (not_le.2 hsmall)]
    exact ofFloat?_subnormal hsmall
  · have hnormal : IsNormal m e := ⟨hfull, h.significand_lt, h.le_exponent, he⟩
    rw [ofParts, dif_neg hnormal.pos.ne']
    exact ExactFloat.ofFloat?_normal hnormal .positive

end Parts

/-! ## Uniqueness -/

section Uniqueness

variable {x y : Float} {f g : FiniteFloat} {q : ℚ}

theorem eq_of_ofFloat? (hx : FiniteFloat.ofFloat? x = some f)
    (hy : FiniteFloat.ofFloat? y = some f) : x = y := by
  have hbits : x.toBits = y.toBits := by
    rw [← UInt64.toNat_inj]
    rcases ofFloat?_cases hx with ⟨-, hm, hx⟩ | ⟨hnormal, hx⟩
    · rcases ofFloat?_cases hy with ⟨-, -, hy⟩ | ⟨hnormal, -⟩
      · rw [hx, hy]
      · exact absurd hm (not_lt.2 hnormal.le_significand)
    · rcases ofFloat?_cases hy with ⟨-, hm, -⟩ | ⟨-, hy⟩
      · exact absurd hm (not_lt.2 hnormal.le_significand)
      · rw [hx, hy]
  obtain ⟨⟨a, ha⟩⟩ := x
  obtain ⟨⟨b, hb⟩⟩ := y
  obtain rfl : a = b := hbits
  rfl

theorem value_of_not_negative (h : f.negative = false) :
    f.value = f.significand * 2 ^ f.exponent := by
  rw [FiniteFloat.value, h, if_neg Bool.false_ne_true, one_mul]

/-- Above a float with an even significand and below any greater float with one there is another
float, and what is in the middle is nearer to that. -/
theorem not_tie (hx : FiniteFloat.ofFloat? x = some f) (hy : FiniteFloat.ofFloat? y = some g)
    (hf : f.negative = false) (hg : g.negative = false) (hlt : f.value < g.value)
    (hevenf : Even f.significand) (heveng : Even g.significand) (hnear : f.IsNearest q) :
    |q - f.value| ≠ |q - g.value| := by
  intro htie
  obtain ⟨hcanonical, hexponent⟩ := ofFloat?_isCanonical hx
  obtain ⟨hcanonical', -⟩ := ofFloat?_isCanonical hy
  have hsucc : IsCanonical (f.significand + 1) f.exponent := by
    have hm := hcanonical.significand_lt
    have hodd := Nat.even_iff.1 hevenf
    exact ⟨by omega, hcanonical.le_exponent, hcanonical.full.imp_right (by omega)⟩
  have hbetween := (hnear _ _ (ofFloat?_ofParts hsucc hexponent)).1
  have hvalue : FiniteFloat.value ⟨false, f.significand + 1, f.exponent⟩ =
      (f.significand + 1) * 2 ^ f.exponent := by
    rw [value_of_not_negative rfl, Nat.cast_succ]
  rw [hvalue] at hbetween
  rw [value_of_not_negative hf] at hlt htie hbetween
  rw [value_of_not_negative hg] at hlt htie
  have hbelow := hcanonical.succ_le hcanonical' hlt
  have hnot : ((f.significand + 1) * 2 ^ f.exponent : ℚ) ≠ g.significand * 2 ^ g.exponent := by
    intro heq
    rw [← Nat.cast_succ] at heq
    have hodd := (hsucc.eq_of_value_eq hcanonical' heq).1
    rw [← hodd] at heveng
    exact Nat.not_even_iff_odd.2 hevenf.add_one heveng
  have hmiddle : q - f.significand * 2 ^ f.exponent = -(q - g.significand * 2 ^ g.exponent) :=
    (abs_eq_abs.1 htie).resolve_left fun heq => by linarith
  have hunit : (0 : ℚ) < 2 ^ f.exponent := by positivity
  have hless := lt_of_le_of_ne hbelow hnot
  have hnearer : |q - (f.significand + 1) * 2 ^ f.exponent| < q - f.significand * 2 ^ f.exponent :=
    abs_lt.2 ⟨by linarith, by linarith⟩
  rw [abs_of_pos (by linarith)] at hbetween
  linarith

end Uniqueness

end Rounding

/-- A number is rounded to one float. -/
theorem IsNearest.unique {q : ℚ} {x y : Float} (hx : IsNearest q x) (hy : IsNearest q y) :
    x = y := by
  cases hx with
  | infinite hq =>
    cases hy with
    | infinite => rfl
    | finite _ _ hlt _ => exact absurd hq (not_le.2 hlt)
  | @finite _ f hx hf hlt hnearf =>
    cases hy with
    | infinite hq => exact absurd hq (not_le.2 hlt)
    | @finite _ g hy hg _ hnearg =>
      have htie := le_antisymm (hnearf _ _ hy).1 (hnearg _ _ hx).1
      have hsame : f.value = g.value := by
        by_contra hne
        have hevenf := ((hnearf _ _ hy).2 htie).resolve_left (Ne.symm hne)
        have heveng := ((hnearg _ _ hx).2 htie.symm).resolve_left hne
        rcases lt_or_gt_of_ne hne with hlt | hlt
        · exact Rounding.not_tie hx hy hf hg hlt hevenf heveng hnearf htie
        · exact Rounding.not_tie hy hx hg hf hlt heveng hevenf hnearg htie.symm
      rw [Rounding.value_of_not_negative hf, Rounding.value_of_not_negative hg] at hsame
      obtain ⟨hm, he⟩ := (Rounding.ofFloat?_isCanonical hx).1.eq_of_value_eq
        (Rounding.ofFloat?_isCanonical hy).1 hsame
      obtain ⟨_, m, e⟩ := f
      obtain ⟨_, m', e'⟩ := g
      subst hf hg hm he
      exact Rounding.eq_of_ofFloat? hx hy

end Calculator
