import Calculator.Proofs.ExactFloat
import Calculator.Proofs.SeededSequence

/-!
# Words computed with floats

`Mulberry.floatDraw_exact`: a seeded source that computes with floats draws what the source of
32-bit words draws.

* `signedWordOf`: the signed word that a float stands for.
* `FloatWord`: the operations on words, from floats to floats.
* `AddsExactly`: a sum of integers that is not rounded.
* `Mulberry.floatMix`, `Mulberry.floatDraw`: the draws, with floats only.
* `Mulberry.DrawsExactly`: what a draw from a float has to do with one from a state.

Proof. A bitwise operation leaves a float with an integer of at most 32 bits, signed or not, and the
next one takes the word of it again, which is the same for both readings. A sum of two such integers
has at most 34 bits. So it is exact, and its word is the sum of the words modulo `2 ^ 32`.
-/

namespace Calculator

/-! ## Words of floats -/

/-- The signed word that a float stands for: its integer part in two's complement, and zero for NaN
and the infinities. -/
def signedWordOf (x : Float) : Int32 :=
  match integerPart x with
  | .ok n => Int32.ofInt n
  | .error _ => 0

theorem toUInt32_ofInt (n : ℤ) :
    (Int32.ofInt n).toUInt32 = (n % 4294967296).toNat.toUInt32 := by
  apply UInt32.toNat_inj.1
  show (BitVec.ofInt 32 n).toNat = _
  rw [BitVec.toNat_ofInt, Nat.toUInt32, UInt32.toNat_ofNat']
  omega

/-- The two readings are of the same bits. -/
theorem signedWordOf_eq (x : Float) : signedWordOf x = (wordOf x).toInt32 := by
  rw [signedWordOf, wordOf]
  cases integerPart x with
  | error kind => rfl
  | ok n =>
    dsimp only
    rw [← toUInt32_ofInt]
    rfl

theorem wordOf_of_hasValue {x : Float} {n : ℤ} (h : HasValue x n) :
    wordOf x = (Int32.ofInt n).toUInt32 := by
  rw [wordOf, integerPart_of_hasValue h, toUInt32_ofInt]

/-! ## Operations on words -/

namespace FloatWord

/-- Moves the bits of the word to the right. The result is read without a sign. -/
def shiftRight (x : Float) (k : UInt32) : Float := Float.ofNat (wordOf x >>> k).toNat

/-- Exclusive "or" of signed words. -/
def bitwiseXor (x y : Float) : Float := Float.ofInt (signedWordOf x ^^^ signedWordOf y).toInt

/-- "Or" of signed words. -/
def bitwiseOr (x y : Float) : Float := Float.ofInt (signedWordOf x ||| signedWordOf y).toInt

/-- The low word of the product, read with a sign. -/
def multiply (x y : Float) : Float := Float.ofInt (wordOf x * wordOf y).toInt32.toInt

theorem hasValue_unsigned (w : UInt32) : HasValue (Float.ofNat w.toNat) (w.toNat : ℤ) :=
  @hasValue_ofInt w.toNat (by have := w.toNat_lt; omega)

theorem hasValue_signed (w : Int32) : HasValue (Float.ofInt w.toInt) w.toInt :=
  hasValue_ofInt (by have := w.toInt_lt; have := w.le_toInt; omega)

@[simp]
theorem wordOf_unsigned (w : UInt32) : wordOf (Float.ofNat w.toNat) = w := by
  have hlt := w.toNat_lt
  have hmod : ((w.toNat : ℤ) % 4294967296).toNat = w.toNat := by omega
  rw [wordOf, integerPart_of_hasValue (hasValue_unsigned w)]
  dsimp only
  rw [hmod, Nat.toUInt32, UInt32.ofNat_toNat]

@[simp]
theorem wordOf_signed (w : Int32) : wordOf (Float.ofInt w.toInt) = w.toUInt32 := by
  rw [wordOf_of_hasValue (hasValue_signed w), Int32.ofInt_toInt]

@[simp]
theorem wordOf_shiftRight (x : Float) (k : UInt32) : wordOf (shiftRight x k) = wordOf x >>> k :=
  wordOf_unsigned _

@[simp]
theorem wordOf_bitwiseXor (x y : Float) : wordOf (bitwiseXor x y) = wordOf x ^^^ wordOf y := by
  rw [bitwiseXor, wordOf_signed, signedWordOf_eq, signedWordOf_eq, ← UInt32.toInt32_xor,
    UInt32.toUInt32_toInt32]

@[simp]
theorem wordOf_bitwiseOr (x y : Float) : wordOf (bitwiseOr x y) = wordOf x ||| wordOf y := by
  rw [bitwiseOr, wordOf_signed, signedWordOf_eq, signedWordOf_eq, ← UInt32.toInt32_or,
    UInt32.toUInt32_toInt32]

@[simp]
theorem wordOf_multiply (x y : Float) : wordOf (multiply x y) = wordOf x * wordOf y :=
  wordOf_signed _

end FloatWord

/-! ## Sums -/

/-- The floats stand for integers whose sum, below `2 ^ 53` in magnitude, is not rounded. -/
def AddsExactly (x y : Float) : Prop :=
  ∃ a b : ℤ, HasValue x a ∧ HasValue y b ∧ |a + b| < 2 ^ 53 ∧ HasValue (x + y) (a + b : ℤ)

theorem addsExactly_ofInt {a b : ℤ} (ha : |a| ≤ 2 ^ 32) (hb : |b| ≤ 2 ^ 32) :
    AddsExactly (Float.ofInt a) (Float.ofInt b) := by
  rw [abs_le] at ha hb
  refine ⟨a, b, hasValue_ofInt (by omega), hasValue_ofInt (by omega), ?_, ?_⟩
  · rw [abs_lt]
    omega
  · rw [ExactFloat.ofInt_add_ofInt (by omega) (by omega) (by omega)]
    exact hasValue_ofInt (by omega)

/-- The word of an exact sum is the sum of the words. -/
theorem AddsExactly.wordOf_add {x y : Float} (h : AddsExactly x y) :
    wordOf (x + y) = wordOf x + wordOf y := by
  obtain ⟨a, b, hx, hy, -, hsum⟩ := h
  rw [wordOf_of_hasValue hx, wordOf_of_hasValue hy, wordOf_of_hasValue hsum, Int32.ofInt_add,
    Int32.toUInt32_add]

theorem FloatWord.addsExactly_multiply (x y x' y' : Float) :
    AddsExactly (multiply x y) (multiply x' y') := by
  have hbound : ∀ w : Int32, |w.toInt| ≤ 2 ^ 32 := fun w => by
    have hlt := w.toInt_lt
    have hle := w.le_toInt
    rw [abs_le]
    omega
  exact addsExactly_ofInt (hbound _) (hbound _)

/-! ## Draws -/

namespace Mulberry

open FloatWord

/-- The state moves on. -/
def floatAdvance (state : Float) : Float := shiftRight (state + 0x6d2b79f5) 0

/-- The first product of a state. -/
def floatScramble (state : Float) : Float :=
  multiply (bitwiseXor state (shiftRight state 15)) (bitwiseOr state 1)

/-- The second product, which is added to the first. -/
def floatAddend (t : Float) : Float :=
  multiply (bitwiseXor t (shiftRight t 7)) (bitwiseOr t 61)

/-- The word drawn from a state that has moved on. -/
def floatMix (state : Float) : Float :=
  let t := floatScramble state
  let t := bitwiseXor t (t + floatAddend t)
  shiftRight (bitwiseXor t (shiftRight t 14)) 0

/-- A draw of a word, or of a word divided by `2 ^ 32`, and the next state. -/
def floatDraw (kind : RandomSource.Draw) (state : Float) : Float × Float :=
  let state := floatAdvance state
  match kind with
  | .word => (floatMix state, state)
  | .unit => (floatMix state / 4294967296, state)

/-- The state of a seed when some draws have been made. -/
def floatAfterDraws (draws : List RandomSource.Draw) (seed : Float) : Float :=
  draws.foldl (fun state kind => (floatDraw kind state).2) (shiftRight seed 0)

theorem addsExactly_increment (state : UInt32) :
    AddsExactly (Float.ofNat state.toNat) 0x6d2b79f5 := by
  have hlt := state.toNat_lt
  exact @addsExactly_ofInt state.toNat 0x6d2b79f5 (by rw [abs_le]; omega) (by decide)

theorem floatAdvance_eq (state : UInt32) :
    floatAdvance (Float.ofNat state.toNat) = Float.ofNat (advance state).toNat := by
  have hincrement : wordOf 0x6d2b79f5 = increment := by decide +kernel
  rw [floatAdvance, shiftRight, (addsExactly_increment state).wordOf_add, wordOf_unsigned,
    hincrement, UInt32.shiftRight_zero, advance]

theorem addsExactly_addend (state : Float) :
    AddsExactly (floatScramble state) (floatAddend (floatScramble state)) :=
  addsExactly_multiply _ _ _ _

theorem wordOf_floatScramble (state : Float) :
    wordOf (floatScramble state) =
      (wordOf state ^^^ (wordOf state >>> 15)) * (wordOf state ||| 1) := by
  have hone : wordOf 1 = 1 := by decide +kernel
  rw [floatScramble, wordOf_multiply, wordOf_bitwiseXor, wordOf_bitwiseOr, wordOf_shiftRight, hone]

theorem wordOf_floatAddend (t : Float) :
    wordOf (floatAddend t) = (wordOf t ^^^ (wordOf t >>> 7)) * (wordOf t ||| 61) := by
  have hconstant : wordOf 61 = 61 := by decide +kernel
  rw [floatAddend, wordOf_multiply, wordOf_bitwiseXor, wordOf_bitwiseOr, wordOf_shiftRight,
    hconstant]

theorem floatMix_eq (state : Float) :
    floatMix state = Float.ofNat (mix (wordOf state)).toNat := by
  have hsum := (addsExactly_addend state).wordOf_add
  rw [floatMix, shiftRight, UInt32.shiftRight_zero, wordOf_bitwiseXor, wordOf_shiftRight,
    wordOf_bitwiseXor, hsum, wordOf_floatAddend, wordOf_floatScramble, mix]

theorem floatDraw_word (state : UInt32) :
    floatDraw .word (Float.ofNat state.toNat) =
      (Float.ofNat (step state).1.toNat, Float.ofNat (step state).2.toNat) := by
  rw [floatDraw, floatMix_eq, floatAdvance_eq, wordOf_unsigned]
  rfl

theorem floatDraw_unit (x : Float) :
    floatDraw .unit x = ((floatDraw .word x).1 / 4294967296, (floatDraw .word x).2) := rfl

/-- What a draw from a float has to do with one from a state of 32 bits. -/
structure DrawsExactly (x : Float) (state : UInt32) : Prop where
  state_value : HasValue x (state.toNat : ℤ)
  state_range : state.toNat < 2 ^ 32
  /-- The state moves on by an exact sum. -/
  state_sum : AddsExactly x 0x6d2b79f5
  /-- The two products are added exactly. -/
  word_sum :
    let t := floatScramble (floatAdvance x)
    AddsExactly t (floatAddend t)
  word : floatDraw .word x =
    (Float.ofNat (step state).1.toNat, Float.ofNat (step state).2.toNat)
  word_value : HasValue (floatDraw .word x).1 ((step state).1.toNat : ℤ)
  word_range : (step state).1.toNat < 2 ^ 32
  unit : floatDraw .unit x =
    ((RandomSource.nextUnit (.seeded state)).1, Float.ofNat (step state).2.toNat)
  /-- The division by `2 ^ 32` is exact. -/
  unit_value : HasValue (floatDraw .unit x).1 ((step state).1.toNat / 2 ^ 32)
  unit_range : ((step state).1.toNat / 2 ^ 32 : ℚ) ∈ Set.Ico 0 1

theorem toNat_div_mem_Ico (w : UInt32) : (w.toNat / 2 ^ 32 : ℚ) ∈ Set.Ico 0 1 := by
  have hlt : (w.toNat : ℚ) < 2 ^ 32 := by exact_mod_cast w.toNat_lt
  exact ⟨by positivity, (div_lt_one (by positivity)).2 hlt⟩

theorem drawsExactly (state : UInt32) : DrawsExactly (Float.ofNat state.toNat) state where
  state_value := hasValue_unsigned state
  state_range := state.toNat_lt
  state_sum := addsExactly_increment state
  word_sum := addsExactly_addend _
  word := floatDraw_word state
  word_value := by
    rw [floatDraw_word]
    exact hasValue_unsigned _
  word_range := (step state).1.toNat_lt
  unit := by
    rw [floatDraw_unit, floatDraw_word]
    rfl
  unit_value := by
    have hlt := (step state).1.toNat_lt
    have hquotient := @hasValue_ofInt_div (step state).1.toNat (by omega)
    rw [Int.cast_natCast] at hquotient
    rw [floatDraw_unit, floatDraw_word]
    exact hquotient
  unit_range := toNat_div_mem_Ico _

theorem floatAfterDraws_eq (draws : List RandomSource.Draw) (seed : Float) :
    floatAfterDraws draws seed =
      Float.ofNat (RandomSource.stateAfter seed draws.length).toNat := by
  have hstart : shiftRight seed 0 = Float.ofNat (wordOf seed).toNat := by
    rw [shiftRight, UInt32.shiftRight_zero]
  rw [floatAfterDraws, hstart, RandomSource.stateAfter]
  generalize wordOf seed = state
  induction draws generalizing state with
  | nil => rfl
  | cons kind draws ih =>
    have hnext : (floatDraw kind (Float.ofNat state.toNat)).2 =
        Float.ofNat (advance state).toNat := by
      cases kind <;> exact floatAdvance_eq state
    rw [List.foldl_cons, hnext, ih, List.length_cons, Function.iterate_succ_apply]

/-- **The generator in floats.** Whatever the seed is and however many words and units have been
drawn, the float in which the state is kept has the value of the 32-bit state. From there, the sums
on the way are exact, the next word is the one of the step in 32 bits, and a unit is exactly this
word divided by `2 ^ 32`. -/
theorem floatDraw_exact (seed : Float) (draws : List RandomSource.Draw) :
    ∃ state, RandomSource.afterDraws draws (RandomSource.ofSeed seed) = .seeded state ∧
      DrawsExactly (floatAfterDraws draws seed) state := by
  refine ⟨_, RandomSource.afterDraws_ofSeed seed draws, ?_⟩
  rw [floatAfterDraws_eq]
  exact drawsExactly _

end Mulberry

end Calculator
