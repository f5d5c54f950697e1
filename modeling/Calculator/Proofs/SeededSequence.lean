import Calculator.Random.Source
import Mathlib.Data.UInt
import Mathlib.Logic.Function.Iterate
import Mathlib.Tactic.LinearCombination
import Mathlib.Tactic.Ring

/-!
# The sequence of a seed

`RandomSource.ofSeed_sequence`: how the state moves on with the draws from a seeded source.

* `wordOf`: the word that a float stands for, by its integer part modulo `2 ^ 32`.
* `RandomSource.Draw`, `RandomSource.draw`, `RandomSource.afterDraws`: mixed draws of words and
  units.
* `RandomSource.stateAfter`: the state of a seed after some draws.
* `Mulberry.iterate_advance_eq_iff`: the number of draws by which a state is reached.

Proof. Every draw adds the increment to the state, so that `n` draws add its `n`-fold. The increment
is odd and so has an inverse modulo `2 ^ 32`. Multiplied by it, the difference of two states is the
number of draws between them modulo `2 ^ 32`.
-/

namespace Calculator

open Function
open scoped UInt32.CommRing

/-! ## Moving on -/

namespace Mulberry

/-- The state moves on. -/
def advance (state : UInt32) : UInt32 := state + increment

/-- The inverse of the increment modulo `2 ^ 32`. -/
def inverse : UInt32 := 0xdc58aa5d

theorem increment_mul_inverse : increment * inverse = 1 := by decide

theorem toNat_natCast (n : ℕ) : (n : UInt32).toNat = n % 2 ^ 32 := UInt32.toNat_ofNat'

theorem iterate_advance (n : ℕ) (state : UInt32) :
    advance^[n] state = state + n * increment := by
  induction n with
  | zero => simp
  | succ n ih =>
    rw [iterate_succ_apply', ih, advance, Nat.cast_succ]
    ring

theorem toNat_iterate_advance (n : ℕ) (state : UInt32) :
    (advance^[n] state).toNat = (state.toNat + n * 0x6d2b79f5) % 2 ^ 32 := by
  have hincrement : increment.toNat = 0x6d2b79f5 := rfl
  rw [iterate_advance, UInt32.toNat_add, UInt32.toNat_mul, toNat_natCast, hincrement,
    Nat.add_mod_mod, Nat.add_mod, Nat.mod_mul_mod, ← Nat.add_mod]

/-- A state is reached by as many draws, up to a multiple of `2 ^ 32`, as the inverse of the
increment makes of the difference. -/
theorem iterate_advance_eq_iff {n : ℕ} {state v : UInt32} :
    advance^[n] state = v ↔ n % 2 ^ 32 = ((v - state) * inverse).toNat := by
  have hmod : n % 2 ^ 32 = (n : UInt32).toNat := (toNat_natCast n).symm
  rw [iterate_advance, hmod, UInt32.toNat_inj]
  constructor
  · rintro rfl
    linear_combination -(n : UInt32) * increment_mul_inverse
  · intro h
    linear_combination increment * h + (v - state) * increment_mul_inverse

theorem existsUnique_mod_eq {r : ℕ} (h : r < 2 ^ 32) (k : ℕ) :
    ∃! n, n ∈ Set.Ico k (k + 2 ^ 32) ∧ n % 2 ^ 32 = r := by
  simp only [Set.mem_Ico]
  refine ⟨k + (r + (2 ^ 32 - k % 2 ^ 32)) % 2 ^ 32, ⟨by omega, by omega⟩, ?_⟩
  rintro n ⟨hrange, hn⟩
  omega

/-- In as many draws as there are states, each state comes up once. -/
theorem existsUnique_iterate_advance (k : ℕ) (state v : UInt32) :
    ∃! n, n ∈ Set.Ico k (k + 2 ^ 32) ∧ advance^[n] state = v := by
  simp only [iterate_advance_eq_iff]
  exact existsUnique_mod_eq (UInt32.toNat_lt _) k

theorem iterate_advance_eq_self_iff {n : ℕ} {state : UInt32} :
    advance^[n] state = state ↔ 2 ^ 32 ∣ n := by
  rw [iterate_advance_eq_iff, sub_self, zero_mul, Nat.dvd_iff_mod_eq_zero]
  rfl

end Mulberry

/-! ## Mixed draws -/

/-- The word that a float stands for: its integer part modulo `2 ^ 32`, and zero for NaN and the
infinities. -/
def wordOf (x : Float) : UInt32 :=
  match integerPart x with
  | .ok n => (n % 4294967296).toNat.toUInt32
  | .error _ => 0

namespace RandomSource

/-- The two ways to draw. -/
inductive Draw
  | word
  | unit

/-- What is drawn from a source, and the source behind it. -/
def draw : Draw → RandomSource → (Except NonFinite Int ⊕ Float) × RandomSource
  | .word, source => source.nextWord.map .inl id
  | .unit, source => source.nextUnit.map .inr id

/-- The source when some draws have been made. -/
def afterDraws (draws : List Draw) (source : RandomSource) : RandomSource :=
  draws.foldl (fun source kind => (draw kind source).2) source

theorem afterDraws_cons (kind : Draw) (draws : List Draw) (source : RandomSource) :
    afterDraws (kind :: draws) source = afterDraws draws (draw kind source).2 := rfl

/-- The state of a seed when some draws have been made. -/
def stateAfter (seed : Float) (n : ℕ) : UInt32 := Mulberry.advance^[n] (wordOf seed)

theorem ofSeed_eq (seed : Float) : ofSeed seed = seeded (wordOf seed) := by
  rw [ofSeed, wordOf]
  cases integerPart seed <;> rfl

/-- What the draw of a word and of a unit make of the same word. -/
def Draw.read (word : UInt32) : Draw → Except NonFinite Int ⊕ Float
  | .word => .inl (.ok word.toNat)
  | .unit => .inr (Float.ofNat word.toNat / 4294967296)

/-- Either draw moves the state on, and reads the same word. -/
theorem draw_seeded (kind : Draw) (state : UInt32) :
    draw kind (seeded state) =
      (kind.read (Mulberry.mix (Mulberry.advance state)), seeded (Mulberry.advance state)) := by
  cases kind <;> rfl

theorem afterDraws_seeded (draws : List Draw) (state : UInt32) :
    afterDraws draws (seeded state) = seeded (Mulberry.advance^[draws.length] state) := by
  induction draws generalizing state with
  | nil => rfl
  | cons kind draws ih =>
    rw [afterDraws_cons, draw_seeded, ih, List.length_cons, iterate_succ_apply]

theorem afterDraws_ofSeed (seed : Float) (draws : List Draw) :
    afterDraws draws (ofSeed seed) = seeded (stateAfter seed draws.length) := by
  rw [ofSeed_eq, afterDraws_seeded, stateAfter]

/-- **The sequence of a seed.** Draws of words and of units, in whatever mix, add the same step to
the state modulo `2 ^ 32`. So what is drawn depends only on the number of draws before and on the
word of the seed. In any `2 ^ 32` draws in a row, each state comes up once, and the state of the
seed comes back with every `2 ^ 32` draws and never in between. The source of any other seed is the
one of this seed when some draws have been made, so that its sequence is the same from there on. -/
theorem ofSeed_sequence (seed seed' : Float) :
    (∀ draws, ∃ state, afterDraws draws (ofSeed seed) = seeded state ∧
      state = stateAfter seed draws.length ∧
      state.toNat = ((wordOf seed).toNat + draws.length * 0x6d2b79f5) % 2 ^ 32) ∧
    (wordOf seed' = wordOf seed → ∀ draws draws', draws'.length = draws.length → ∀ kind,
      draw kind (afterDraws draws' (ofSeed seed')) = draw kind (afterDraws draws (ofSeed seed))) ∧
    (∀ k v, ∃! n, n ∈ Set.Ico k (k + 2 ^ 32) ∧ stateAfter seed n = v) ∧
    (∀ n, stateAfter seed n = stateAfter seed 0 ↔ 2 ^ 32 ∣ n) ∧
    ∃ shift < 2 ^ 32, ∀ skipped, skipped.length = shift →
      ofSeed seed' = afterDraws skipped (ofSeed seed) := by
  refine ⟨fun draws => ?_, fun hword draws draws' hlength kind => ?_, fun k v => ?_, fun n => ?_,
    ?_⟩
  · exact ⟨_, afterDraws_ofSeed seed draws, rfl, Mulberry.toNat_iterate_advance _ _⟩
  · rw [afterDraws_ofSeed, afterDraws_ofSeed, stateAfter, stateAfter, hword, hlength]
  · exact Mulberry.existsUnique_iterate_advance k (wordOf seed) v
  · exact Mulberry.iterate_advance_eq_self_iff
  · obtain ⟨shift, ⟨hshift, hword⟩, -⟩ :=
      Mulberry.existsUnique_iterate_advance 0 (wordOf seed) (wordOf seed')
    have hlt : shift < 2 ^ 32 := by simpa using hshift
    refine ⟨shift, hlt, fun skipped hlength => ?_⟩
    rw [afterDraws_ofSeed, ofSeed_eq, stateAfter, hlength, hword]

/-- The seeds 42 and `2 ^ 32 + 42`: after a unit and a word, the same word as after two words. The
seed 7 continues the sequence from some place on. -/
theorem ofSeed_sequence_wrapped :
    draw .word (afterDraws [.unit, .word] (ofSeed 4294967338)) =
      draw .word (afterDraws [.word, .word] (ofSeed 42)) ∧
    ∃ shift, ofSeed 7 = afterDraws (List.replicate shift .word) (ofSeed 42) := by
  have hword : wordOf 4294967338 = wordOf 42 := by decide +kernel
  obtain ⟨-, hsame, -⟩ := ofSeed_sequence 42 4294967338
  obtain ⟨-, -, -, -, shift, -, hshift⟩ := ofSeed_sequence 42 7
  exact ⟨hsame hword [.word, .word] [.unit, .word] rfl .word, shift,
    hshift _ List.length_replicate⟩

end RandomSource

end Calculator
