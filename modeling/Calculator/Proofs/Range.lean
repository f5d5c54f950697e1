import Calculator.Proofs.Preservation
import Mathlib.Logic.Function.Iterate

/-!
# Integers stay in range

`Session.int64_inRange`: in a session over integers whose constants lie in the signed 64-bit range,
all values stay in that range, in answers and in tables, whatever commands are given.

Most operations wrap their results (`Int64.wrap_inRange`). Those that do not — the remainder, the
powers with a negative exponent, the values between two bounds, literals and identities — stay in
range for reasons of their own.

* `Int64.InRange`: the range.
* `Generator.DrawsWords`: a source that gives 32-bit words only.
* `int64_keeps`: the operations on integers keep to the range.
-/

namespace Calculator

variable {σ : Type}

/-! ## Words -/

namespace Generator

/-- All words that are drawn from the state on are words of 32 bits. -/
def DrawsWords (g : Generator σ) (s : σ) : Prop :=
  ∀ n word, (g.nextWord ((fun s => (g.nextWord s).2)^[n] s)).1 = .ok word →
    0 ≤ word ∧ word < 4294967296

variable {g : Generator σ} {s s' : σ}

theorem DrawsWords.word (h : g.DrawsWords s) {word : Int} (hw : g.nextWord s = (.ok word, s')) :
    0 ≤ word ∧ word < 4294967296 :=
  h 0 word (by rw [Function.iterate_zero_apply, hw])

theorem DrawsWords.next (h : g.DrawsWords s) {r : Except NonFinite Int}
    (hw : g.nextWord s = (r, s')) : g.DrawsWords s' := by
  intro n word hword
  refine h (n + 1) word ?_
  rwa [Function.iterate_succ_apply, hw]

theorem bitOr_nonneg {a b : Int} (ha : 0 ≤ a) (hb : 0 ≤ b) : 0 ≤ bitOr a b := by
  obtain ⟨m, rfl⟩ := Int.eq_ofNat_of_zero_le ha
  obtain ⟨n, rfl⟩ := Int.eq_ofNat_of_zero_le hb
  exact Int.natCast_nonneg (m ||| n)

theorem DrawsWords.draw64 (h : g.DrawsWords s) :
    (∀ d, (g.draw64 s).1 = .ok d → 0 ≤ d) ∧ g.DrawsWords (g.draw64 s).2 := by
  unfold Generator.draw64
  split
  · next hhigh => exact ⟨nofun, h.next hhigh⟩
  · next high s₁ hhigh =>
    have h₁ := h.next hhigh
    split
    · next hlow => exact ⟨nofun, h₁.next hlow⟩
    · next low s₂ hlow =>
      refine ⟨fun d hd => ?_, h₁.next hlow⟩
      cases hd
      have hhighword := h.word hhigh
      exact bitOr_nonneg (by omega) (h₁.word hlow).1

theorem DrawsWords.drawBelow (h : g.DrawsWords s) (limit : Int) (tries : Nat) :
    (∀ d, (g.drawBelow limit tries s).1 = .ok d → 0 ≤ d) ∧
      g.DrawsWords (g.drawBelow limit tries s).2 := by
  induction tries generalizing s with
  | zero => exact ⟨nofun, h⟩
  | succ tries ih =>
    have hdraw := h.draw64
    unfold Generator.drawBelow
    split
    · next heq =>
      rw [heq] at hdraw
      exact ⟨nofun, hdraw.2⟩
    · next d s₁ heq =>
      rw [heq] at hdraw
      split
      · refine ⟨fun d' hd => ?_, hdraw.2⟩
        cases hd
        exact hdraw.1 d rfl
      · exact ih hdraw.2

end Generator

/-! ## The range -/

namespace Int64

/-- The integers from `-2 ^ 63` to `2 ^ 63 - 1`. -/
def InRange (n : Int) : Prop := -9223372036854775808 ≤ n ∧ n ≤ 9223372036854775807

instance (n : Int) : Decidable (InRange n) := inferInstanceAs (Decidable (_ ∧ _))

theorem count_eq : count = 18446744073709551616 := by decide

theorem wrap_inRange (n : Int) : InRange (wrap n) := by
  have hpos : 0 < count := by decide
  have hlow : -(count / 2) ≤ wrap n := Int.le_bmod hpos
  have hhigh : wrap n < (count + 1) / 2 := Int.bmod_lt hpos
  rw [count_eq] at hlow hhigh
  rw [InRange]
  omega

theorem wrap_of_inRange {n : Int} (h : InRange n) : wrap n = n := by
  rw [InRange] at h
  exact Int.bmod_eq_of_le (by rw [count_eq]; omega) (by rw [count_eq]; omega)

theorem wrap_emod (n : Int) : wrap n % 18446744073709551616 = n % 18446744073709551616 := by
  have hcount : (count : Int) = 18446744073709551616 := by decide
  rw [← hcount]
  exact Int.bmod_emod

/-- Wrapping depends on the class modulo `2 ^ 64` only. -/
theorem wrap_congr {m n : Int} (h : m % 18446744073709551616 = n % 18446744073709551616) :
    wrap m = wrap n := by
  have hcount : (count : Int) = 18446744073709551616 := by decide
  rw [wrap, wrap, ← Int.emod_bmod m, ← Int.emod_bmod n, hcount, h]

theorem parseLiteral_inRange {text : Text} {a : Int} (hliteral : isLiteral text = true)
    (h : parseLiteral text = .ok a) : InRange a := by
  have hmaximum : maximum = 9223372036854775807 := by decide
  rw [parseLiteral_of_isLiteral hliteral, hmaximum] at h
  split at h
  · cases h
  · cases h
    rw [InRange]
    omega

theorem divide_inRange {a b c : Int} (h : divide a b = .ok c) : InRange c := by
  unfold divide at h
  split at h
  · cases h
  · cases h
    exact wrap_inRange _

/-- The remainder is not wrapped: its magnitude is below that of the divisor. -/
theorem remainder_inRange {a b c : Int} (hb : InRange b) (h : remainder a b = .ok c) :
    InRange c := by
  unfold remainder at h
  split at h
  · cases h
  · next hzero =>
    cases h
    have habs : (a.tmod b).natAbs = a.natAbs % b.natAbs := Int.natAbs_tmod a b
    have hlt : a.natAbs % b.natAbs < b.natAbs := Nat.mod_lt _ (by omega)
    rw [InRange] at *
    omega

theorem powerLoop_inRange {result : Int} (h : InRange result) (base : Int) (exponent : Nat) :
    InRange (powerLoop result base exponent) := by
  fun_induction powerLoop result base exponent with
  | case1 => exact h
  | case2 result base exponent hpos ih =>
    refine ih ?_
    split
    · exact wrap_inRange _
    · exact h

/-- A power with a negative exponent is a unit or zero. -/
theorem power_inRange {a b c : Int} (h : power a b = .ok c) : InRange c := by
  unfold power at h
  split at h
  · cases h
    exact powerLoop_inRange (by decide) _ _
  · split at h
    · cases h
    · split at h
      · cases h
        decide
      · split at h
        · cases h
          split <;> decide
        · cases h
          decide

theorem apply_inRange {op : BinaryOp} {a b c : Int} (hb : InRange b)
    (h : (int64 : NumericType σ Int).apply op a b = .ok c) : InRange c := by
  cases op with
  | add | sub | mul =>
    cases h
    exact wrap_inRange _
  | div => exact divide_inRange h
  | rem => exact remainder_inRange hb h
  | pow => exact power_inRange h

theorem fromNumber_inRange {x : Float} {c : Int} (h : fromNumber x = .ok c) : InRange c := by
  unfold fromNumber at h
  split at h
  · cases h
    exact wrap_inRange _
  · cases h

/-- The functions of integers wrap a magnitude, or give back their argument. -/
theorem direct_inRange {name : Text} {own : Int → Except Fault Int}
    (h : direct.lookup name = some own) {a c : Int} (ha : InRange a) (hc : own a = .ok c) :
    InRange c := by
  obtain ⟨_, _, heq, _⟩ := List.lookup_eq_some_iff.1 h
  have hmem : (name, own) ∈ direct := by rw [heq]; simp
  simp only [direct, List.mem_cons, Prod.mk.injEq, List.not_mem_nil, or_false] at hmem
  rcases hmem with ⟨-, rfl⟩ | ⟨-, rfl⟩ | ⟨-, rfl⟩ | ⟨-, rfl⟩
  · cases hc
    exact wrap_inRange _
  all_goals
    cases hc
    exact ha

theorem random_inRange {g : Generator σ} {s : σ} (hs : g.DrawsWords s) :
    (∀ c, (random g s).1 = .ok c → InRange c) ∧ g.DrawsWords (random g s).2 := by
  refine ⟨fun c hc => ?_, hs.draw64.2⟩
  change (g.draw64 s).1.map wrap = .ok c at hc
  cases hdraw : (g.draw64 s).1 with
  | ok d =>
    rw [hdraw] at hc
    cases hc
    exact wrap_inRange d
  | error f =>
    rw [hdraw] at hc
    cases hc

/-- A value between two bounds is not wrapped: it lies between them. -/
theorem randomBetween_mem {g : Generator σ} {a b : Int} {s : σ} (ha : InRange a)
    (hb : InRange b) (hs : g.DrawsWords s) :
    (∀ c, (randomBetween g a b s).1 = .ok c → min a b ≤ c ∧ c ≤ max a b) ∧
      g.DrawsWords (randomBetween g a b s).2 := by
  unfold randomBetween
  dsimp only
  split
  · next hspan =>
    obtain ⟨hrange, hsource⟩ := random_inRange hs
    refine ⟨fun c hc => ?_, hsource⟩
    -- The bounds are the least and the greatest value of the range.
    have hvalue := hrange c hc
    rw [count_eq] at hspan
    rw [InRange] at *
    omega
  · obtain ⟨hnonneg, hsource⟩ :=
      hs.drawBelow (drawLimit (max a b - min a b + 1)) (g.patience + 1)
    refine ⟨fun c hc => ?_, hsource⟩
    cases hdraw : (g.drawBelow (drawLimit (max a b - min a b + 1)) (g.patience + 1) s).1 with
    | ok d =>
      rw [hdraw] at hc
      cases hc
      -- A draw is not negative, so its remainder is an offset from the lower bound.
      have hspan : 0 < max a b - min a b + 1 := by omega
      have hlow := Int.tmod_nonneg (max a b - min a b + 1) (hnonneg d hdraw)
      have hhigh := Int.tmod_lt_of_pos d hspan
      dsimp only
      omega
    | error f =>
      rw [hdraw] at hc
      cases hc

theorem randomBetween_inRange {g : Generator σ} {a b : Int} {s : σ} (ha : InRange a)
    (hb : InRange b) (hs : g.DrawsWords s) :
    (∀ c, (randomBetween g a b s).1 = .ok c → InRange c) ∧
      g.DrawsWords (randomBetween g a b s).2 := by
  obtain ⟨hbetween, hsource⟩ := randomBetween_mem ha hb hs
  refine ⟨fun c hc => ?_, hsource⟩
  have hmem := hbetween c hc
  rw [InRange] at *
  omega

end Int64

/-- The operations on integers keep to the range, if the random source gives words of 32 bits. -/
theorem int64_keeps (g : Generator σ) :
    (int64 : NumericType σ Int).Keeps g g.DrawsWords Int64.InRange where
  literal text a hliteral h := Int64.parseLiteral_inRange hliteral h
  apply op a b c _ hb h := Int64.apply_inRange hb h
  negate a c _ h := by cases h; exact Int64.wrap_inRange _
  fromNumber x c h := Int64.fromNumber_inRange h
  direct name own h a c ha hc := Int64.direct_inRange h ha hc
  random s hs := Int64.random_inRange hs
  randomBetween a b s ha hb hs := Int64.randomBetween_inRange ha hb hs

/-! ## Sessions -/

theorem RandomSource.nextWord_seeded (state : UInt32) :
    generator.nextWord (seeded state)
      = (.ok (Mulberry.step state).1.toNat, seeded (Mulberry.step state).2) := rfl

/-- A seeded source gives words of 32 bits. -/
theorem RandomSource.drawsWords_seeded (state : UInt32) :
    generator.DrawsWords (seeded state) := by
  intro n
  induction n generalizing state with
  | zero =>
    intro word hword
    rw [Function.iterate_zero_apply, nextWord_seeded] at hword
    rw [← Except.ok.inj hword]
    have hlt := (Mulberry.step state).1.toNat_lt
    omega
  | succ n ih =>
    rw [Function.iterate_succ_apply, nextWord_seeded]
    exact ih (Mulberry.step state).2

namespace Session

/-- **Integers stay in range.** Take an evaluator over integers whose constants are in range, and a
source that gives words of 32 bits. Whatever commands follow, on the evaluator and on copies of it,
all values that are answered and all values in the tables are in range, as long as variables are set
to values in range. Since the commands are arbitrary, this is so after each of them, also after one
that fails midway. -/
theorem int64_inRange {g : Generator σ} {constants : Setting} {e : Evaluator σ Int} {source : σ}
    (hcreate : Evaluator.create int64 g constants = .ok e)
    (hconstants : ∀ c ∈ e.constants, Int64.InRange c.2) (hsource : g.DrawsWords source)
    (commands : List (Nat × Command Int))
    (hcommands : ∀ c ∈ commands, ∀ a ∈ c.2.values, Int64.InRange a) :
    let after := (start e source).executeAll commands
    (∀ r ∈ after.1, ∀ a ∈ r.values, Int64.InRange a) ∧
    (∀ d ∈ after.2.evaluators, ∀ x a, d.symbols.get? x = some a → Int64.InRange a) ∧
    ∀ t ∈ after.2.snapshots, ∀ x a, t.get? x = some a → Int64.InRange a := by
  intro after
  have hstart : (start e source).Keeps int64 g g.DrawsWords Int64.InRange := by
    refine ⟨fun d hd => ?_, nofun, hsource⟩
    rw [List.mem_singleton.1 hd]
    exact Evaluator.keeps_of_create (int64_keeps g) hcreate hconstants
  obtain ⟨hreplies, hafter⟩ := executeAll_keeps (int64_keeps g) hstart hcommands
  exact ⟨hreplies, fun d hd x a => (hafter.evaluators d hd).symbols.of_get?,
    fun t ht x a => (hafter.snapshots t ht).of_get?⟩

/-- The least value as a constant, and the greatest as a variable of a copy. -/
theorem int64_inRange_least :
    let constants : Setting := .object [(Text.ofString "least", .integer (-9223372036854775808))]
    let commands : List (Nat × Command Int) :=
      [(0, .evaluate (Text.ofString "x = -least % rand(1, least)")), (0, .clone),
        (1, .set (Text.ofString "y") 9223372036854775807),
        (1, .tryEvaluate (Text.ofString "x * (y + 1)"))]
    ∃ e, Evaluator.create int64 RandomSource.generator constants = .ok e ∧
      let after := (start e (.seeded 1)).executeAll commands
      (∀ r ∈ after.1, ∀ a ∈ r.values, Int64.InRange a) ∧
      ∀ d ∈ after.2.evaluators, ∀ x a, d.symbols.get? x = some a → Int64.InRange a := by
  intro constants commands
  have hconstants : (Evaluator.create int64 RandomSource.generator constants).toOption.map
      (·.constants) = some [(Text.ofString "least", -9223372036854775808)] := by decide +kernel
  cases hcreate : Evaluator.create int64 RandomSource.generator constants with
  | error f => rw [hcreate] at hconstants; cases hconstants
  | ok e =>
    rw [hcreate] at hconstants
    have he : e.constants = [(Text.ofString "least", -9223372036854775808)] :=
      Option.some.inj hconstants
    have hinRange := int64_inRange hcreate (by rw [he]; decide)
      (RandomSource.drawsWords_seeded 1) commands (by decide)
    exact ⟨e, rfl, hinRange.1, hinRange.2.1⟩

end Session

end Calculator
