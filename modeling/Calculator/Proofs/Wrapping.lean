import Calculator.Proofs.Precedence
import Calculator.Proofs.Range
import Mathlib.Data.Int.ModEq

/-!
# Wrapping keeps sums and products

`RingTree.evaluate_wraps`: an integer expression of sums, differences, products, signs and powers
has the value that it has over the integers of any size, modulo `2 ^ 64`.

* `RingTree`: the expressions, and `RingTree.exact`, what they are over the integers of any size.
* `Int64.powerLoop_modEq`: square and multiply computes the power modulo `2 ^ 64`.
* `RingTree.evaluate_modEq`: along a tree, values stay congruent to the exact ones.

Proof. Wrapping stays in the class modulo `2 ^ 64`, and sums, products and powers of classes do not
depend on the members taken. So by induction on the tree each value is in the class of the exact
one. As each class has one member only in the range, a value in range is known by its class.
-/

namespace Calculator

variable {σ : Type}

/-! ## Classes modulo `2 ^ 64` -/

namespace Int64

theorem wrap_modEq (n : Int) : wrap n ≡ n [ZMOD 2 ^ 64] := wrap_emod n

/-- Only one member of a class is in range, the two's complement. -/
theorem eq_toInt_of_modEq {v n : Int} (hv : InRange v) (h : v ≡ n [ZMOD 2 ^ 64]) :
    v = (BitVec.ofInt 64 n).toInt :=
  calc v = wrap v := (wrap_of_inRange hv).symm
    _ = wrap n := wrap_congr h
    _ = (BitVec.ofInt 64 n).toInt := (@BitVec.toInt_ofInt 64 n).symm

/-- **Square and multiply.** Wrapping at every step does not matter modulo `2 ^ 64`. -/
theorem powerLoop_modEq (result base : Int) (exponent : Nat) :
    powerLoop result base exponent ≡ result * base ^ exponent [ZMOD 2 ^ 64] := by
  fun_induction powerLoop result base exponent with
  | case1 => simp
  | case2 result base exponent _ ih =>
    -- The last bit of the exponent is for the base, and the others are for its square.
    have hpow : base ^ exponent = base ^ (exponent % 2) * (base * base) ^ (exponent / 2) := by
      rw [← pow_two, ← pow_mul, ← pow_add, Nat.mod_add_div]
    have hresult : (if exponent % 2 = 1 then wrap (result * base) else result)
        ≡ result * base ^ (exponent % 2) [ZMOD 2 ^ 64] := by
      split
      · next hodd =>
        rw [hodd, pow_one]
        exact wrap_modEq _
      · next hodd =>
        have heven : exponent % 2 = 0 := by omega
        rw [heven, pow_zero, mul_one]
    have hsquare := (wrap_modEq (base * base)).pow (exponent / 2)
    calc _ ≡ (if exponent % 2 = 1 then wrap (result * base) else result)
            * wrap (base * base) ^ (exponent / 2) [ZMOD 2 ^ 64] := ih
      _ ≡ result * base ^ (exponent % 2) * (base * base) ^ (exponent / 2) [ZMOD 2 ^ 64] :=
        hresult.mul hsquare
      _ = result * base ^ exponent := by rw [hpow, mul_assoc]

theorem powerLoop_wrap_modEq (base : Int) (exponent : Nat) :
    powerLoop 1 (wrap base) exponent ≡ base ^ exponent [ZMOD 2 ^ 64] :=
  calc _ ≡ 1 * wrap base ^ exponent [ZMOD 2 ^ 64] := powerLoop_modEq _ _ _
    _ = wrap base ^ exponent := one_mul _
    _ ≡ base ^ exponent [ZMOD 2 ^ 64] := (wrap_modEq base).pow _

theorem exists_power (base : Int) {exponent : Int} (h : 0 ≤ exponent) :
    ∃ v, power base exponent = .ok v ∧ v ≡ base ^ exponent.toNat [ZMOD 2 ^ 64] ∧ InRange v := by
  have hpower : power base exponent = .ok (powerLoop 1 (wrap base) exponent.toNat) := if_pos h
  exact ⟨_, hpower, powerLoop_wrap_modEq _ _, power_inRange hpower⟩

/-- A literal that is not out of range. -/
structure Literal where
  text : Text
  value : Int
  isLiteral : Int64.isLiteral text = true
  parseLiteral : Int64.parseLiteral text = .ok value

theorem Literal.nonneg (n : Literal) : 0 ≤ n.value := by
  have hparse := n.parseLiteral
  rw [parseLiteral_of_isLiteral n.isLiteral] at hparse
  split at hparse
  · cases hparse
  · rw [← Except.ok.inj hparse]
    exact Int.natCast_nonneg _

end Int64

/-! ## Expressions -/

/-- The operators that integers of any size have as well. -/
inductive RingOp
  | add | sub | mul

/-- Expressions of literals, variables, signs, sums, differences, products, and powers with a
literal as exponent. -/
inductive RingTree
  | num (n : Int64.Literal)
  | var (name : Text)
  | paren (t : RingTree)
  | sign (s : Sign) (t : RingTree)
  | bin (op : RingOp) (l r : RingTree)
  | pow (t : RingTree) (exponent : Int64.Literal)

/-- A sign in front of an integer of any size. -/
def Sign.exact : Sign → Int → Int
  | plus, n => n
  | minus, n => -n

namespace RingOp

/-- The operator as it is written. -/
def binaryOp : RingOp → BinaryOp
  | add => .add
  | sub => .sub
  | mul => .mul

/-- The operator on integers of any size. -/
def exact : RingOp → Int → Int → Int
  | add, m, n => m + n
  | sub, m, n => m - n
  | mul, m, n => m * n

theorem apply_eq (op : RingOp) (a b : Int) :
    (int64 : NumericType σ Int).apply op.binaryOp a b = .ok (Int64.wrap (op.exact a b)) := by
  cases op <;> rfl

theorem exact_modEq (op : RingOp) {a b m n k : Int} (ha : a ≡ m [ZMOD k]) (hb : b ≡ n [ZMOD k]) :
    op.exact a b ≡ op.exact m n [ZMOD k] := by
  cases op with
  | add => exact ha.add hb
  | sub => exact ha.sub hb
  | mul => exact ha.mul hb

end RingOp

namespace RingTree

/-- The expression as a tree. -/
def toTree : RingTree → Tree Int
  | num n => .num n.value n.text
  | var name => .var name
  | paren t => .paren t.toTree
  | sign s t => .sign s t.toTree
  | bin op l r => .bin op.binaryOp l.toTree r.toTree
  | pow t n => .bin .pow t.toTree (.num n.value n.text)

/-- The names of the variables. -/
def names : RingTree → List Text
  | num _ => []
  | var name => [name]
  | paren t | sign _ t | pow t _ => t.names
  | bin _ l r => l.names ++ r.names

/-- The value over integers of any size. -/
def exact (x : Text → Int) : RingTree → Int
  | num n => n.value
  | var name => x name
  | paren t => t.exact x
  | sign s t => s.exact (t.exact x)
  | bin op l r => op.exact (l.exact x) (r.exact x)
  | pow t n => t.exact x ^ n.value.toNat

end RingTree

/-! ## Evaluation -/

namespace RingTree

variable {symbols : SymbolTable Int} {x : Text → Int}

/-- **Values stay congruent.** The value of an expression is congruent to the exact value. It is in
range, if variables are. -/
theorem evaluate_modEq (g : Generator σ) (source : σ) (t : RingTree)
    (hbinds : ∀ name ∈ t.names, symbols.get? name = some (x name)) :
    ∃ v, t.toTree.evaluate int64 g ⟨symbols, source⟩ = (.ok v, ⟨symbols, source⟩) ∧
      v ≡ t.exact x [ZMOD 2 ^ 64] ∧
      ((∀ name ∈ t.names, Int64.InRange (x name)) → Int64.InRange v) := by
  induction t with
  | num n =>
    have hrange := Int64.parseLiteral_inRange n.isLiteral n.parseLiteral
    exact ⟨n.value, rfl, rfl, fun _ => hrange⟩
  | var name =>
    have hget := hbinds name List.mem_cons_self
    refine ⟨x name, ?_, rfl, fun hx => hx name List.mem_cons_self⟩
    rw [toTree, Tree.evaluate, Evaluation.resolve_identifier_apply, SymbolTable.read, hget]
  | paren t ih => exact ih hbinds
  | sign s t ih =>
    obtain ⟨a, ha, hmod, hrange⟩ := ih hbinds
    rw [toTree, Tree.evaluate, Evaluation.bind_apply_of_ok ha, Evaluation.liftM_apply]
    cases s with
    | plus => exact ⟨a, rfl, hmod, hrange⟩
    | minus => exact ⟨_, rfl, (Int64.wrap_modEq _).trans hmod.neg, fun _ => Int64.wrap_inRange _⟩
  | bin op l r ihl ihr =>
    rw [names, List.forall_mem_append] at hbinds
    obtain ⟨a, ha, hmod, -⟩ := ihl hbinds.1
    obtain ⟨b, hb, hmod', -⟩ := ihr hbinds.2
    rw [toTree, Tree.evaluate, Evaluation.bind_apply_of_ok ha, Evaluation.bind_apply_of_ok hb,
      Evaluation.liftM_apply, RingOp.apply_eq]
    exact ⟨_, rfl, (Int64.wrap_modEq _).trans (op.exact_modEq hmod hmod'),
      fun _ => Int64.wrap_inRange _⟩
  | pow t n ih =>
    obtain ⟨a, ha, hmod, -⟩ := ih hbinds
    obtain ⟨v, hv, hpower, hrange⟩ := Int64.exists_power a n.nonneg
    have hn : (Tree.num n.value n.text).evaluate int64 g ⟨symbols, source⟩
        = (.ok n.value, ⟨symbols, source⟩) := rfl
    rw [toTree, Tree.evaluate, Evaluation.bind_apply_of_ok ha, Evaluation.bind_apply_of_ok hn,
      Evaluation.liftM_apply]
    exact ⟨v, by rw [← hv]; rfl, hpower.trans (hmod.pow _), fun _ => hrange⟩

/-- **Wrapping is a homomorphism.** Over a table that binds its variables, an expression has a value
that is congruent to the exact one. If the variables are in range, it is the two's complement of the
exact value. So it does not matter where on the way values overflow: expressions with the same exact
value have the same value. A text that spells the expression has this value for its outcome. -/
theorem evaluate_wraps (g : Generator σ) (source : σ) (t : RingTree)
    (hbinds : ∀ name ∈ t.names, symbols.get? name = some (x name)) :
    let store : Store σ Int := ⟨symbols, source⟩
    ∃ v, t.toTree.evaluate int64 g store = (.ok v, store) ∧ v ≡ t.exact x [ZMOD 2 ^ 64] ∧
      ((∀ name ∈ t.names, Int64.InRange (x name)) →
        v = (BitVec.ofInt 64 (t.exact x)).toInt ∧
        ∀ t' : RingTree, (∀ name ∈ t'.names, symbols.get? name = some (x name)) →
          (∀ name ∈ t'.names, Int64.InRange (x name)) → t'.exact x = t.exact x →
          t'.toTree.evaluate int64 g store = (.ok v, store)) ∧
      ∀ input, t.toTree.isGrouped = true →
        (Cursor.start input).Spells (int64 : NumericType σ Int) (t.toTree.lexemes ++ [.finish]) →
        Setup.run ⟨int64, g, input⟩ store = ⟨.ok v, store, []⟩ := by
  intro store
  obtain ⟨v, hv, hmod, hrange⟩ := t.evaluate_modEq g source hbinds
  refine ⟨v, hv, hmod, fun hx => ?_, fun input hgrouped hspells => ?_⟩
  · have hvalue : v = (BitVec.ofInt 64 (t.exact x)).toInt :=
      Int64.eq_toInt_of_modEq (hrange hx) hmod
    refine ⟨hvalue, fun t' hbinds' hx' hexact => ?_⟩
    obtain ⟨v', hv', hmod', hrange'⟩ := t'.evaluate_modEq g source hbinds'
    rw [hv', Int64.eq_toInt_of_modEq (hrange' hx') hmod', hexact, ← hvalue]
  · rw [Setup.run_of_spells ⟨int64, g, input⟩ hgrouped hspells store, hv]

/-- A sum that overflows under a power. -/
theorem evaluate_wraps_overflow :
    (Setup.run ⟨int64, RandomSource.generator,
      Text.ofString " ( x + 9223372036854775807 ) ^ 3 - y"⟩
      ⟨.ofList [(Text.ofString "x", 5), (Text.ofString "y", -7)], .seeded 1⟩).result
      = .ok 71 := by
  let greatest : Int64.Literal :=
    ⟨Text.ofString "9223372036854775807", 9223372036854775807, by decide, rfl⟩
  let three : Int64.Literal := ⟨Text.ofString "3", 3, by decide, rfl⟩
  let t : RingTree := .bin .sub
    (.pow (.paren (.bin .add (.var (Text.ofString "x")) (.num greatest))) three)
    (.var (Text.ofString "y"))
  let values : Text → Int := fun name => if name = Text.ofString "x" then 5 else -7
  have hlexemes : ∀ l ∈ t.toTree.lexemes, l.Plain (int64 : NumericType RandomSource Int) := by
    simp only [t, toTree, Tree.lexemes, List.cons_append, List.nil_append, List.forall_mem_cons]
    exact ⟨.punctuation _, .identifier rfl, .punctuation _, .number rfl rfl, .punctuation _,
      .punctuation _, .number rfl rfl, .punctuation _, .identifier rfl, List.forall_mem_nil _⟩
  have hspaced : Spaced (t.toTree.lexemes.map Lexeme.text)
      (Text.ofString " ( x + 9223372036854775807 ) ^ 3 - y") := spaced_flatMap _
  have hbinds : ∀ name ∈ t.names,
      (SymbolTable.ofList [(Text.ofString "x", 5), (Text.ofString "y", -7)]).get? name
        = some (values name) := by decide
  obtain ⟨v, -, -, hvalue, hrun⟩ :=
    evaluate_wraps RandomSource.generator (.seeded 1) t hbinds
  have hexact : (BitVec.ofInt 64 (t.exact values)).toInt = 71 := by decide
  rw [hrun _ rfl (Cursor.spells_of_spaced int64_plainLiterals hlexemes hspaced 0),
    (hvalue (by decide)).1, hexact]

end RingTree
end Calculator
