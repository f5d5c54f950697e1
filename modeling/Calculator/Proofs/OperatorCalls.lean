import Calculator.Proofs.Parentheses

/-!
# Functions that do the work of an operator

`Setup.run_operator_call`: a call of `pow` or `mod` with two texts does what the operator does with
the same texts in parentheses.

* `BinaryFunction.operator?`: the functions that do the work of an operator.
* `Text.call2`, `Text.combined`: the two ways to write it.

Proof. Both texts spell grouped trees with the same trees for the operands, and evaluating either
tree evaluates the first operand, then the second one, and applies the same operation to the values.
-/

namespace Calculator

variable {σ T : Type}

/-- The operator that does the same with two values. -/
def BinaryFunction.operator? : BinaryFunction → Option BinaryOp
  | pow => some .pow
  | mod => some .rem
  | atan2 | rand => none

/-- The function does what its operator does, and draws nothing. -/
theorem NumericType.call2_eq_apply (type : NumericType σ T) (g : Generator σ) {f : BinaryFunction}
    {op : BinaryOp} (hop : f.operator? = some op) (a b : T) (s : σ) :
    type.call2 g f.name a b s = (type.apply op a b, s) := by
  cases f <;> cases hop <;> rfl

/-! ## How calls and operations are written -/

namespace Text

/-- A call with two texts as its arguments. -/
def call2 (name left right : Text) : Text :=
  name ++ Punctuation.leftParen.unit :: left ++ Punctuation.comma.unit :: right ++
    [Punctuation.rightParen.unit]

/-- An operator between two texts in parentheses. -/
def combined (op : BinaryOp) (left right : Text) : Text :=
  left.parenthesized ++ op.punctuation.unit :: right.parenthesized

end Text

namespace NumericType

variable {type : NumericType σ T}

/-- A name goes on with letters and digits only. -/
theorem PlainLiterals.families_name_append (h : type.PlainLiterals) {name : Text}
    (hname : name.isIdentifier = true) {u : CodeUnit} (hdigit : Text.isDigit u = false)
    (hletter : Text.isLetter u = false) : type.families (name ++ [u]) = [] := by
  cases name with
  | nil => cases hname
  | cons v name =>
    have hv : Text.isLetter v = true := (Bool.and_eq_true_iff.1 hname).1
    have hliteral : type.literal (v :: name ++ [u]) = false := by
      refine Bool.eq_false_iff.2 fun hl => ?_
      rw [Text.isLetter_of_isDigit (h.digit v (name ++ [u]) hl)] at hv
      cases hv
    rw [families, hliteral, Text.isIdentifier_append_of_not (List.cons_ne_nil v name) hdigit hletter,
      Punctuation.ofText?_append (List.cons_ne_nil v name) u]
    rfl

namespace Written

variable {l r : Tree T} {left right name : Text}

theorem call2 (hplain : type.PlainLiterals) (hcomma : type.Delimits Punctuation.comma.unit)
    (hclose : type.Delimits Punctuation.rightParen.unit) (hname : name.isIdentifier = true)
    (hl : type.Written l.lexemes left) (hr : type.Written r.lexemes right) :
    type.Written (Tree.call2 name l r).lexemes (Text.call2 name left right) := by
  have hcalled : type.Written (.identifier name :: .punctuation .leftParen :: l.lexemes)
      ([] ++ name ++ Punctuation.leftParen.unit :: left) := by
    refine .cons rfl (.identifier hname) (fun u hu => ?_) (hl.punctuation hplain .leftParen)
    obtain rfl : Punctuation.leftParen.unit = u := Option.some.inj hu
    exact hplain.families_name_append hname rfl rfl
  refine (hcalled.append (hr.punctuation hplain .comma) (fun u hu => ?_) hplain).concat hplain
    hclose
  obtain rfl : Punctuation.comma.unit = u := Option.some.inj hu
  exact hcomma

theorem combined (hplain : type.PlainLiterals) (hclose : type.Delimits Punctuation.rightParen.unit)
    (op : BinaryOp) (hl : type.Written l.lexemes left) (hr : type.Written r.lexemes right) :
    type.Written (Tree.bin op (.paren l) (.paren r)).lexemes (Text.combined op left right) := by
  have hopened : type.Written (.punctuation .leftParen :: l.lexemes)
      (Punctuation.leftParen.unit :: left) := hl.punctuation hplain .leftParen
  have hright : type.Written (.punctuation .rightParen :: .punctuation op.punctuation ::
      (Tree.paren r).lexemes)
      (Punctuation.rightParen.unit :: op.punctuation.unit :: right.parenthesized) :=
    ((hr.parenthesized hplain hclose).punctuation hplain op.punctuation).punctuation hplain
      .rightParen
  have hall := hopened.append hright (fun u hu => ?_) hplain
  · simpa [Tree.lexemes, Text.combined, Text.parenthesized] using hall
  · obtain rfl : Punctuation.rightParen.unit = u := Option.some.inj hu
    exact hclose

end Written

end NumericType

/-! ## The two ways to evaluate -/

namespace Tree

variable {type : NumericType σ T} {g : Generator σ} {l r : Tree T} {s s₁ s₂ : Store σ T} {a b : T}

theorem evaluate_bin (hl : l.evaluate type g s = (.ok a, s₁))
    (hr : r.evaluate type g s₁ = (.ok b, s₂)) (op : BinaryOp) :
    (bin op l r).evaluate type g s = (type.apply op a b, s₂) := by
  rw [evaluate, Evaluation.bind_apply_of_ok hl, Evaluation.bind_apply_of_ok hr,
    Evaluation.liftM_apply]

theorem evaluate_call2 (hl : l.evaluate type g s = (.ok a, s₁))
    (hr : r.evaluate type g s₁ = (.ok b, s₂)) {f : BinaryFunction} {op : BinaryOp}
    (hop : f.operator? = some op) :
    (call2 f.name l r).evaluate type g s = (type.apply op a b, s₂) := by
  rw [evaluate, Evaluation.bind_apply_of_ok hl, Evaluation.bind_apply_of_ok hr,
    Evaluation.draw_apply, type.call2_eq_apply g hop]

end Tree

namespace Setup

/-- **Functions and operators agree.** Floats and integers have literals of the kind that is asked
for, and none of their words goes on with a comma or a closing parenthesis. If two texts without a
line feed have values when they are evaluated one after the other, then both the call with these
texts as arguments and the operator between them give the result of the operation on these values.
They leave the variables and the state of the source that the second text leaves. The operation
never fails on floats, and it fails with an evaluation error only on integers. -/
theorem run_operator_call :
    ((float64 : NumericType σ Float).PlainLiterals ∧
      (float64 : NumericType σ Float).Delimits Punctuation.comma.unit ∧
      (float64 : NumericType σ Float).Delimits Punctuation.rightParen.unit ∧
      ∀ op a b, ∃ c, (float64 : NumericType σ Float).apply op a b = .ok c) ∧
    ((int64 : NumericType σ Int).PlainLiterals ∧
      (int64 : NumericType σ Int).Delimits Punctuation.comma.unit ∧
      (int64 : NumericType σ Int).Delimits Punctuation.rightParen.unit ∧
      ∀ op a b fault, (int64 : NumericType σ Int).apply op a b = .error fault →
        ∃ cause, fault = .error (.evaluation cause)) ∧
    ∀ (type : NumericType σ T) (g : Generator σ), type.PlainLiterals →
      type.Delimits Punctuation.comma.unit → type.Delimits Punctuation.rightParen.unit →
      ∀ (f : BinaryFunction) (op : BinaryOp), f.operator? = some op →
      ∀ left right : Text, Text.newline ∉ left → Text.newline ∉ right →
      ∀ (store : Store σ T) (a b : T),
        let first := Setup.run ⟨type, g, left⟩ store
        let second := Setup.run ⟨type, g, right⟩ first.store
        first.result = .ok a → second.result = .ok b →
        Setup.run ⟨type, g, Text.call2 f.name left right⟩ store
            = ⟨type.apply op a b, second.store, []⟩ ∧
          Setup.run ⟨type, g, Text.combined op left right⟩ store
            = ⟨type.apply op a b, second.store, []⟩ := by
  refine ⟨⟨float64_plainLiterals, float64_delimits rfl, float64_delimits rfl, ?_⟩,
    ⟨int64_plainLiterals, int64_delimits rfl rfl, int64_delimits rfl rfl, ?_⟩, ?_⟩
  · intro op a b
    cases op <;> exact ⟨_, rfl⟩
  · intro op a b fault h
    cases Int64.isArithmetic_of_apply h with
    | evaluation cause => exact ⟨cause, rfl⟩
  · intro type g hplain hcomma hclose f op hop left right hleft hright store a b first second ha hb
    obtain ⟨l, hlgrouped, hl, hlvalue⟩ := exists_evaluate_of_ok ⟨type, g, left⟩ hplain hleft ha
    obtain ⟨r, hrgrouped, hr, hrvalue⟩ := exists_evaluate_of_ok ⟨type, g, right⟩ hplain hright hb
    have hname : f.name.isIdentifier = true := by cases f <;> rfl
    have hcall : (Tree.call2 f.name l r).isGrouped = true := by
      rw [Tree.isGrouped, hlgrouped, hrgrouped]
      rfl
    have hbin : (Tree.bin op (.paren l) (.paren r)).isGrouped = true := by
      rw [Tree.isGrouped, Tree.isGrouped, Tree.isGrouped, hlgrouped, hrgrouped]
      rfl
    constructor
    · rw [run_of_written ⟨type, g, Text.call2 f.name left right⟩ hplain hcall
        (.call2 hplain hcomma hclose hname hl hr), Tree.evaluate_call2 hlvalue hrvalue hop]
    · rw [run_of_written ⟨type, g, Text.combined op left right⟩ hplain hbin
        (.combined hplain hclose op hl hr), Tree.evaluate_bin (l := .paren l) (r := .paren r)
        hlvalue hrvalue]

/-- The first text draws the value of a variable and the second one reads it, so both spellings fail
with a remainder by zero and keep the variable and the drawn words. -/
theorem run_operator_call_remainder_by_zero :
    let generator : Generator (List Int) :=
      { nextWord := fun drawn => (.ok drawn.length, drawn ++ [(drawn.length : Int)])
        nextUnit := fun drawn => (0, drawn)
        patience := 0 }
    let run (input : Text) := Setup.run ⟨int64, generator, input⟩
    let left := Text.ofString "x = rand()"
    let right := Text.ofString "x - 1"
    let store : Store (List Int) Int := ⟨.empty, []⟩
    let first := run left store
    let second := run right first.store
    let outcome : Outcome (List Int) Int :=
      ⟨.error (.error (.evaluation .remainderByZero)), second.store, []⟩
    (first.result = .ok 1 ∧ second.result = .ok 0 ∧ second.store.source = [0, 1]) ∧
      run (Text.call2 BinaryFunction.mod.name left right) store = outcome ∧
      run (Text.combined .rem left right) store = outcome := by
  intro generator run left right store first second outcome
  have hfirst : first.result = .ok 1 :=
    of_descend (fun o => o.result = .ok 1) 40 (by decide) (by decide +kernel)
  -- The store of the first text is known by climbing only, so the second text climbs from there.
  have hclimbs : (Setup.descend ⟨int64, generator, right⟩ 40 first.store).any
      (fun o => decide (o.result = .ok 0 ∧ o.store.source = [0, 1])) = true :=
    of_descend (fun o => (Setup.descend ⟨int64, generator, right⟩ 40 o.store).any
      (fun o => decide (o.result = .ok 0 ∧ o.store.source = [0, 1])) = true) 40 (by decide)
      (by decide +kernel)
  have hsecond : second.result = .ok 0 ∧ second.store.source = [0, 1] :=
    of_descend (fun o => o.result = .ok 0 ∧ o.store.source = [0, 1]) 40 (by decide) hclimbs
  exact ⟨⟨hfirst, hsecond⟩, run_operator_call.2.2 int64 generator int64_plainLiterals
    (int64_delimits rfl rfl) (int64_delimits rfl rfl) .mod .rem rfl left right (by decide)
    (by decide) store 1 0 hfirst hsecond.1⟩

end Setup

end Calculator
