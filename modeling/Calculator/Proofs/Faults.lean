import Calculator.Arithmetic.Int64
import Calculator.Automaton.Config

/-!
# Which faults evaluation raises

The operations of a numeric type decide which faults an evaluation can raise, up to unknown names.

* `Fault.IsSemantic`, `Fault.IsSourceFailure`, `Fault.IsInternal`: kinds of faults.
* `NumericType.Raises`: the operations of a type fail in the given ways only.
* `NumericType.Fails`: an operation of a type fails in one state of the random source.
* `Evaluation.Raises`: in which ways a computation fails, with one lemma for each computation that a
  reduction does.
* `float64_raises`, `int64_raises`: floats never fail; integers fail with evaluation errors, and
  where the random source fails.
-/

namespace Calculator

variable {σ T : Type}

/-! ## Kinds of faults -/

namespace Fault

/-- A library error about the meaning of a well-formed expression. -/
def IsSemantic (f : Fault) : Prop := ∃ e, f = .error e ∧ e.isSemantic = true

/-- Arithmetic that the type cannot carry out. -/
inductive IsArithmetic : Fault → Prop
  | evaluation (cause : EvaluationCause) : IsArithmetic (.error (.evaluation cause))

/-- A name that stands for nothing. -/
inductive IsUnknown : Fault → Prop
  | variable (name : Text) : IsUnknown (.error (.unknownVariable name))
  | function (name : Text) (arity : Int) : IsUnknown (.error (.unknownFunction name arity))

/-- The random source gave no draw that could be used. -/
inductive IsSourceFailure : Fault → Prop
  | malformedWord (kind : NonFinite) : IsSourceFailure (.malformedWord kind)
  | starved : IsSourceFailure .starved

/-- The operands or the end of a run do not fit what is done with them. -/
inductive IsInternal : Fault → Prop
  | notAccepted (input : Text) : IsInternal (.error (.notAccepted input))
  | assignmentTarget : IsInternal (.error .assignmentTarget)
  | notCallable : IsInternal (.error .notCallable)

theorem IsArithmetic.not_isInternal {f : Fault} (h : f.IsArithmetic) : ¬ f.IsInternal := by
  cases h
  exact nofun

theorem IsSourceFailure.not_isInternal {f : Fault} (h : f.IsSourceFailure) : ¬ f.IsInternal := by
  cases h <;> exact nofun

theorem IsUnknown.isSemantic {f : Fault} (h : f.IsUnknown) : f.IsSemantic := by
  cases h <;> exact ⟨_, rfl, rfl⟩

theorem IsUnknown.not_isInternal {f : Fault} (h : f.IsUnknown) : ¬ f.IsInternal := by
  cases h <;> exact nofun

/-- What is done with a value does not change the fault that came instead of it. -/
theorem error_of_map {α β : Type} {k : α → β} {r : Except Fault α} {f : Fault}
    (h : r.map k = .error f) : r = .error f := by
  cases r with
  | ok a => cases h
  | error f' => exact congrArg Except.error (Except.error.inj h)

end Fault

/-! ## Operations -/

/-- The operations of the type, apart from reading literals, fail only with faults in `P`. -/
structure NumericType.Raises (type : NumericType σ T) (g : Generator σ) (P : Fault → Prop) :
    Prop where
  apply : ∀ op a b f, type.apply op a b = .error f → P f
  negate : ∀ a f, type.negate a = .error f → P f
  fromNumber : ∀ x f, type.fromNumber x = .error f → P f
  direct : ∀ name own, type.direct.lookup name = some own → ∀ a f, own a = .error f → P f
  random : ∀ s f, (type.random g s).1 = .error f → P f
  randomBetween : ∀ a b s f, (type.randomBetween g a b s).1 = .error f → P f

/-- Reading a literal of the type fails only with faults in `P`. -/
def NumericType.ReadRaises (type : NumericType σ T) (P : Fault → Prop) : Prop :=
  ∀ text f, type.parseLiteral text = .error f → P f

/-- An operation of the type fails, where the random source is in the given state. Reading literals
is left out. -/
inductive NumericType.Fails (type : NumericType σ T) (g : Generator σ) (s : σ) (f : Fault) : Prop
  | apply (op : BinaryOp) (a b : T) (fails : type.apply op a b = .error f)
  | negate (a : T) (fails : type.negate a = .error f)
  | fromNumber (x : Float) (fails : type.fromNumber x = .error f)
  | direct {name : Text} {own : T → Except Fault T} (found : type.direct.lookup name = some own)
    (a : T) (fails : own a = .error f)
  | random (fails : (type.random g s).1 = .error f)
  | randomBetween (a b : T) (fails : (type.randomBetween g a b s).1 = .error f)

namespace NumericType.Raises

variable {type : NumericType σ T} {g : Generator σ} {P : Fault → Prop}

theorem mono {Q : Fault → Prop} (h : type.Raises g P) (hPQ : ∀ f, P f → Q f) :
    type.Raises g Q where
  apply op a b f hf := hPQ f (h.apply op a b f hf)
  negate a f hf := hPQ f (h.negate a f hf)
  fromNumber x f hf := hPQ f (h.fromNumber x f hf)
  direct name own hown a f hf := hPQ f (h.direct name own hown a f hf)
  random s f hf := hPQ f (h.random s f hf)
  randomBetween a b s f hf := hPQ f (h.randomBetween a b s f hf)

theorem of_fails (h : type.Raises g P) {s : σ} {f : Fault} (hf : type.Fails g s f) : P f := by
  cases hf with
  | apply op a b fails => exact h.apply op a b f fails
  | negate a fails => exact h.negate a f fails
  | fromNumber x fails => exact h.fromNumber x f fails
  | direct found a fails => exact h.direct _ _ found a f fails
  | random fails => exact h.random s f fails
  | randomBetween a b fails => exact h.randomBetween a b s f fails

end NumericType.Raises

namespace NumericType.Fails

variable {type : NumericType σ T} {g : Generator σ} {s : σ} {f : Fault}

theorem of_applySign {sign : Sign} {a : T} (h : type.applySign sign a = .error f) :
    type.Fails g s f := by
  cases sign with
  | plus => cases h
  | minus => exact .negate a h

theorem of_call0 {name : Text} (h : (type.call0 g name s).1 = .error f) :
    type.Fails g s f ∨ f.IsUnknown := by
  unfold NumericType.call0 at h
  split at h
  · exact .inl (.random h)
  · cases h
    exact .inr (.function name 0)

theorem of_call1 {name : Text} {a : T} (h : type.call1 name a = .error f) :
    type.Fails g s f ∨ f.IsUnknown := by
  unfold NumericType.call1 at h
  split at h
  · cases h
    exact .inr (.function name 1)
  · split at h
    · next own found => exact .inl (.direct found a h)
    · exact .inl (.fromNumber _ h)

theorem of_call2 {name : Text} {a b : T} (h : (type.call2 g name a b s).1 = .error f) :
    type.Fails g s f ∨ f.IsUnknown := by
  unfold NumericType.call2 at h
  split at h
  · cases h
    exact .inr (.function name 2)
  · exact .inl (.apply .pow a b h)
  · exact .inl (.fromNumber _ h)
  · exact .inl (.randomBetween a b h)
  · exact .inl (.apply .rem a b h)

end NumericType.Fails

/-! ## Computations -/

/-- The computation fails only with faults that go with the state of the random source. -/
def Evaluation.Raises {α : Type} (x : Evaluation σ T α) (P : σ → Fault → Prop) : Prop :=
  ∀ store f, (x store).1 = .error f → P store.source f

namespace Evaluation

variable {P : σ → Fault → Prop}

theorem raises_pure {α : Type} (a : α) : (pure a : Evaluation σ T α).Raises P := by
  intro store f hf
  cases hf

theorem raises_liftM {α : Type} {r : Except Fault α} (h : ∀ s f, r = .error f → P s f) :
    (liftM r : Evaluation σ T α).Raises P := by
  intro store f hf
  cases r with
  | ok a => cases hf
  | error f' =>
    cases hf
    exact h _ _ rfl

theorem raises_draw {α : Type} {x : σ → Except Fault α × σ}
    (h : ∀ s f, (x s).1 = .error f → P s f) : (draw x : Evaluation σ T α).Raises P := by
  intro store f hf
  exact h store.source f hf

theorem raises_store (name : Text) (a : T) :
    (do Evaluation.store name a; return a : Evaluation σ T T).Raises P := by
  intro store f hf
  cases hf

theorem raises_resolve (name : Text) :
    (resolve (.identifier name) : Evaluation σ T T).Raises fun _ => Fault.IsUnknown := by
  intro store f hf
  change ((liftM (store.symbols.read name) : Evaluation σ T T) store).1 = .error f at hf
  rw [SymbolTable.read] at hf
  split at hf
  · cases hf
  · cases hf
    exact .variable name

end Evaluation

/-! ## The numeric types -/

/-- Floats never fail. -/
theorem float64_raises (g : Generator σ) (P : Fault → Prop) :
    (float64 : NumericType σ Float).Raises g P where
  apply op a b f h := by cases op <;> cases h
  negate a f h := by cases h
  fromNumber x f h := by cases h
  direct name own h := by cases h
  random s f h := by cases h
  randomBetween a b s f h := by cases h

theorem float64_readRaises (P : Fault → Prop) :
    (float64 : NumericType σ Float).ReadRaises P := by
  intro text f h
  cases h

theorem Generator.exists_malformedWord_of_draw64 {g : Generator σ} {s : σ} {f : Fault}
    (h : (g.draw64 s).1 = .error f) : ∃ kind, f = .malformedWord kind := by
  unfold draw64 at h
  split at h
  · cases h
    exact ⟨_, rfl⟩
  · split at h
    · cases h
      exact ⟨_, rfl⟩
    · cases h

theorem Generator.isSourceFailure_of_draw64 {g : Generator σ} {s : σ} {f : Fault}
    (h : (g.draw64 s).1 = .error f) : f.IsSourceFailure := by
  obtain ⟨kind, rfl⟩ := exists_malformedWord_of_draw64 h
  exact .malformedWord kind

theorem Generator.isSourceFailure_of_drawBelow {g : Generator σ} {limit : Int} {tries : Nat}
    {s : σ} {f : Fault} (h : (g.drawBelow limit tries s).1 = .error f) : f.IsSourceFailure := by
  induction tries generalizing s with
  | zero =>
    cases h
    exact .starved
  | succ tries ih =>
    unfold drawBelow at h
    split at h
    · next hdraw =>
      cases h
      exact isSourceFailure_of_draw64 (by rw [hdraw])
    · split at h
      · cases h
      · exact ih h

namespace Int64

theorem isArithmetic_of_fromNumber {x : Float} {f : Fault} (h : fromNumber x = .error f) :
    f.IsArithmetic := by
  unfold fromNumber at h
  split at h
  · cases h
  · cases h
    exact .evaluation _

theorem isArithmetic_of_apply {op : BinaryOp} {a b : Int} {f : Fault}
    (h : (int64 : NumericType σ Int).apply op a b = .error f) : f.IsArithmetic := by
  cases op with
  | add => cases h
  | sub => cases h
  | mul => cases h
  | div =>
    change divide a b = .error f at h
    unfold divide at h
    split at h
    · cases h
      exact .evaluation _
    · cases h
  | rem =>
    change remainder a b = .error f at h
    unfold remainder at h
    split at h
    · cases h
      exact .evaluation _
    · cases h
  | pow =>
    change power a b = .error f at h
    unfold power at h
    split at h
    · cases h
    · split at h
      · cases h
        exact .evaluation _
      · split at h
        · cases h
        · split at h <;> cases h

theorem isSourceFailure_of_random {g : Generator σ} {s : σ} {f : Fault}
    (h : (random g s).1 = .error f) : f.IsSourceFailure :=
  Generator.isSourceFailure_of_draw64 (Fault.error_of_map h)

theorem isSourceFailure_of_randomBetween {g : Generator σ} {a b : Int} {s : σ} {f : Fault}
    (h : (randomBetween g a b s).1 = .error f) : f.IsSourceFailure := by
  unfold randomBetween at h
  dsimp only at h
  split at h
  · exact isSourceFailure_of_random h
  · exact Generator.isSourceFailure_of_drawBelow (Fault.error_of_map h)

theorem ne_error_of_direct {name : Text} {own : Int → Except Fault Int}
    (h : direct.lookup name = some own) (a : Int) (f : Fault) : own a ≠ .error f := by
  obtain ⟨_, _, heq, _⟩ := List.lookup_eq_some_iff.1 h
  have hmem : (name, own) ∈ direct := by rw [heq]; simp
  simp only [direct, List.mem_cons, Prod.mk.injEq, List.not_mem_nil, or_false] at hmem
  rcases hmem with ⟨-, rfl⟩ | ⟨-, rfl⟩ | ⟨-, rfl⟩ | ⟨-, rfl⟩ <;> exact nofun

end Int64

/-- Integers fail with evaluation errors, and where the random source fails. -/
theorem int64_raises (g : Generator σ) :
    (int64 : NumericType σ Int).Raises g fun f => f.IsArithmetic ∨ f.IsSourceFailure where
  apply op a b f h := .inl (Int64.isArithmetic_of_apply h)
  negate a f h := by cases h
  fromNumber x f h := .inl (Int64.isArithmetic_of_fromNumber h)
  direct name own hown a f h := absurd h (Int64.ne_error_of_direct hown a f)
  random s f h := .inr (Int64.isSourceFailure_of_random h)
  randomBetween a b s f h := .inr (Int64.isSourceFailure_of_randomBetween h)

/-- Integers wait for the random source only to draw between two bounds. -/
theorem int64_fails_starved {g : Generator σ} {s : σ}
    (h : (int64 : NumericType σ Int).Fails g s .starved) :
    ∃ a b, (Int64.randomBetween g a b s).1 = .error .starved := by
  cases h with
  | apply op a b fails => cases Int64.isArithmetic_of_apply fails
  | negate a fails => cases fails
  | fromNumber x fails => cases Int64.isArithmetic_of_fromNumber fails
  | direct found a fails => exact absurd fails (Int64.ne_error_of_direct found a _)
  | random fails =>
    obtain ⟨kind, hkind⟩ := Generator.exists_malformedWord_of_draw64 (Fault.error_of_map fails)
    cases hkind
  | randomBetween a b fails => exact ⟨a, b, fails⟩

/-- A literal of integers fails where it is too large, and a text where it is no numeral. -/
theorem int64_readRaises : (int64 : NumericType σ Int).ReadRaises fun f =>
    ∃ text, f = .error (.lexical (.literalOutOfRange text)) ∨ f = .malformedInteger text := by
  intro text f h
  change Int64.parseLiteral text = .error f at h
  unfold Int64.parseLiteral at h
  split at h
  · split at h
    · cases h
      exact ⟨text, .inl rfl⟩
    · cases h
  · cases h
    exact ⟨text, .inr rfl⟩

end Calculator
