import Calculator.Automaton.Run
import Calculator.Arithmetic.Int64
import Calculator.Random.Source
import Calculator.Setting.Options

/-!
# Evaluators

An evaluator holds a numeric type and a table of variables that outlives single evaluations. The
state of its random source is handed in and out, since several evaluators may draw from one source.

* `Evaluator.create`: a new evaluator whose table holds `pi` and the constants.
* `Evaluator.evaluate`: evaluates a text; `Evaluator.tryEvaluate` reports errors as results.
* `Evaluator.clone`: an independent copy.
* `evaluate`: one evaluation over floats.
-/

namespace Calculator

/-- The name of the circle constant. -/
def piName : Text := Text.ofString "pi"

/-- A table with `pi` and the constants, which may give `pi` another value. -/
def NumericType.initialSymbols {σ T : Type} (type : NumericType σ T)
    (constants : List (Text × T)) : Except Fault (SymbolTable T) :=
  (type.fromNumber ErrorFunction.pi).map fun pi => .ofList ((piName, pi) :: constants)

/-- A numeric type with its constants and variables. -/
structure Evaluator (σ T : Type) where
  type : NumericType σ T
  generator : Generator σ
  constants : List (Text × T)
  /-- The table of an evaluator on which nothing has been done. -/
  initial : SymbolTable T
  symbols : SymbolTable T
  isIdentifier_of_mem : ∀ c ∈ constants, c.1.isIdentifier = true
  initialSymbols_eq : type.initialSymbols constants = .ok initial

namespace Evaluator

variable {σ T : Type}

/-! ## Making evaluators -/

/-- The random source of an evaluator as a setting. -/
def sourceSetting : Setting :=
  .object
    [(Text.ofString "nextFloat", .function none), (Text.ofString "nextU32", .function none)]

/-- The options of an evaluator as a configuration value. -/
def settings (type : NumericType σ T) (constants : Setting) : Setting :=
  .object
    [(Options.typeKey, type.setting), (Options.constantsKey, constants),
      (Options.randomKey, sourceSetting), (Options.onWarningKey, .function none)]

/-- The values of constants that are given as settings. -/
def decode (type : NumericType σ T) (constants : List (Text × Setting)) : List (Text × T) :=
  constants.filterMap fun c => (type.representation.decode? c.2).map fun a => (c.1, a)

theorem isIdentifier_of_mem_decode {type : NumericType σ T} {constants : List (Text × Setting)}
    (h : ∀ c ∈ constants, c.1.isIdentifier = true) :
    ∀ c ∈ decode type constants, c.1.isIdentifier = true := by
  intro c hc
  obtain ⟨c', hc', hd⟩ := List.mem_filterMap.1 hc
  obtain ⟨a, _, rfl⟩ := Option.map_eq_some_iff.1 hd
  exact h c' hc'

/-- A new evaluator with the given constants. -/
def create (type : NumericType σ T) (generator : Generator σ) (constants : Setting) :
    Except Fault (Evaluator σ T) :=
  match h : Options.resolve (settings type constants) with
  | .error issues => .error (.error (.invalidOptions issues))
  | .ok options =>
    let constants := decode type options.constants
    match hi : type.initialSymbols constants with
    | .error f => .error f
    | .ok initial =>
      .ok
        { type, generator, constants, initial
          symbols := initial
          isIdentifier_of_mem := isIdentifier_of_mem_decode (Options.isIdentifier_of_resolve h)
          initialSymbols_eq := hi }

/-- The constants of an evaluator as a setting. -/
def constantsSetting (e : Evaluator σ T) : Setting :=
  .object (e.constants.map fun c => (c.1, e.type.representation.encode c.2))

/-- An evaluator made anew from the same options, with the same variables. -/
def clone (e : Evaluator σ T) : Except Fault (Evaluator σ T) :=
  (create e.type e.generator e.constantsSetting).map fun copy => { copy with symbols := e.symbols }

/-! ## Evaluation -/

/-- Evaluates a text from a state of the random source. -/
def evaluate (e : Evaluator σ T) (input : Text) (source : σ) : Outcome σ T :=
  Setup.run ⟨e.type, e.generator, input⟩ ⟨e.symbols, source⟩

/-- The evaluator after an evaluation. -/
def after (e : Evaluator σ T) (o : Outcome σ T) : Evaluator σ T :=
  { e with symbols := o.store.symbols }

/-- What an evaluation reports when errors count as results. -/
def tryEvaluate (e : Evaluator σ T) (input : Text) (source : σ) :
    Except Fault (Except Error T) :=
  Fault.catchErrors (e.evaluate input source).result

/-! ## Variables -/

/-- The evaluator with a variable set. -/
def setVariable (e : Evaluator σ T) (name : Text) (value : T) : Evaluator σ T :=
  { e with symbols := e.symbols.insert name value }

/-- The evaluator without a variable. -/
def eraseVariable (e : Evaluator σ T) (name : Text) : Evaluator σ T :=
  { e with symbols := e.symbols.erase name }

/-- The evaluator without any variable. -/
def clearVariables (e : Evaluator σ T) : Evaluator σ T := { e with symbols := .empty }

/-- The evaluator with `pi` and its constants only. -/
def resetVariables (e : Evaluator σ T) : Evaluator σ T := { e with symbols := e.initial }

end Evaluator

/-- One evaluation over floats with the given variables. Faulty bindings are a fault, errors of the
evaluation are results. -/
def evaluate {σ : Type} (generator : Generator σ) (input : Text) (bindings : Setting)
    (source : σ) : Except Fault (Except Error Float) := do
  let e ← Evaluator.create float64 generator bindings
  e.tryEvaluate input source

end Calculator
