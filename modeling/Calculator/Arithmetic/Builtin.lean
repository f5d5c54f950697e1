import Calculator.Arithmetic.NumericType
import Calculator.Arithmetic.ErrorFunction
import Calculator.Arithmetic.Float64

/-!
# Built-in functions

A function is known by its name and its number of arguments: `rand` takes none or two, and each
call looks among the functions of its own number of arguments only.

* `UnaryFunction`, `BinaryFunction`: the functions of one and two arguments.
* `NumericType.call0`, `NumericType.call1`, `NumericType.call2`: calls by name.
* `builtins`: all names with their numbers of arguments, sorted.
-/

namespace Calculator

/-- The functions of one argument. -/
inductive UnaryFunction
  | sin | cos | tan | asin | acos | atan
  | sinh | cosh | tanh | asinh | acosh | atanh
  | sqrt | cbrt
  | exp | log | log10 | log2
  | round | ceil | floor | abs
  | erf | erfc
  deriving DecidableEq, Repr

/-- The functions of two arguments. -/
inductive BinaryFunction
  | pow | atan2 | rand | mod
  deriving DecidableEq, Repr

namespace UnaryFunction

/-- The name in an expression. -/
def name : UnaryFunction → Text
  | sin => Text.ofString "sin"
  | cos => Text.ofString "cos"
  | tan => Text.ofString "tan"
  | asin => Text.ofString "asin"
  | acos => Text.ofString "acos"
  | atan => Text.ofString "atan"
  | sinh => Text.ofString "sinh"
  | cosh => Text.ofString "cosh"
  | tanh => Text.ofString "tanh"
  | asinh => Text.ofString "asinh"
  | acosh => Text.ofString "acosh"
  | atanh => Text.ofString "atanh"
  | sqrt => Text.ofString "sqrt"
  | cbrt => Text.ofString "cbrt"
  | exp => Text.ofString "exp"
  | log => Text.ofString "log"
  | log10 => Text.ofString "log10"
  | log2 => Text.ofString "log2"
  | round => Text.ofString "round"
  | ceil => Text.ofString "ceil"
  | floor => Text.ofString "floor"
  | abs => Text.ofString "abs"
  | erf => Text.ofString "erf"
  | erfc => Text.ofString "erfc"

/-- All functions of one argument. -/
def all : List UnaryFunction :=
  [sin, cos, tan, asin, acos, atan, sinh, cosh, tanh, asinh, acosh, atanh, sqrt, cbrt, exp, log,
    log10, log2, round, ceil, floor, abs, erf, erfc]

/-- The function of a name. -/
def ofName? (name : Text) : Option UnaryFunction := all.find? (·.name == name)

/-- The function on floats. Halves are rounded away from zero. -/
def evaluate : UnaryFunction → Float → Float
  | sin, x => x.sin
  | cos, x => x.cos
  | tan, x => x.tan
  | asin, x => x.asin
  | acos, x => x.acos
  | atan, x => x.atan
  | sinh, x => x.sinh
  | cosh, x => x.cosh
  | tanh, x => x.tanh
  | asinh, x => x.asinh
  | acosh, x => x.acosh
  | atanh, x => x.atanh
  | sqrt, x => x.sqrt
  | cbrt, x => x.cbrt
  | exp, x => x.exp
  | log, x => x.log
  | log10, x => x.log10
  | log2, x => x.log2
  | round, x => x.round
  | ceil, x => x.ceil
  | floor, x => x.floor
  | abs, x => x.abs
  | erf, x => Calculator.erf x
  | erfc, x => Calculator.erfc x

end UnaryFunction

namespace BinaryFunction

/-- The name in an expression. -/
def name : BinaryFunction → Text
  | pow => Text.ofString "pow"
  | atan2 => Text.ofString "atan2"
  | rand => Text.ofString "rand"
  | mod => Text.ofString "mod"

/-- All functions of two arguments. -/
def all : List BinaryFunction := [pow, atan2, rand, mod]

/-- The function of a name. -/
def ofName? (name : Text) : Option BinaryFunction := all.find? (·.name == name)

end BinaryFunction

/-- The name of the only function without arguments, a random value. -/
def randName : Text := Text.ofString "rand"

/-- Whether a function of this name takes this number of arguments. -/
def isBuiltin (name : Text) : Nat → Bool
  | 0 => name == randName
  | 1 => (UnaryFunction.ofName? name).isSome
  | 2 => (BinaryFunction.ofName? name).isSome
  | _ => false

/-- All functions by name and number of arguments, in the order of their names, and of their
numbers of arguments under one name. -/
def builtins : List (Text × Nat) :=
  let all :=
    (randName, 0) :: UnaryFunction.all.map (fun f => (f.name, 1)) ++
      BinaryFunction.all.map fun f => (f.name, 2)
  all.mergeSort fun a b => if a.1 = b.1 then a.2 ≤ b.2 else a.1 ≤ b.1

namespace NumericType

variable {σ T : Type}

/-- A call without arguments. -/
def call0 (type : NumericType σ T) (g : Generator σ) (name : Text) (s : σ) :
    Except Fault T × σ :=
  if name = randName then type.random g s
  else (.error (.error (.unknownFunction name 0)), s)

/-- A call with one argument: the type's own function of that name, or else the function on floats
between two conversions. -/
def call1 (type : NumericType σ T) (name : Text) (a : T) : Except Fault T :=
  match UnaryFunction.ofName? name with
  | none => .error (.error (.unknownFunction name 1))
  | some f =>
    match type.direct.lookup name with
    | some own => own a
    | none => type.fromNumber (f.evaluate (type.toNumber a))

/-- A call with two arguments. -/
def call2 (type : NumericType σ T) (g : Generator σ) (name : Text) (a b : T) (s : σ) :
    Except Fault T × σ :=
  match BinaryFunction.ofName? name with
  | none => (.error (.error (.unknownFunction name 2)), s)
  | some .pow => (type.power a b, s)
  | some .atan2 => (type.fromNumber (Float.atan2 (type.toNumber a) (type.toNumber b)), s)
  | some .rand => type.randomBetween g a b s
  | some .mod => (type.remainder a b, s)

end NumericType

end Calculator
