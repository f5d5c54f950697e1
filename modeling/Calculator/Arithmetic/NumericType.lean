import Calculator.Operator
import Calculator.Random.Generator
import Calculator.Setting.Basic

/-!
# Numeric types

Expressions are evaluated over a numeric type: the literals and the arithmetic of one kind of value.

* `NumericType`: what a type has to supply.
* `NumericType.apply`: a binary operator in the arithmetic of a type.
-/

namespace Calculator

/-- How values of a type are given as settings. -/
structure Representation (T : Type) where
  kind : ValueKind
  encode : T → Setting
  decode? : Setting → Option T
  decode?_encode : ∀ a, decode? (encode a) = some a
  isSome_decode? : ∀ s, (decode? s).isSome = kind.accepts s

/-- The literals and the arithmetic of values of type `T`, with random values drawn from states of
type `σ`. -/
structure NumericType (σ T : Type) where
  name : Text
  /-- Whether the whole text is a literal. -/
  literal : Text → Bool
  /-- The value of a literal. -/
  parseLiteral : Text → Except Fault T
  /-- The value that stands for a float, such as the result of a built-in function. -/
  fromNumber : Float → Except Fault T
  toNumber : T → Float
  representation : Representation T
  add : T → T → Except Fault T
  subtract : T → T → Except Fault T
  multiply : T → T → Except Fault T
  divide : T → T → Except Fault T
  /-- The remainder of division truncated toward zero, with the sign of the dividend. -/
  remainder : T → T → Except Fault T
  power : T → T → Except Fault T
  negate : T → Except Fault T
  /-- A value from the natural range of the type. -/
  random : Generator σ → σ → Except Fault T × σ
  /-- The built-in functions of one argument that the type computes itself, by name. -/
  direct : List (Text × (T → Except Fault T))
  /-- A value between two bounds. -/
  randomBetween : Generator σ → T → T → σ → Except Fault T × σ

namespace NumericType

variable {σ T : Type}

/-- A binary operator in the arithmetic of the type. -/
def apply (type : NumericType σ T) : BinaryOp → T → T → Except Fault T
  | .add => type.add
  | .sub => type.subtract
  | .mul => type.multiply
  | .div => type.divide
  | .rem => type.remainder
  | .pow => type.power

/-- A sign in front of a value. -/
def applySign (type : NumericType σ T) : Sign → T → Except Fault T
  | .plus, a => .ok a
  | .minus, a => type.negate a

/-- Whether a setting represents a value of the type. -/
def isValue (type : NumericType σ T) (s : Setting) : Bool := type.representation.kind.accepts s

end NumericType

end Calculator
