import Calculator.Arithmetic.Decimal
import Calculator.Arithmetic.FiniteFloat
import Calculator.Arithmetic.NumericType

/-!
# 64-bit floats

The numeric type of IEEE 754 doubles. No operation fails.

* `Float64.read`: the float that the start of a text denotes.
* `Float64.read_of_isLiteral`: a literal denotes the float nearest to its number.
-/

namespace Calculator

namespace Float64

/-- Not a number. -/
def nan : Float := 0 / 0

/-! ## Literals -/

/-- The name of the infinite float. -/
def infinityName : Text := Text.ofString "Infinity"

/-- The float without a sign at the start of a text. -/
def magnitude? (t : Text) : Option Float :=
  if infinityName.isPrefixOf t then some (1 / 0)
  else if Decimal.startsNumber t then some (Decimal.read t).toFloat
  else none

/-- The float that the start of a text denotes, behind white space and a sign; not a number if there
is none. -/
def read (text : Text) : Float :=
  let t := text.trimStart
  match magnitude? t.dropSign with
  | some x => if t.isNegative then -x else x
  | none => nan

/-- A literal denotes the float nearest to its number. -/
theorem read_of_isLiteral {text : Text} (h : Decimal.isLiteral text = true) :
    read text = (Decimal.read text).toFloat := by
  cases text with
  | nil => cases h
  | cons u rest =>
    have hu : Text.isDigit u = true := by simp_all [Decimal.isLiteral]
    have hn : infinityName.isPrefixOf (u :: rest) = false := by
      have : u ≠ 73 := by rintro rfl; revert hu; decide
      simp [infinityName, Text.ofString, Text.unitsOf, List.isPrefixOf, this.symm]
    simp [read, magnitude?, Text.trimStart_of_isDigit hu, Text.dropSign_of_isDigit hu,
      Text.isNegative_of_isDigit hu, hn, Decimal.startsNumber_of_isLiteral h]

/-! ## Arithmetic -/

/-- The remainder of the exact quotient truncated toward zero, with the sign of the dividend. -/
def remainder (a b : Float) : Float :=
  match FiniteFloat.ofFloat? a, FiniteFloat.ofFloat? b with
  | some m, some n => if n.significand = 0 then nan else (m.remainder n).toFloat
  | some _, none => if b.isNaN then nan else a
  | none, _ => nan

/-- The power of two floats. A base of magnitude one has no power to an infinite exponent, and no
base has one to NaN. -/
def power (base exponent : Float) : Float :=
  if exponent.isNaN || (base.abs == 1 && exponent.isInf) then nan else base.pow exponent

/-! ## Values as settings -/

/-- Floats are given as numbers. -/
def representation : Representation Float where
  kind := .number
  encode := .number
  decode?
    | .number x => some x
    | _ => none
  decode?_encode _ := rfl
  isSome_decode? s := by cases s <;> rfl

end Float64

/-- The type of 64-bit floats. -/
def float64 {σ : Type} : NumericType σ Float where
  name := Text.ofString "float64"
  literal := Decimal.isLiteral
  parseLiteral text := .ok (Float64.read text)
  fromNumber := .ok
  toNumber := id
  representation := Float64.representation
  add a b := .ok (a + b)
  subtract a b := .ok (a - b)
  multiply a b := .ok (a * b)
  divide a b := .ok (a / b)
  remainder a b := .ok (Float64.remainder a b)
  power a b := .ok (Float64.power a b)
  negate a := .ok (-a)
  random g s :=
    let (unit, s) := g.nextUnit s
    (.ok unit, s)
  direct := []
  randomBetween g low high s :=
    let (unit, s) := g.nextUnit s
    (.ok (low + unit * (high - low)), s)

end Calculator
