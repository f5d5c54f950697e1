import Calculator.Fault

/-!
# Finite floats as scaled integers

A finite 64-bit float is `(-1)^s · m · 2^q` with `m < 2^53` and `-1074 ≤ q`.

* `FiniteFloat.ofFloat?`, `FiniteFloat.toFloat`: between floats and their parts.
* `FiniteFloat.truncate`: the integer part, rounded toward zero.
* `FiniteFloat.remainder`: the exact remainder with the sign of the dividend.
-/

namespace Calculator

/-- The number `(-1)^negative · significand · 2^exponent`. -/
structure FiniteFloat where
  negative : Bool
  significand : Nat
  exponent : Int
  deriving DecidableEq, Repr

namespace FiniteFloat

/-- The parts of a float, read off its bits; none for NaN and the infinities. -/
def ofFloat? (x : Float) : Option FiniteFloat :=
  let bits := x.toBits.toNat
  let negative := decide (1 <<< 63 ≤ bits)
  let field : Nat := bits >>> 52 % 2048
  let fraction : Nat := bits % 1 <<< 52
  if field = 2047 then none
  else if field = 0 then some ⟨negative, fraction, -1074⟩
  else some ⟨negative, 1 <<< 52 + fraction, (field : Int) - 1075⟩

/-- The bits of the magnitude, for a significand below `2 ^ 53`: the significand is moved up to 53
bits as far as the least exponent allows, and then a step of the exponent is `2 ^ 52` bits. -/
def magnitudeBits (significand : Nat) (exponent : Int) : Nat :=
  let room := (exponent + 1074).toNat
  let shift := min (52 - significand.log2) room
  if significand = 0 then 0 else significand <<< shift + (room - shift) <<< 52

/-- The float with the given parts. -/
def toFloat (f : FiniteFloat) : Float :=
  let sign := if f.negative then 1 <<< 63 else 0
  Float.ofBits (sign + magnitudeBits f.significand f.exponent).toUInt64

/-- The integer part of the magnitude. -/
def truncateMagnitude (f : FiniteFloat) : Nat :=
  if 0 ≤ f.exponent then f.significand <<< f.exponent.toNat
  else f.significand >>> (-f.exponent).toNat

/-- The integer part, rounded toward zero. -/
def truncate (f : FiniteFloat) : Int :=
  if f.negative then -(f.truncateMagnitude : Int) else f.truncateMagnitude

/-- The remainder of two magnitudes on the finer of their two scales, with the sign of the
dividend. It fits that scale, so no rounding takes place. -/
def remainder (a b : FiniteFloat) : FiniteFloat :=
  let exponent := min a.exponent b.exponent
  let scaled (f : FiniteFloat) : Nat := f.significand <<< (f.exponent - exponent).toNat
  ⟨a.negative, scaled a % scaled b, exponent⟩

end FiniteFloat

/-- The integer part of a float, or which of the floats without one it is. -/
def integerPart (x : Float) : Except NonFinite Int :=
  match FiniteFloat.ofFloat? x with
  | some f => .ok f.truncate
  | none => .error (if x.isNaN then .notANumber else if x < 0 then .negativeInfinity else .infinity)

end Calculator
