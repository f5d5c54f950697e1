import Calculator.Arithmetic.FiniteFloat
import Calculator.Arithmetic.Numeral
import Calculator.Arithmetic.NumericType

/-!
# 64-bit integers

The numeric type of signed 64-bit integers, held as integers of any size. Results wrap around as in
two's complement; operands are taken as they are.

* `Int64.wrap`: the representative of an integer modulo `2 ^ 64`.
* `Int64.power`: square and multiply, wrapping at every step.
* `Int64.randomBetween`: uniform over an interval, by rejection.
-/

namespace Calculator

namespace Int64

/-- How many values there are. -/
def count : Nat := 1 <<< 64

/-- The integer in `[-2 ^ 63, 2 ^ 63)` that is congruent modulo `2 ^ 64`. -/
def wrap (n : Int) : Int := n.bmod count

/-- The greatest value. -/
def maximum : Int := count / 2 - 1

/-! ## Literals and conversions -/

/-- A literal is a run of digits. -/
def isLiteral (text : Text) : Bool := !text.isEmpty && text.all Text.isDigit

/-- The integer that a text denotes, which must not exceed the greatest value. -/
def parseLiteral (text : Text) : Except Fault Int :=
  match Numeral.integer? text with
  | some n =>
    if maximum < n then .error (.error (.lexical (.literalOutOfRange text))) else .ok n
  | none => .error (.malformedInteger text)

/-- The value of a literal is the number that its digits denote. -/
theorem parseLiteral_of_isLiteral {text : Text} (h : isLiteral text = true) :
    parseLiteral text =
      if maximum < (Text.natValue text : Int) then
        .error (.error (.lexical (.literalOutOfRange text)))
      else .ok (Text.natValue text : Int) := by
  simp only [isLiteral, Bool.and_eq_true, Bool.not_eq_true', List.isEmpty_eq_false_iff] at h
  simp [parseLiteral, Numeral.integer?_of_all_isDigit h.1 h.2]

/-- The integer part of a float, wrapped. -/
def fromNumber (x : Float) : Except Fault Int :=
  match integerPart x with
  | .ok n => .ok (wrap n)
  | .error kind => .error (.error (.evaluation (.notAnInteger kind)))

/-- Integers are given as integers. -/
def representation : Representation Int where
  kind := .integer
  encode := .integer
  decode?
    | .integer n => some n
    | _ => none
  decode?_encode _ := rfl
  isSome_decode? s := by cases s <;> rfl

/-! ## Arithmetic -/

/-- The quotient truncated toward zero. -/
def divide (a b : Int) : Except Fault Int :=
  if b = 0 then .error (.error (.evaluation .divisionByZero)) else .ok (wrap (a.tdiv b))

/-- The remainder with the sign of the dividend. It is never larger than the dividend, and is not
wrapped. -/
def remainder (a b : Int) : Except Fault Int :=
  if b = 0 then .error (.error (.evaluation .remainderByZero)) else .ok (a.tmod b)

/-- `result · base ^ exponent`, wrapped at every step. -/
def powerLoop (result base : Int) (exponent : Nat) : Int :=
  if exponent = 0 then result
  else
    powerLoop (if exponent % 2 = 1 then wrap (result * base) else result) (wrap (base * base))
      (exponent / 2)
termination_by exponent

/-- The wrapped power. A negative exponent truncates the exact power toward zero. -/
def power (base exponent : Int) : Except Fault Int :=
  if 0 ≤ exponent then .ok (powerLoop 1 (wrap base) exponent.toNat)
  else if base = 0 then .error (.error (.evaluation .zeroToNegativePower))
  else if base = 1 then .ok 1
  else if base = -1 then .ok (if exponent % 2 = 0 then 1 else -1)
  else .ok 0

/-- The wrapped magnitude; the least value stays as it is. -/
def abs (a : Int) : Int := wrap (if a < 0 then -a else a)

/-! ## Random values -/

variable {σ : Type}

/-- A 64-bit draw read as a signed integer. -/
def random (g : Generator σ) (s : σ) : Except Fault Int × σ :=
  let (draw, s) := g.draw64 s
  (draw.map wrap, s)

/-- The draws below the limit are shared out evenly among `span` values. -/
def drawLimit (span : Int) : Int := count - count % span

/-- A value between two bounds in either order, both included. -/
def randomBetween (g : Generator σ) (a b : Int) (s : σ) : Except Fault Int × σ :=
  let low := min a b
  let span := max a b - low + 1
  if count ≤ span then random g s
  else
    let (draw, s) := g.drawBelow (drawLimit span) (g.patience + 1) s
    (draw.map fun d => low + d.tmod span, s)

/-! ## Functions of integers -/

/-- The built-in functions that need no float: integers are whole, and a magnitude wraps. -/
def direct : List (Text × (Int → Except Fault Int)) :=
  [(Text.ofString "abs", fun a => .ok (abs a)), (Text.ofString "round", .ok),
    (Text.ofString "ceil", .ok), (Text.ofString "floor", .ok)]

end Int64

/-- The type of signed 64-bit integers. -/
def int64 {σ : Type} : NumericType σ Int where
  name := Text.ofString "int64"
  literal := Int64.isLiteral
  parseLiteral := Int64.parseLiteral
  fromNumber := Int64.fromNumber
  toNumber := Float.ofInt
  representation := Int64.representation
  add a b := .ok (Int64.wrap (a + b))
  subtract a b := .ok (Int64.wrap (a - b))
  multiply a b := .ok (Int64.wrap (a * b))
  divide := Int64.divide
  remainder := Int64.remainder
  power := Int64.power
  negate a := .ok (Int64.wrap (-a))
  random := Int64.random
  direct := Int64.direct
  randomBetween := Int64.randomBetween

end Calculator
