import Calculator.Fault

/-!
# Decimal literals

Digits, an optional fraction and an optional exponent; the fraction and the exponent may be
incomplete, as in `12.` and `1e+`.

* `Decimal.isLiteral`: the texts that are literals.
* `Decimal.read`: the decimal number that a literal denotes; an incomplete exponent counts for
  nothing.
* `Decimal.startsNumber`: the texts at whose start a number can be read.
* `Decimal.normalize`: the only form of a number whose coefficient does not end in a zero.
* `Decimal.toFloat`: the nearest float.
-/

namespace Calculator

/-- The number `coefficient · 10^exponent`. -/
structure Decimal where
  coefficient : Nat
  exponent : Int
  deriving DecidableEq, Repr

namespace Decimal

/-! ## The shape of a literal -/

/-- An `E` of either case. -/
def isExponentMark (u : CodeUnit) : Bool := u == 69 || u == 101

/-- The decimal point. -/
def point : CodeUnit := 46

/-- Nothing, or an exponent whose digits may be missing. -/
def isExponentPart : Text → Bool
  | [] => true
  | u :: rest => isExponentMark u && (Text.dropSign rest).all Text.isDigit

/-- An optional fraction, whose digits may be missing, and an optional exponent. -/
def isTail : Text → Bool
  | [] => true
  | u :: rest =>
    if u = point then isExponentPart (rest.dropWhile Text.isDigit) else isExponentPart (u :: rest)

/-- A literal starts with a digit. -/
def isLiteral : Text → Bool
  | [] => false
  | u :: rest => Text.isDigit u && isTail (rest.dropWhile Text.isDigit)

/-! ## The number of a literal -/

/-- The exponent at the start of a text; zero if its digits are missing. -/
def readExponent : Text → Int
  | [] => 0
  | u :: rest =>
    if isExponentMark u then
      let n : Int := Text.natValue ((Text.dropSign rest).takeWhile Text.isDigit)
      if Text.isNegative rest then -n else n
    else 0

/-- The digits behind the point at the start of a text, and what follows them. -/
def readFraction : Text → Text × Text
  | [] => ([], [])
  | u :: rest =>
    if u = point then (rest.takeWhile Text.isDigit, rest.dropWhile Text.isDigit)
    else ([], u :: rest)

/-- The number that a literal denotes. The whole part may be missing, and what cannot belong to the
number counts for nothing. -/
def read (literal : Text) : Decimal :=
  let whole := literal.takeWhile Text.isDigit
  let (fraction, rest) := readFraction (literal.dropWhile Text.isDigit)
  ⟨Text.natValue (whole ++ fraction), readExponent rest - fraction.length⟩

/-- A number starts with a digit or with a point and a digit. -/
def startsNumber : Text → Bool
  | [] => false
  | u :: rest => Text.isDigit u || (u == point && rest.head?.any Text.isDigit)

theorem startsNumber_of_isLiteral {t : Text} (h : isLiteral t = true) : startsNumber t = true := by
  cases t with
  | nil => cases h
  | cons u rest => simp_all [isLiteral, startsNumber]

/-! ## The value of a number -/

/-- The same number without zeros at the end of its coefficient; zero has exponent zero. -/
def normalize (d : Decimal) : Decimal :=
  if d.coefficient = 0 then ⟨0, 0⟩
  else if d.coefficient % 10 = 0 then normalize ⟨d.coefficient / 10, d.exponent + 1⟩
  else d
termination_by d.coefficient
decreasing_by omega

/-- The float nearest to the number, ties to even. -/
def toFloat (d : Decimal) : Float :=
  let n := d.normalize
  Float.ofScientific n.coefficient (n.exponent < 0) n.exponent.natAbs

end Decimal

end Calculator
