import Calculator.Fault

/-!
# The error function

* `erf`, `erfc`: a Maclaurin series for small arguments, a Chebyshev fit for the others.
-/

namespace Calculator

namespace ErrorFunction

/-- The float nearest to the circle constant. -/
def pi : Float := Float.ofBits 0x400921fb54442d18

/-- The derivative of the error function at zero. -/
def slopeAtZero : Float := 2 / pi.sqrt

/-- The distance from one to the next greater float. -/
def epsilon : Float := Float.ofBits 0x3cb0000000000000

/-- The sum of the series from its `n`-th term on, where `term` is `(-1)^n · x^(2n+1) / n!`. It ends
with the first contribution that is too small to matter, and after `count` terms at the latest. -/
def seriesFrom (x : Float) : (count n : Nat) → (term sum : Float) → Float
  | 0, _, _, sum => sum
  | count + 1, n, term, sum =>
    let contribution := term / (2 * Float.ofNat n + 1)
    let sum := sum + contribution
    if contribution.abs ≤ epsilon * sum.abs then sum
    else seriesFrom x count (n + 1) (term * ((-x * x) / (Float.ofNat n + 1))) sum

/-- The error function by its series of at most a hundred terms. -/
def series (x : Float) : Float := slopeAtZero * seriesFrom x 100 0 x 0

/-- The coefficients of the fit, lowest power first. -/
def coefficients : List Float :=
  [-1.26551223, 1.00002368, 0.37409196, 0.09678418, -0.18628806, 0.27886807, -1.13520398,
    1.48851587, -0.82215223, 0.17087277]

/-- The value of a polynomial by nested multiplication. -/
def horner (t : Float) : List Float → Float
  | [] => 0
  | [c] => c
  | c :: rest => c + t * horner t rest

/-- The complementary error function by a fit with a fractional error below 1.2e-7. -/
def fit (x : Float) : Float :=
  let z := x.abs
  let t := 1 / (1 + 0.5 * z)
  let value := t * (-z * z + horner t coefficients).exp
  if 0 ≤ x then value else 2 - value

/-- Minus one, one, or the float itself if it is a zero or NaN. -/
def signum (x : Float) : Float := if 0 < x then 1 else if x < 0 then -1 else x

end ErrorFunction

open ErrorFunction

/-- The error function. -/
def erf (x : Float) : Float :=
  if x.abs < 2 then series x else signum x * (1 - fit x.abs)

/-- One minus the error function, without cancellation for large arguments. -/
def erfc (x : Float) : Float := if x.abs < 2 then 1 - series x else fit x

end Calculator
