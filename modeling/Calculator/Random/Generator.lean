import Calculator.Fault

/-!
# Generators

A generator draws words and floats from states of some kind, so that an evaluation is a function of
the state that it starts from.

* `Generator`: how to draw from a state.
* `Generator.draw64`, `Generator.drawBelow`: 64-bit draws, repeated until one is in range.
-/

namespace Calculator

/-- How to draw from states of type `σ`. A word is meant to lie in `[0, 2 ^ 32)` and a unit in
`[0, 1)`. A float that is no number may stand in the place of a word. -/
structure Generator (σ : Type) where
  nextWord : σ → Except NonFinite Int × σ
  nextUnit : σ → Float × σ
  /-- How many rejected draws in a row are borne with. -/
  patience : Nat

/-! ## 64-bit draws -/

/-- Bitwise "or" of integers in two's complement. -/
def bitOr : Int → Int → Int
  | .ofNat a, .ofNat b => .ofNat (a ||| b)
  | .ofNat a, .negSucc b => .negSucc (b - (b &&& a))
  | .negSucc a, .ofNat b => .negSucc (a - (a &&& b))
  | .negSucc a, .negSucc b => .negSucc (a &&& b)

namespace Generator

variable {σ : Type}

/-- Two words, the high half first. -/
def draw64 (g : Generator σ) (s : σ) : Except Fault Int × σ :=
  match g.nextWord s with
  | (.error kind, s) => (.error (.malformedWord kind), s)
  | (.ok high, s) =>
    match g.nextWord s with
    | (.error kind, s) => (.error (.malformedWord kind), s)
    | (.ok low, s) => (.ok (bitOr (high * 4294967296) low), s)

/-- The first 64-bit draw below the limit, if one of the next `tries` is. -/
def drawBelow (g : Generator σ) (limit : Int) : Nat → σ → Except Fault Int × σ
  | 0, s => (.error .starved, s)
  | tries + 1, s =>
    match g.draw64 s with
    | (.error fault, s) => (.error fault, s)
    | (.ok draw, s) => if draw < limit then (.ok draw, s) else drawBelow g limit tries s

end Generator

end Calculator
