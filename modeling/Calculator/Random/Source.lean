import Calculator.Arithmetic.FiniteFloat
import Calculator.Random.Generator

/-!
# Random sources

* `Mulberry.step`: a small generator with 32 bits of state.
* `RandomSource`: seeded sources, sources that replay lists, and the shared source.
-/

namespace Calculator

/-! ## Seeded words -/

namespace Mulberry

/-- The odd step by which the state moves on. -/
def increment : UInt32 := 0x6d2b79f5

/-- The word drawn from a state that has moved on. -/
def mix (state : UInt32) : UInt32 :=
  let t := (state ^^^ (state >>> 15)) * (state ||| 1)
  let t := t ^^^ (t + (t ^^^ (t >>> 7)) * (t ||| 61))
  t ^^^ (t >>> 14)

/-- One draw: the word and the next state. -/
def step (state : UInt32) : UInt32 × UInt32 :=
  (mix (state + increment), state + increment)

end Mulberry

/-! ## Sources -/

/-- A list that is read in turn, again and again. -/
structure Cycle (α : Type) where
  items : List α

/-- The item at the front, which moves to the back; a given one if there is none. -/
def Cycle.next {α : Type} (c : Cycle α) (whenEmpty : α) : α × Cycle α :=
  match c.items with
  | [] => (whenEmpty, c)
  | a :: rest => (a, ⟨rest ++ [a]⟩)

/-- The states of the random sources that come with the library. -/
inductive RandomSource
  /-- Words from a 32-bit state; a unit is a word divided by `2 ^ 32`. -/
  | seeded (state : UInt32)
  /-- Words and units, each from a list of their own. -/
  | listed (words : Cycle Int) (units : Cycle Float)
  /-- Units from one list; a word is the integer part of a unit multiplied by `2 ^ 32`. -/
  | shared (units : Cycle Float)

namespace RandomSource

/-- The source of a seed: its integer part modulo `2 ^ 32`, and zero for NaN and the infinities. -/
def ofSeed (seed : Float) : RandomSource :=
  match integerPart seed with
  | .ok n => .seeded (n % 4294967296).toNat.toUInt32
  | .error _ => .seeded 0

/-- The next word of a source. -/
def nextWord : RandomSource → Except NonFinite Int × RandomSource
  | seeded state =>
    let (word, state) := Mulberry.step state
    (.ok word.toNat, seeded state)
  | listed words units =>
    let (word, words) := words.next 0
    (.ok word, listed words units)
  | shared units =>
    let (unit, units) := units.next 0
    (integerPart (unit * 4294967296).floor, shared units)

/-- The next float of a source. -/
def nextUnit : RandomSource → Float × RandomSource
  | seeded state =>
    let (word, state) := Mulberry.step state
    (Float.ofNat word.toNat / 4294967296, seeded state)
  | listed words units =>
    let (unit, units) := units.next 0
    (unit, listed words units)
  | shared units =>
    let (unit, units) := units.next 0
    (unit, shared units)

/-- Drawing from the sources of the library. -/
def generator : Generator RandomSource where
  nextWord := nextWord
  nextUnit := nextUnit
  patience := 4294967296

end RandomSource

end Calculator
