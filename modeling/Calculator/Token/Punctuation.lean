import Calculator.Operator
import Calculator.Text

/-!
# Punctuation

The terminals of one fixed code unit, and the operators among them.

* `Punctuation.ofUnit?`, `Punctuation.ofText?`: the terminal that a unit or a whole text spells.
* `Punctuation.binaryOp?`, `Punctuation.sign?`: the operators that a terminal stands for.
-/

namespace Calculator

/-- The terminals spelled by one fixed code unit. -/
inductive Punctuation
  | plus | minus | star | slash | percent | caret | leftParen | rightParen | comma | equals
  deriving DecidableEq, Repr

namespace Punctuation

/-- The code unit that spells the terminal. -/
def unit : Punctuation → CodeUnit
  | plus => 43
  | minus => 45
  | star => 42
  | slash => 47
  | percent => 37
  | caret => 94
  | leftParen => 40
  | rightParen => 41
  | comma => 44
  | equals => 61

/-- All terminals. -/
def all : List Punctuation :=
  [plus, minus, star, slash, percent, caret, leftParen, rightParen, comma, equals]

/-- The terminal that a code unit spells, if it spells one. -/
def ofUnit? (u : CodeUnit) : Option Punctuation := all.find? (·.unit == u)

/-- The terminal that a whole text spells, if it spells one. -/
def ofText? : Text → Option Punctuation
  | [u] => ofUnit? u
  | _ => none

/-- The binary operator that a terminal stands for. -/
def binaryOp? : Punctuation → Option BinaryOp
  | plus => some .add
  | minus => some .sub
  | star => some .mul
  | slash => some .div
  | percent => some .rem
  | caret => some .pow
  | _ => none

/-- The sign that a terminal stands for. -/
def sign? : Punctuation → Option Sign
  | plus => some .plus
  | minus => some .minus
  | _ => none

@[simp] theorem ofUnit?_unit (p : Punctuation) : ofUnit? p.unit = some p := by
  cases p <;> rfl

theorem ofUnit?_eq_some_iff {u : CodeUnit} {p : Punctuation} :
    ofUnit? u = some p ↔ u = p.unit := by
  constructor
  · intro h
    have hp := List.find?_some h
    exact (eq_of_beq hp).symm
  · rintro rfl
    exact ofUnit?_unit p

theorem ofText?_eq_some_iff {t : Text} {p : Punctuation} :
    ofText? t = some p ↔ t = [p.unit] := by
  match t with
  | [] => simp [ofText?]
  | [u] => simp [ofText?, ofUnit?_eq_some_iff]
  | _ :: _ :: _ => simp [ofText?]

end Punctuation

/-- The terminal that spells a sign. -/
def Sign.punctuation : Sign → Punctuation
  | plus => .plus
  | minus => .minus

/-- The terminal that spells an operator. -/
def BinaryOp.punctuation : BinaryOp → Punctuation
  | add => .plus
  | sub => .minus
  | mul => .star
  | div => .slash
  | rem => .percent
  | pow => .caret

@[simp] theorem BinaryOp.binaryOp?_punctuation (op : BinaryOp) :
    op.punctuation.binaryOp? = some op := by
  cases op <;> rfl

end Calculator
