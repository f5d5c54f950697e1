/-!
# Operators

* `BinaryOp`, `Sign`: the operators between two operands and in front of one.
* `BinaryOp.bindsTighter`: whether an operator takes the operand away from a pending one.
-/

namespace Calculator

/-- The operators between two operands. -/
inductive BinaryOp
  | add | sub | mul | div | rem | pow
  deriving DecidableEq, Repr

/-- The operators in front of one operand. -/
inductive Sign
  | plus | minus
  deriving DecidableEq, Repr

/-- An operator whose right operand is being read. -/
inductive Pending
  | sign
  | binary (op : BinaryOp)
  deriving DecidableEq, Repr

/-- Precedence levels; a higher level binds tighter. -/
def BinaryOp.precedence : BinaryOp → Nat
  | add | sub => 1
  | mul | div | rem => 3
  | pow => 4

/-- Powers group to the right, all other operators to the left. -/
def BinaryOp.rightAssociative : BinaryOp → Bool
  | pow => true
  | _ => false

/-- A sign binds looser than a product and tighter than a sum: `-2^2` is `-(2^2)`. -/
def Pending.precedence : Pending → Nat
  | sign => 2
  | binary op => op.precedence

/-- Whether `next` is read on before the pending operator is applied: it binds tighter, or it has
the same level and groups to the right. -/
def BinaryOp.bindsTighter (next : BinaryOp) (pending : Pending) : Bool :=
  if next.precedence = pending.precedence then next.rightAssociative
  else pending.precedence < next.precedence

end Calculator
