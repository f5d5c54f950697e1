import Calculator.Automaton.Config

/-!
# Expression trees

* `Tree`: expressions with their parentheses.
* `Tree.lexemes`: how a tree is written.
* `Tree.evaluate`: the value of a tree, from left to right.
* `Tree.isGrouped`: whether a tree is what its own tokens mean. Two chains decide, one along the
  right edge of a left operand and one along the left edge of a right operand.
-/

namespace Calculator

variable {σ T : Type}

/-- Expressions with the parentheses that are written. -/
inductive Tree (T : Type)
  /-- A literal with its value. -/
  | num (a : T) (literal : Text)
  | var (name : Text)
  | paren (t : Tree T)
  | sign (s : Sign) (t : Tree T)
  | bin (op : BinaryOp) (l r : Tree T)
  | assign (name : Text) (t : Tree T)
  | call0 (name : Text)
  | call1 (name : Text) (t : Tree T)
  | call2 (name : Text) (l r : Tree T)

namespace Tree

/-- The tokens of a tree, with no parentheses but its own. -/
def lexemes : Tree T → List (Lexeme T)
  | num a literal => [.number a literal]
  | var name => [.identifier name]
  | paren t => .punctuation .leftParen :: t.lexemes ++ [.punctuation .rightParen]
  | sign s t => .punctuation s.punctuation :: t.lexemes
  | bin op l r => l.lexemes ++ .punctuation op.punctuation :: r.lexemes
  | assign name t => .identifier name :: .punctuation .equals :: t.lexemes
  | call0 name => [.identifier name, .punctuation .leftParen, .punctuation .rightParen]
  | call1 name t =>
    .identifier name :: .punctuation .leftParen :: t.lexemes ++ [.punctuation .rightParen]
  | call2 name l r =>
    .identifier name :: .punctuation .leftParen :: l.lexemes ++ .punctuation .comma :: r.lexemes ++
      [.punctuation .rightParen]

/-- The value of a tree. Operands are evaluated from left to right, and a fault ends it all. -/
def evaluate (type : NumericType σ T) (g : Generator σ) : Tree T → Evaluation σ T T
  | num a _ => pure a
  | var name => Evaluation.resolve (.identifier name)
  | paren t => t.evaluate type g
  | sign s t => do liftM (type.applySign s (← t.evaluate type g))
  | bin op l r => do
    let a ← l.evaluate type g
    let b ← r.evaluate type g
    liftM (type.apply op a b)
  | assign name t => do
    let a ← t.evaluate type g
    Evaluation.store name a
    return a
  | call0 name => Evaluation.draw (type.call0 g name)
  | call1 name t => do liftM (type.call1 name (← t.evaluate type g))
  | call2 name l r => do
    let a ← l.evaluate type g
    let b ← r.evaluate type g
    Evaluation.draw (type.call2 g name a b)

/-! ## Grouping -/

/-- The binary operators on the chain of left operands. -/
def leftSpine : Tree T → List BinaryOp
  | bin op l _ => op :: l.leftSpine
  | _ => []

/-- The constructs on the chain of right operands, operands of signs and right-hand sides of
assignments, as pending operators; an assignment is none. -/
def rightSpine : Tree T → List (Option Pending)
  | bin op _ r => some (.binary op) :: r.rightSpine
  | sign _ t => some .sign :: t.rightSpine
  | assign _ t => none :: t.rightSpine
  | _ => []

/-- Whether the operands of all operators and signs are what the operators take. A left operand has
nothing at its right edge that would take the operator with what follows: an assignment would, and
whatever the operator binds tighter than. A right operand has no operator at its left edge that does
not bind tighter than the one in front. -/
def isGrouped : Tree T → Bool
  | num _ _ | var _ | call0 _ => true
  | paren t | assign _ t | call1 _ t => t.isGrouped
  | sign _ t => t.leftSpine.all (·.bindsTighter .sign) && t.isGrouped
  | bin op l r =>
    l.rightSpine.all (fun q => !q.all op.bindsTighter) &&
      r.leftSpine.all (·.bindsTighter (.binary op)) && l.isGrouped && r.isGrouped
  | call2 _ l r => l.isGrouped && r.isGrouped

end Tree

end Calculator
