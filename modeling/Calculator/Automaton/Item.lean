import Calculator.Token.Basic

/-!
# The transition table

The grammar is

    start → E end
    E → identifier = E | E op E | sign E | ( E ) | number | identifier
      | identifier ( ) | identifier ( E ) | identifier ( E , E )

An item is a production with a point in it, up to which the production has been read. The table
says for each item and each terminal ahead whether to read on, to reduce, to accept or to fail.
Precedence decides where both reading on and reducing are possible.

* `Item.action`: the table.
* `Item.afterOperand?`: where an item goes on when the operand behind its point has been read.
* `Production.length`: the number of symbols that a reduction replaces.
-/

namespace Calculator

/-- A production of `E`. -/
inductive Production
  | number
  | identifier
  | sign (s : Sign)
  | binary (op : BinaryOp)
  | bracket
  | assign
  | call0
  | call1
  | call2
  deriving DecidableEq, Repr

/-- The number of symbols on the right-hand side. -/
def Production.length : Production → Nat
  | number | identifier => 1
  | sign _ => 2
  | binary _ | bracket | assign | call0 => 3
  | call1 => 4
  | call2 => 6

/-- A production with a point up to which it has been read. -/
inductive Item
  /-- `start → • E end` -/
  | start
  /-- `start → E • end` -/
  | afterExpr
  /-- `E → sign • E` -/
  | unaryAfterOp (s : Sign)
  /-- `E → sign E •` -/
  | afterUnary (s : Sign)
  /-- `E → E op • E` -/
  | binaryAfterOp (op : BinaryOp)
  /-- `E → E op E •` -/
  | afterBinary (op : BinaryOp)
  /-- `E → ( • E )` -/
  | afterBracket
  /-- `E → ( E • )` -/
  | bracketAfterExpr
  /-- `E → ( E ) •` -/
  | afterBracketExpr
  /-- `E → number •` -/
  | afterNumber
  /-- `E → identifier •`, and all other productions that start with an identifier. -/
  | afterIdent
  /-- `E → identifier = • E` -/
  | assignAfterIdent
  /-- `E → identifier = E •` -/
  | afterAssign
  /-- `E → identifier ( • )`, and the calls with arguments. -/
  | callAfterIdent
  /-- `E → identifier ( ) •` -/
  | afterCall0
  /-- `E → identifier ( E • )`, and the call with two arguments. -/
  | callAfterArg
  /-- `E → identifier ( E ) •` -/
  | afterCall1
  /-- `E → identifier ( E , • E )` -/
  | callAfterComma
  /-- `E → identifier ( E , E • )` -/
  | callAfterArg2
  /-- `E → identifier ( E , E ) •` -/
  | afterCall2
  deriving DecidableEq, Repr

/-- What to do in an item. -/
inductive Action
  /-- Read the terminal ahead and enter an item. -/
  | shift (next : Item)
  /-- Replace the right-hand side of a production by its left-hand side. -/
  | reduce (p : Production)
  | accept
  | fail
  deriving DecidableEq, Repr

namespace Item

/-- The name of the item in grammar errors. -/
def name : Item → Text
  | start => Text.ofString "start"
  | afterExpr => Text.ofString "afterExpr"
  | unaryAfterOp _ => Text.ofString "unaryAfterOp"
  | afterUnary _ => Text.ofString "afterUnary"
  | binaryAfterOp .add | binaryAfterOp .sub => Text.ofString "addAfterOp"
  | binaryAfterOp .mul | binaryAfterOp .div | binaryAfterOp .rem => Text.ofString "mulAfterOp"
  | binaryAfterOp .pow => Text.ofString "powAfterOp"
  | afterBinary .add | afterBinary .sub => Text.ofString "afterAdd"
  | afterBinary .mul | afterBinary .div | afterBinary .rem => Text.ofString "afterMul"
  | afterBinary .pow => Text.ofString "afterPow"
  | afterBracket => Text.ofString "afterBracket"
  | bracketAfterExpr => Text.ofString "bracketAfterExpr"
  | afterBracketExpr => Text.ofString "afterBracketExpr"
  | afterNumber => Text.ofString "afterNumber"
  | afterIdent => Text.ofString "afterIdent"
  | assignAfterIdent => Text.ofString "assignAfterIdent"
  | afterAssign => Text.ofString "afterAssign"
  | callAfterIdent => Text.ofString "callAfterIdent"
  | afterCall0 => Text.ofString "afterCall0"
  | callAfterArg => Text.ofString "callAfterArg"
  | afterCall1 => Text.ofString "afterCall1"
  | callAfterComma => Text.ofString "callAfterComma"
  | callAfterArg2 => Text.ofString "callAfterArg2"
  | afterCall2 => Text.ofString "afterCall2"

/-- The item with the point moved over the operand that it expects. -/
def afterOperand? : Item → Option Item
  | start => some afterExpr
  | unaryAfterOp s => some (afterUnary s)
  | binaryAfterOp op => some (afterBinary op)
  | afterBracket => some bracketAfterExpr
  | assignAfterIdent => some afterAssign
  | callAfterIdent => some callAfterArg
  | callAfterComma => some callAfterArg2
  | _ => none

/-! ## The table by the place of the point -/

/-- In front of an operand: whatever can begin one is read. -/
def operandAction : Terminal → Action
  | .number => .shift afterNumber
  | .identifier => .shift afterIdent
  | .punctuation .plus => .shift (unaryAfterOp .plus)
  | .punctuation .minus => .shift (unaryAfterOp .minus)
  | .punctuation .leftParen => .shift afterBracket
  | _ => .fail

/-- Behind a complete production: it is reduced if the terminal may follow an operand. -/
def completeAction (p : Production) (t : Terminal) : Action :=
  if t.isFollow then .reduce p else .fail

/-- Behind the last operand of a production: an operator that binds tighter is read, and otherwise
the production is reduced. -/
def tightAction (pending : Pending) (p : Production) (t : Terminal) : Action :=
  match t.binaryOp? with
  | some op => if op.bindsTighter pending then .shift (binaryAfterOp op) else completeAction p t
  | none => completeAction p t

/-- Behind an operand that any operator extends; `otherwise` decides on the other terminals. -/
def looseAction (otherwise : Terminal → Action) (t : Terminal) : Action :=
  match t.binaryOp? with
  | some op => .shift (binaryAfterOp op)
  | none => otherwise t

/-- The transition table. -/
def action (item : Item) (t : Terminal) : Action :=
  match item with
  | start | unaryAfterOp _ | binaryAfterOp _ | afterBracket | assignAfterIdent | callAfterComma =>
    operandAction t
  | callAfterIdent =>
    match t with
    | .punctuation .rightParen => .shift afterCall0
    | _ => operandAction t
  | afterIdent =>
    match t with
    | .punctuation .equals => .shift assignAfterIdent
    | .punctuation .leftParen => .shift callAfterIdent
    | _ => completeAction .identifier t
  | afterExpr =>
    looseAction (fun
      | .finish => .accept
      | _ => .fail) t
  | bracketAfterExpr =>
    looseAction (fun
      | .punctuation .rightParen => .shift afterBracketExpr
      | _ => .fail) t
  | callAfterArg =>
    looseAction (fun
      | .punctuation .comma => .shift callAfterComma
      | .punctuation .rightParen => .shift afterCall1
      | _ => .fail) t
  | callAfterArg2 =>
    looseAction (fun
      | .punctuation .rightParen => .shift afterCall2
      | _ => .fail) t
  | afterAssign => looseAction (completeAction .assign) t
  | afterUnary s => tightAction .sign (.sign s) t
  | afterBinary op => tightAction (.binary op) (.binary op) t
  | afterNumber => completeAction .number t
  | afterBracketExpr => completeAction .bracket t
  | afterCall0 => completeAction .call0 t
  | afterCall1 => completeAction .call1 t
  | afterCall2 => completeAction .call2 t

/-! ## Facts about the table -/

/-- The end is never read. -/
theorem action_finish_ne_shift (item next : Item) : item.action .finish ≠ .shift next := by
  cases item <;>
    simp [action, operandAction, looseAction, tightAction, completeAction, Terminal.binaryOp?,
      Terminal.isFollow]

theorem action_callAfterIdent {t : Terminal} (h : t ≠ .punctuation .rightParen) :
    callAfterIdent.action t = operandAction t := by
  rw [action]
  exact h

theorem action_afterIdent {t : Terminal} (h₁ : t ≠ .punctuation .equals)
    (h₂ : t ≠ .punctuation .leftParen) :
    afterIdent.action t = completeAction .identifier t := by
  rw [action]
  · exact h₁
  · exact h₂

/-- The items behind a single symbol, whose production has no other. -/
def isSingle : Item → Bool
  | afterNumber | afterIdent => true
  | _ => false

theorem one_lt_length_of_action {item : Item} {t : Terminal} {p : Production}
    (h : item.action t = .reduce p) (hs : item.isSingle = false) : 1 < p.length := by
  cases item <;>
    simp only [isSingle, reduceCtorEq, action, operandAction, looseAction,
      tightAction, completeAction] at h hs <;>
    grind [Production.length]

theorem isSingle_of_afterOperand? {item next : Item} (h : item.afterOperand? = some next) :
    next.isSingle = false := by
  cases item <;> simp only [afterOperand?, Option.some.injEq, reduceCtorEq] at h <;> subst h <;> rfl

end Item

end Calculator
