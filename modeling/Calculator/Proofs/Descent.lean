import Calculator.Automaton.Run

/-!
# Precedence climbing

A recursive evaluator for the grammar of the automaton, without items, operand stack or unwinding.
An expression is one operand and then, for as long as the operator ahead may be taken, that operator
with an expression as its right operand. Which operators may be taken depends on the pending one:
only those that bind tighter, or all of them if none is pending.

* `Descent.operand`: operands, given an evaluator for the expressions in them.
* `Descent.expression`, `Descent.operators`: the evaluator.
* `Setup.descend`: the evaluation of a whole text.
* `Descent.outcome`: how an evaluation ends that goes on in a given way.

Items appear only as the places that errors name. The recursion is on fuel; without fuel left, there
is no outcome.
-/

namespace Calculator

variable {σ T : Type}

/-- What the evaluator sees of the input and what evaluation has changed so far. -/
structure Scan (σ T : Type) where
  ahead : Token T
  cursor : Cursor
  store : Store σ T
  warnings : List Ambiguity

/-- The start of a text, with the end ahead until the first token has been read. -/
def Scan.start (input : Text) (store : Store σ T) : Scan σ T :=
  ⟨⟨.finish, 0⟩, .start input, store, []⟩

/-- The scan after a token has been read. -/
def Scan.read (s : Scan σ T) (setup : Setup σ T) (token : Token T) : Scan σ T :=
  let fetch := s.cursor.next setup.type
  { s with ahead := token, cursor := fetch.cursor, warnings := s.warnings ++ fetch.warning.toList }

/-- Computations that read tokens and evaluate, that may fail, and that may run out of fuel. -/
abbrev Descent (σ T : Type) := ExceptT Fault (StateT (Scan σ T) Option)

namespace Descent

/-! ## Tokens and evaluation -/

/-- The token ahead. -/
def ahead : Descent σ T (Token T) := return (← get).ahead

/-- The next token becomes the one ahead. -/
def fetch (setup : Setup σ T) : Descent σ T Unit := do
  let read := (← get).cursor.next setup.type
  modify fun scan =>
    { scan with cursor := read.cursor, warnings := scan.warnings ++ read.warning.toList }
  let token ← liftM read.token
  modify fun scan => { scan with ahead := token }

/-- The error that nothing may be done in the given place with the token ahead. -/
def refuse {α : Type} (setup : Setup σ T) (place : Item) : Descent σ T α := do
  let token ← ahead
  match token.lexeme with
  | .invalid text => throw (.error (.lexical (.strayInput text token.position)))
  | lexeme => throw (.error (.grammar place.name lexeme.terminal.describe setup.input))

/-- Refuses a token that cannot follow a complete operand. -/
def expectFollow (setup : Setup σ T) (place : Item) : Descent σ T Unit := do
  if (← ahead).terminal.isFollow then return else refuse setup place

/-- Reads a closing parenthesis. -/
def close (setup : Setup σ T) (place : Item) : Descent σ T Unit := do
  if (← ahead).terminal = .punctuation .rightParen then fetch setup else refuse setup place

/-- An evaluation, which reads nothing. -/
def perform {α : Type} (x : Evaluation σ T α) : Descent σ T α := do
  let (result, store) := x (← get).store
  modify fun scan => { scan with store }
  liftM result

/-- Nothing goes on without fuel. -/
def exhausted {α : Type} : Descent σ T α := fun _ => none

/-! ## Operands -/

section operand

variable (setup : Setup σ T) (inner : Item → Option Pending → Descent σ T T)

/-- From behind the opening parenthesis of a call on. -/
def call (name : Text) : Descent σ T T := do
  if (← ahead).terminal = .punctuation .rightParen then
    fetch setup
    expectFollow setup .afterCall0
    perform (Evaluation.draw (setup.type.call0 setup.generator name))
  else
    let a ← inner .callAfterIdent none
    match (← ahead).terminal with
    | .punctuation .rightParen => do
      fetch setup
      expectFollow setup .afterCall1
      perform (liftM (setup.type.call1 name a))
    | .punctuation .comma => do
      fetch setup
      let b ← inner .callAfterComma none
      close setup .callAfterArg2
      expectFollow setup .afterCall2
      perform (Evaluation.draw (setup.type.call2 setup.generator name a b))
    | _ => refuse setup .callAfterArg

/-- From behind an identifier on: only the next token tells its use. -/
def named (name : Text) : Descent σ T T := do
  match (← ahead).terminal with
  | .punctuation .equals => do
    fetch setup
    let a ← inner .assignAfterIdent none
    perform (do Evaluation.store name a; return a)
  | .punctuation .leftParen => do
    fetch setup
    call setup inner name
  | _ => do
    expectFollow setup .afterIdent
    perform (Evaluation.resolve (.identifier name))

/-- From the sign on. -/
def signed (s : Sign) : Descent σ T T := do
  fetch setup
  let a ← inner (.unaryAfterOp s) (some .sign)
  perform (liftM (setup.type.applySign s a))

/-- A number, a variable, an assignment, a call, an expression in parentheses, or a sign and what
binds tighter than it. -/
def operand (place : Item) : Descent σ T T := do
  match (← ahead).lexeme with
  | .number a _ => do
    fetch setup
    expectFollow setup .afterNumber
    return a
  | .identifier name => do
    fetch setup
    named setup inner name
  | .punctuation .plus => signed setup inner .plus
  | .punctuation .minus => signed setup inner .minus
  | .punctuation .leftParen => do
    fetch setup
    let a ← inner .afterBracket none
    close setup .bracketAfterExpr
    expectFollow setup .afterBracketExpr
    return a
  | _ => refuse setup place

end operand

/-! ## The evaluator -/

mutual

/-- An operand and the operators that may be taken behind it. -/
def expression (setup : Setup σ T) : Nat → Item → Option Pending → Descent σ T T
  | 0, _, _ => exhausted
  | fuel + 1, place, pending => do
    operators setup fuel pending (← operand setup (expression setup fuel) place)

/-- The operators behind the value of an operand, each with its right operand. -/
def operators (setup : Setup σ T) : Nat → Option Pending → T → Descent σ T T
  | 0, _, _ => exhausted
  | fuel + 1, pending, a => do
    match (← ahead).terminal.binaryOp? with
    | none => return a
    | some op =>
      if pending.all op.bindsTighter then
        fetch setup
        let b ← expression setup fuel (.binaryAfterOp op) (some (.binary op))
        operators setup fuel pending (← perform (liftM (setup.type.apply op a b)))
      else return a

end

/-- An expression and the end behind it. -/
def text (setup : Setup σ T) (fuel : Nat) : Descent σ T T := do
  fetch setup
  let a ← expression setup fuel .start none
  if (← ahead).terminal = .finish then return a else refuse setup .afterExpr

/-! ## Outcomes -/

/-- How an evaluation ends that goes on in the given way after `x`. -/
def outcome {α : Type} (x : Descent σ T α) (next : α → Scan σ T → Option (Outcome σ T))
    (s : Scan σ T) : Option (Outcome σ T) :=
  match x s with
  | none => none
  | some (.error f, s) => some ⟨.error f, s.store, s.warnings⟩
  | some (.ok a, s) => next a s

section outcome

variable {α β : Type} {next : α → Scan σ T → Option (Outcome σ T)} {s : Scan σ T}

theorem outcome_bind (x : Descent σ T α) (f : α → Descent σ T β)
    (next : β → Scan σ T → Option (Outcome σ T)) (s : Scan σ T) :
    (x >>= f).outcome next s = x.outcome (fun a => (f a).outcome next) s := by
  simp only [outcome, bind, ExceptT.bind, ExceptT.mk, StateT.bind]
  rcases x s with _ | ⟨_ | _, _⟩ <;> rfl

theorem outcome_ahead {next : Token T → Scan σ T → Option (Outcome σ T)} :
    (ahead : Descent σ T (Token T)).outcome next s = next s.ahead s := rfl

theorem outcome_get {next : Scan σ T → Scan σ T → Option (Outcome σ T)} :
    (get : Descent σ T (Scan σ T)).outcome next s = next s s := rfl

theorem outcome_modify (f : Scan σ T → Scan σ T) {next : Unit → Scan σ T → Option (Outcome σ T)} :
    (modify f : Descent σ T Unit).outcome next s = next () (f s) := rfl

theorem outcome_liftM (r : Except Fault α) :
    (liftM r : Descent σ T α).outcome next s =
      match r with
      | .ok a => next a s
      | .error f => some ⟨.error f, s.store, s.warnings⟩ := by
  cases r <;> rfl

theorem outcome_perform (x : Evaluation σ T α) :
    (perform x).outcome next s =
      match x s.store with
      | (.ok a, store) => next a { s with store }
      | (.error f, store) => some ⟨.error f, store, s.warnings⟩ := by
  rw [perform, outcome_bind, outcome_get]
  rcases x s.store with ⟨_ | _, _⟩ <;> rfl

theorem outcome_fetch (setup : Setup σ T) {next : Unit → Scan σ T → Option (Outcome σ T)} :
    (fetch setup).outcome next s =
      match (s.cursor.next setup.type).token with
      | .ok token => next () (s.read setup token)
      | .error f =>
        some ⟨.error f, s.store, s.warnings ++ (s.cursor.next setup.type).warning.toList⟩ := by
  simp only [fetch, outcome_bind, outcome_get, outcome_modify, outcome_liftM]
  cases (s.cursor.next setup.type).token <;> rfl

theorem outcome_expectFollow (setup : Setup σ T) (place : Item)
    {next : Unit → Scan σ T → Option (Outcome σ T)} :
    (expectFollow setup place).outcome next s =
      if s.ahead.terminal.isFollow then next () s else (refuse setup place).outcome next s := by
  rw [expectFollow, outcome_bind, outcome_ahead]
  split <;> rfl

theorem outcome_close (setup : Setup σ T) (place : Item)
    {next : Unit → Scan σ T → Option (Outcome σ T)} :
    (close setup place).outcome next s =
      if s.ahead.terminal = .punctuation .rightParen then (fetch setup).outcome next s
      else (refuse setup place).outcome next s := by
  rw [close, outcome_bind, outcome_ahead]
  split <;> rfl

end outcome

end Descent

/-- Evaluates the whole input from a store, by precedence climbing, unless the fuel runs out. -/
def Setup.descend (setup : Setup σ T) (fuel : Nat) (store : Store σ T) : Option (Outcome σ T) :=
  (Descent.text setup fuel).outcome (fun a s => some ⟨.ok a, s.store, s.warnings⟩)
    (.start setup.input store)

end Calculator
