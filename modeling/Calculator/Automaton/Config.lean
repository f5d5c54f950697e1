import Calculator.Automaton.Item
import Calculator.Arithmetic.Builtin
import Calculator.Token.Cursor
import Calculator.SymbolTable

/-!
# Configurations of the automaton

The items that have been entered and not yet left are the states of the automaton; a stack beside
them holds the operands. A reduction computes a value and sets a counter to the number of items to
leave, one for each symbol of the production. When the counter is back at zero, the innermost item
left over goes on behind its operand.

* `Production.evaluate`: what a reduction computes.
* `Config.step`: one transition.
-/

namespace Calculator

variable {σ T : Type}

/-! ## Operands and evaluation -/

/-- An operand: a value, or an identifier whose use is not yet known. -/
inductive Operand (T : Type)
  | value (a : T)
  | identifier (name : Text)

/-- What evaluation changes: the variables and the random source. -/
structure Store (σ T : Type) where
  symbols : SymbolTable T
  source : σ

/-- What stays the same during one evaluation. -/
structure Setup (σ T : Type) where
  type : NumericType σ T
  generator : Generator σ
  input : Text

/-- Computations that may fail and that keep the changes they made before a fault. -/
abbrev Evaluation (σ T : Type) := ExceptT Fault (StateM (Store σ T))

namespace Evaluation

/-- A computation on the random source alone. -/
def draw {α : Type} (f : σ → Except Fault α × σ) : Evaluation σ T α := fun store =>
  let (result, source) := f store.source
  (result, { store with source })

/-- Stores a value under a name. -/
def store (name : Text) (value : T) : Evaluation σ T Unit :=
  modify fun store => { store with symbols := store.symbols.insert name value }

/-- The value of an operand; an identifier is read as a variable. -/
def resolve : Operand T → Evaluation σ T T
  | .value a => pure a
  | .identifier name => do liftM ((← get).symbols.read name)

end Evaluation

/-- The name of an identifier; a value is refused with the given error. -/
def Operand.name (refusal : Error) : Operand T → Except Fault Text
  | identifier name => .ok name
  | value _ => .error (.error refusal)

namespace Setup

/-- The topmost operand and those below it. -/
def pop (setup : Setup σ T) :
    List (Operand T) → Evaluation σ T (Operand T × List (Operand T))
  | [] => throw (.error (.notAccepted setup.input))
  | top :: below => pure (top, below)

/-- The value of the topmost operand, and the operands below it. -/
def popValue (setup : Setup σ T) (operands : List (Operand T)) :
    Evaluation σ T (T × List (Operand T)) := do
  let (top, below) ← setup.pop operands
  return (← Evaluation.resolve top, below)

end Setup

/-- The operands after a reduction: those of the right-hand side give way to one value. -/
def Production.evaluate (setup : Setup σ T) (p : Production) (operands : List (Operand T)) :
    Evaluation σ T (List (Operand T)) :=
  match p with
  | .number | .identifier | .bracket => do
    let (a, below) ← setup.popValue operands
    return .value a :: below
  | .sign s => do
    let (a, below) ← setup.popValue operands
    return .value (← setup.type.applySign s a) :: below
  | .binary op => do
    let (b, below) ← setup.popValue operands
    let (a, below) ← setup.popValue below
    return .value (← setup.type.apply op a b) :: below
  | .assign => do
    let (a, below) ← setup.popValue operands
    let (target, below) ← setup.pop below
    Evaluation.store (← target.name .assignmentTarget) a
    return .value a :: below
  | .call0 => do
    let (callee, below) ← setup.pop operands
    let name ← callee.name .notCallable
    return .value (← Evaluation.draw (setup.type.call0 setup.generator name)) :: below
  | .call1 => do
    let (a, below) ← setup.popValue operands
    let (callee, below) ← setup.pop below
    return .value (← setup.type.call1 (← callee.name .notCallable) a) :: below
  | .call2 => do
    let (b, below) ← setup.popValue operands
    let (a, below) ← setup.popValue below
    let (callee, below) ← setup.pop below
    let name ← callee.name .notCallable
    return .value (← Evaluation.draw (setup.type.call2 setup.generator name a b)) :: below

/-! ## Transitions -/

/-- What the automaton does next. -/
inductive Control
  /-- An item is entered. -/
  | enter (item : Item)
  /-- The innermost item goes on after the one that it had entered was left. -/
  | resume
  deriving DecidableEq, Repr

/-- A state of the whole automaton. -/
structure Config (σ T : Type) where
  control : Control
  /-- The items that have been entered and not left, innermost first. -/
  frames : List Item
  operands : List (Operand T)
  /-- How many items are still to be left because of the last reduction. -/
  unwind : Nat
  accepted : Bool
  ahead : Token T
  cursor : Cursor
  store : Store σ T
  warnings : List Ambiguity

/-- What an evaluation gives. -/
structure Outcome (σ T : Type) where
  result : Except Fault T
  store : Store σ T
  warnings : List Ambiguity

/-- The result of one transition. -/
inductive Transition (σ T : Type)
  | next (c : Config σ T)
  | halt (o : Outcome σ T)

namespace Config

/-- The evaluation stops with a fault. -/
def fault (c : Config σ T) (f : Fault) : Transition σ T := .halt ⟨.error f, c.store, c.warnings⟩

/-- The next token becomes the one ahead. -/
def fetch (setup : Setup σ T) (c : Config σ T) : Transition σ T :=
  let read := c.cursor.next setup.type
  let c := { c with cursor := read.cursor, warnings := c.warnings ++ read.warning.toList }
  match read.token with
  | .error f => c.fault f
  | .ok token => .next { c with ahead := token }

/-- The operand stack with the token ahead on it, if that is a number or an identifier. -/
def pushAhead (c : Config σ T) : List (Operand T) :=
  match c.ahead.lexeme with
  | .number a _ => .value a :: c.operands
  | .identifier name => .identifier name :: c.operands
  | _ => c.operands

/-- The token ahead is read in an item, and the next item is entered. -/
def shift (setup : Setup σ T) (item next : Item) (c : Config σ T) : Transition σ T :=
  { c with control := .enter next, frames := item :: c.frames, operands := c.pushAhead }.fetch setup

/-- A production is reduced, and the item that is complete is left. -/
def reduce (setup : Setup σ T) (p : Production) (c : Config σ T) : Transition σ T :=
  let reduced := p.evaluate setup c.operands c.store
  let c := { c with store := reduced.2 }
  match reduced.1 with
  | .error f => c.fault f
  | .ok operands => .next { c with control := .resume, operands, unwind := p.length - 1 }

/-- The error where an item has no transition. -/
def refusal (setup : Setup σ T) (item : Item) (c : Config σ T) : Error :=
  match c.ahead.lexeme with
  | .invalid text => .lexical (.strayInput text c.ahead.position)
  | lexeme => .grammar item.name lexeme.terminal.describe setup.input

/-- One transition out of an item that is entered. -/
def enter (setup : Setup σ T) (item : Item) (c : Config σ T) : Transition σ T :=
  match item.action c.ahead.terminal with
  | .shift next => c.shift setup item next
  | .reduce p => c.reduce setup p
  | .accept => .next { c with control := .resume, accepted := true, unwind := c.unwind - 1 }
  | .fail => c.fault (.error (c.refusal setup item))

/-- Whether the innermost item goes on behind its operand, instead of being left. -/
def continues (c : Config σ T) : Bool :=
  c.unwind == 0 && !c.operands.isEmpty && !c.accepted

/-- The end of the run, when all items have been left. -/
def finish (setup : Setup σ T) (c : Config σ T) : Outcome σ T :=
  match c.accepted, c.operands with
  | true, [top] =>
    let resolved := Evaluation.resolve top c.store
    ⟨resolved.1, resolved.2, c.warnings⟩
  | _, _ => ⟨.error (.error (.notAccepted setup.input)), c.store, c.warnings⟩

/-- One transition after an item has been left. -/
def resume (setup : Setup σ T) (c : Config σ T) : Transition σ T :=
  match c.frames with
  | [] => .halt (c.finish setup)
  | item :: below =>
    match item.afterOperand?, c.continues with
    | some next, true => .next { c with control := .enter next }
    | _, _ => .next { c with frames := below, unwind := c.unwind - 1 }

/-- One transition. -/
def step (setup : Setup σ T) (c : Config σ T) : Transition σ T :=
  match c.control with
  | .enter item => c.enter setup item
  | .resume => c.resume setup

end Config

end Calculator
