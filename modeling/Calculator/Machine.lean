import Calculator.Session

/-!
# Working states

Between evaluations an evaluator keeps the working state of the automaton. An evaluation that is
broken off leaves it as it stands at that moment. The next one sets up anew all but the token ahead,
which stays until the first token has been read.

* `Registers`: the working state; `Registers.clear` sets it up for an input.
* `Config.leftover`: the working state that a run leaves.
* `Evaluator.evaluateWith`: an evaluation that starts from a working state and leaves one.
* `Workshop`: a session with the working states of its evaluators.
-/

namespace Calculator

variable {σ T : Type}

/-! ## Working states -/

/-- What an evaluator keeps of its last evaluation. -/
structure Registers (T : Type) where
  input : Text
  cursor : Cursor
  ahead : Token T
  operands : List (Operand T)
  accepted : Bool
  unwind : Nat

namespace Registers

/-- The working state of an evaluator that has not evaluated anything. -/
def blank : Registers T where
  input := []
  cursor := .start []
  ahead := ⟨.finish, 0⟩
  operands := []
  accepted := false
  unwind := 0

/-- The working state set up for an input; the token ahead is still the old one. -/
def clear (r : Registers T) (input : Text) : Registers T :=
  { r with input, cursor := .start input, operands := [], accepted := false, unwind := 0 }

/-- The configuration that starts from a working state. -/
def config (r : Registers T) (store : Store σ T) : Config σ T where
  control := .enter .start
  frames := []
  operands := r.operands
  unwind := r.unwind
  accepted := r.accepted
  ahead := r.ahead
  cursor := r.cursor
  store := store
  warnings := []

end Registers

/-! ## What a run leaves -/

/-- The operands that a reduction takes from the stack, topmost first: of each whether its value is
asked for, or else its name. -/
def Production.takes : Production → List Bool
  | .number | .identifier | .bracket | .sign _ => [true]
  | .binary _ => [true, true]
  | .assign => [true, false]
  | .call0 => [false]
  | .call1 => [true, false]
  | .call2 => [true, true, false]

/-- The operands that are left when others were taken from above them. Taking ends early at a
variable without a value, which is off the stack by then. -/
def Operand.below (symbols : SymbolTable T) : List Bool → List (Operand T) → List (Operand T)
  | asked :: takes, top :: rest =>
    match asked, top with
    | true, .identifier name =>
      if symbols.contains name then Operand.below symbols takes rest else rest
    | _, _ => Operand.below symbols takes rest
  | _, operands => operands

namespace Config

/-- The working state of a configuration. -/
def registers (setup : Setup σ T) (c : Config σ T) : Registers T :=
  ⟨setup.input, c.cursor, c.ahead, c.operands, c.accepted, c.unwind⟩

/-- The working state at a transition with which the run ends. A token is on the stack before the
next one is read, and the items to leave are counted before operands are taken. -/
def remains (setup : Setup σ T) (c : Config σ T) : Registers T :=
  match c.control with
  | .resume => c.registers setup
  | .enter item =>
    match item.action c.ahead.terminal with
    | .shift _ =>
      { c.registers setup with
        operands := c.pushAhead, cursor := (c.cursor.next setup.type).cursor }
    | .reduce p =>
      { c.registers setup with
        operands := Operand.below c.store.symbols p.takes c.operands, unwind := p.length }
    | .accept | .fail => c.registers setup

/-- The working state at the end of the run. -/
def leftover (setup : Setup σ T) (c : Config σ T) : Registers T :=
  match _h : c.step setup with
  | .next c' => leftover setup c'
  | .halt _ => c.remains setup
termination_by descends_wf.wrap c
decreasing_by exact step_descends ‹_›

end Config

/-! ## Evaluation -/

/-- Evaluates a text from a working state, with the working state that is left. -/
def Evaluator.evaluateWith (e : Evaluator σ T) (r : Registers T) (input : Text) (source : σ) :
    Outcome σ T × Registers T :=
  let r := r.clear input
  let setup : Setup σ T := ⟨e.type, e.generator, input⟩
  match (r.config ⟨e.symbols, source⟩).fetch setup with
  | .next c => (c.run setup, c.leftover setup)
  | .halt o => (o, { r with cursor := (r.cursor.next e.type).cursor })

/-- A session, and the working state of the evaluator of each number. -/
structure Workshop (σ T : Type) where
  session : Session σ T
  registers : Nat → Registers T

namespace Workshop

/-- A workshop with one evaluator on which nothing has been done. -/
def start (e : Evaluator σ T) (source : σ) : Workshop σ T := ⟨.start e source, fun _ => .blank⟩

/-- The workshop with another working state of one evaluator. -/
def assign (w : Workshop σ T) (index : Nat) (r : Registers T) : Workshop σ T :=
  { w with registers := fun i => if i = index then r else w.registers i }

/-- An evaluation by an evaluator of the workshop. -/
def evaluate (w : Workshop σ T) (index : Nat) (e : Evaluator σ T) (input : Text) :
    Outcome σ T × Workshop σ T :=
  let left := e.evaluateWith (w.registers index) input w.session.source
  (left.1, { w with session := w.session.after index e left.1 }.assign index left.2)

/-- One command on an evaluator of the workshop. -/
def executeOn (w : Workshop σ T) (index : Nat) (e : Evaluator σ T) :
    Command T → Reply T × Workshop σ T
  | .evaluate input =>
    let done := w.evaluate index e input
    (.result done.1.result, done.2)
  | .tryEvaluate input =>
    let done := w.evaluate index e input
    (.tried (Fault.catchErrors done.1.result), done.2)
  | .clone =>
    let done := w.session.executeOn index e .clone
    (done.1, { w with session := done.2 }.assign w.session.evaluators.length .blank)
  | command =>
    let done := w.session.executeOn index e command
    (done.1, { w with session := done.2 })

/-- One command on the evaluator of a number. -/
def execute (w : Workshop σ T) (index : Nat) (command : Command T) : Reply T × Workshop σ T :=
  match w.session.evaluators[index]? with
  | some e => w.executeOn index e command
  | none => (.missing, w)

/-- Commands in a row, each with the number of its evaluator. -/
def executeAll (w : Workshop σ T) : List (Nat × Command T) → List (Reply T) × Workshop σ T
  | [] => ([], w)
  | (index, command) :: rest =>
    let first := w.execute index command
    let others := first.2.executeAll rest
    (first.1 :: others.1, others.2)

/-- What an evaluation by the evaluator of a number would give. -/
def outcome (w : Workshop σ T) (index : Nat) (input : Text) : Option (Outcome σ T) :=
  w.session.evaluators[index]?.map fun e => (w.evaluate index e input).1

end Workshop

end Calculator
