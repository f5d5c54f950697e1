import Calculator.Evaluator

/-!
# Sessions

A session is a list of evaluators over one numeric type that draw from one random source. Commands are
carried out on one evaluator at a time; a clone joins the list.

* `Session.execute`: one command.
* `Session.executeAll`: commands in a row.
-/

namespace Calculator

/-- What can be asked of an evaluator. -/
inductive Command (T : Type)
  | evaluate (input : Text)
  | tryEvaluate (input : Text)
  | get (name : Text)
  | set (name : Text) (value : T)
  | has (name : Text)
  | erase (name : Text)
  | clear
  | reset
  | symbols
  /-- Keeps the variables of the moment. -/
  | snapshot
  /-- Looks at kept variables. -/
  | view (snapshot : Nat)
  | clone
  | functions
  | typeName

/-- The answer to a command. -/
inductive Reply (T : Type)
  | result (r : Except Fault T)
  | tried (r : Except Fault (Except Error T))
  | flag (b : Bool)
  | done
  | symbols (table : SymbolTable T)
  /-- The number under which a snapshot is kept. -/
  | snapshot (index : Nat)
  /-- The number of a new evaluator. -/
  | evaluator (index : Nat)
  | functions (list : List (Text × Nat))
  | typeName (name : Text)
  | failed (f : Fault)
  /-- There is no evaluator, or no snapshot, of the number. -/
  | missing

/-- Evaluators, kept snapshots, and the state of the source; the warnings so far. -/
structure Session (σ T : Type) where
  evaluators : List (Evaluator σ T)
  snapshots : List (SymbolTable T)
  source : σ
  warnings : List Ambiguity

namespace Session

variable {σ T : Type}

/-- A session with one evaluator. -/
def start (e : Evaluator σ T) (source : σ) : Session σ T := ⟨[e], [], source, []⟩

/-- The session with one of its evaluators replaced. -/
def update (s : Session σ T) (index : Nat) (e : Evaluator σ T) : Session σ T :=
  { s with evaluators := s.evaluators.set index e }

/-- The session after an evaluation by one of its evaluators. -/
def after (s : Session σ T) (index : Nat) (e : Evaluator σ T) (o : Outcome σ T) : Session σ T :=
  { s.update index (e.after o) with
    source := o.store.source, warnings := s.warnings ++ o.warnings }

/-- One command on an evaluator of the session. -/
def executeOn (s : Session σ T) (index : Nat) (e : Evaluator σ T) :
    Command T → Reply T × Session σ T
  | .evaluate input =>
    let outcome := e.evaluate input s.source
    (.result outcome.result, s.after index e outcome)
  | .tryEvaluate input =>
    let outcome := e.evaluate input s.source
    (.tried (Fault.catchErrors outcome.result), s.after index e outcome)
  | .get name => (.result (e.symbols.read name), s)
  | .set name value => (.result (.ok value), s.update index (e.setVariable name value))
  | .has name => (.flag (e.symbols.contains name), s)
  | .erase name => (.flag (e.symbols.contains name), s.update index (e.eraseVariable name))
  | .clear => (.done, s.update index e.clearVariables)
  | .reset => (.done, s.update index e.resetVariables)
  | .symbols => (.symbols e.symbols, s)
  | .snapshot =>
    (.snapshot s.snapshots.length, { s with snapshots := s.snapshots ++ [e.symbols] })
  | .view snapshot =>
    match s.snapshots[snapshot]? with
    | some table => (.symbols table, s)
    | none => (.missing, s)
  | .clone =>
    match e.clone with
    | .ok copy =>
      (.evaluator s.evaluators.length, { s with evaluators := s.evaluators ++ [copy] })
    | .error f => (.failed f, s)
  | .functions => (.functions builtins, s)
  | .typeName => (.typeName e.type.name, s)

/-- One command on the evaluator of a number. -/
def execute (s : Session σ T) (index : Nat) (command : Command T) : Reply T × Session σ T :=
  match s.evaluators[index]? with
  | some e => s.executeOn index e command
  | none => (.missing, s)

/-- Commands in a row, each with the number of its evaluator. -/
def executeAll (s : Session σ T) : List (Nat × Command T) → List (Reply T) × Session σ T
  | [] => ([], s)
  | (index, command) :: rest =>
    let (reply, s) := s.execute index command
    let (replies, s) := s.executeAll rest
    (reply :: replies, s)

end Session

end Calculator
