import Calculator.Machine
import Calculator.Proofs.Cloning
import Calculator.Proofs.Viable

/-!
# Evaluation without a past

What an evaluator was asked before, and where its evaluations broke off, shows in later evaluations
only through the variables and the state of the random source.

* `Config.Valid.remains_of_reduce`: the operands that a failing reduction leaves.
* `Evaluator.evaluateWith_outcome`: no outcome depends on the working state at the start.
* `Workshop.executeAll_session`: working states never show in answers.
* `Session.Kin`: evaluators of one session differ in their variables only.
* `Workshop.evaluation_forgets`: an evaluation after any history has the outcome that a new
  evaluator with the same variables gives.

Proof. Setting up anew replaces all of the working state but the token ahead, and reading the first
token either replaces that or ends the evaluation. No command changes the type, the constants or the
initial variables of an evaluator, and a copy is equal to its original. A table of variables is
restored by clearing a table and setting each variable in order.
-/

namespace Calculator

variable {σ T : Type}

/-! ## The working state at the end -/

/-- A reduction that fails has taken the operands of its right-hand side from the stack and no
others, as has one that succeeds. -/
theorem Production.Handle.below_eq {p : Production} {popped : List (Operand T)}
    {tokens : List (Token T)} (h : p.Handle popped tokens) (symbols : SymbolTable T)
    (rest : List (Operand T)) : Operand.below symbols p.takes (popped ++ rest) = rest := by
  cases h with
  | identifier name position =>
    -- Whether the variable has a value or not, it is off the stack.
    change (if symbols.contains name then rest else rest) = rest
    exact ite_self rest
  | _ => rfl

/-- So where a reduction ends the run, what lies below its right-hand side is left. -/
theorem Config.Valid.remains_of_reduce {setup : Setup σ T} {c : Config σ T} {tokens : List (Token T)}
    (h : c.Valid tokens) {item : Item} {p : Production} (control : c.control = .enter item)
    (action : item.action c.ahead.terminal = .reduce p) :
    ∃ popped read handle, c.operands = popped ++ (c.remains setup).operands ∧
      tokens = read ++ handle ∧ p.Handle popped handle ∧ (c.remains setup).unwind = p.length := by
  obtain ⟨popped, rest, read, handle, hoperands, htokens, hhandle⟩ := h.exists_handle control action
  have hremains : c.remains setup = { c.registers setup with
      operands := rest, unwind := p.length } := by
    simp only [remains, control, action, hoperands, hhandle.below_eq]
  rw [hremains]
  exact ⟨popped, read, handle, hoperands, htokens, hhandle, rfl⟩

/-! ## The working state at the start -/

/-- The token ahead is the only trace of an earlier evaluation at the start of the next one, and the
first token is read over it. -/
theorem Registers.fetch_config (r : Registers T) (setup : Setup σ T) (store : Store σ T) :
    ((r.clear setup.input).config store).fetch setup =
      (Config.initial setup store).fetch setup := rfl

theorem Evaluator.evaluateWith_outcome (e : Evaluator σ T) (r : Registers T) (input : Text)
    (source : σ) : (e.evaluateWith r input source).1 = e.evaluate input source := by
  have hfetch := r.fetch_config ⟨e.type, e.generator, input⟩ ⟨e.symbols, source⟩
  unfold evaluateWith evaluate Setup.run
  dsimp only at hfetch ⊢
  rw [hfetch]
  cases (Config.initial ⟨e.type, e.generator, input⟩ ⟨e.symbols, source⟩).fetch
      ⟨e.type, e.generator, input⟩ with
  | next c => rfl
  | halt o => rfl

namespace Workshop

theorem evaluate_eq (w : Workshop σ T) (index : Nat) (e : Evaluator σ T) (input : Text) :
    (w.evaluate index e input).1 = e.evaluate input w.session.source ∧
      (w.evaluate index e input).2.session =
        w.session.after index e (e.evaluate input w.session.source) := by
  rw [← e.evaluateWith_outcome (w.registers index)]
  exact ⟨rfl, rfl⟩

theorem executeOn_session (w : Workshop σ T) (index : Nat) (e : Evaluator σ T)
    (command : Command T) :
    (w.executeOn index e command).1 = (w.session.executeOn index e command).1 ∧
      (w.executeOn index e command).2.session = (w.session.executeOn index e command).2 := by
  cases command with
  | evaluate input =>
    obtain ⟨houtcome, hsession⟩ := w.evaluate_eq index e input
    exact ⟨congrArg (Reply.result ∘ Outcome.result) houtcome, hsession⟩
  | tryEvaluate input =>
    obtain ⟨houtcome, hsession⟩ := w.evaluate_eq index e input
    exact ⟨congrArg (Reply.tried ∘ Fault.catchErrors ∘ Outcome.result) houtcome, hsession⟩
  | clone => simp only [executeOn, assign, and_self]
  | get | set | has | erase | clear | reset | symbols | snapshot | view | functions | typeName =>
    simp only [executeOn, and_self]

theorem execute_session (w : Workshop σ T) (index : Nat) (command : Command T) :
    (w.execute index command).1 = (w.session.execute index command).1 ∧
      (w.execute index command).2.session = (w.session.execute index command).2 := by
  unfold execute Session.execute
  cases w.session.evaluators[index]? with
  | none => exact ⟨rfl, rfl⟩
  | some e => exact w.executeOn_session index e command

/-- **Working states never show**: a workshop answers as its session does. -/
theorem executeAll_session (w : Workshop σ T) (commands : List (Nat × Command T)) :
    (w.executeAll commands).1 = (w.session.executeAll commands).1 ∧
      (w.executeAll commands).2.session = (w.session.executeAll commands).2 := by
  induction commands generalizing w with
  | nil => exact ⟨rfl, rfl⟩
  | cons c rest ih =>
    obtain ⟨index, command⟩ := c
    obtain ⟨hreply, hsession⟩ := w.execute_session index command
    obtain ⟨hreplies, hfinal⟩ := ih (w.execute index command).2
    rw [hsession] at hreplies hfinal
    exact ⟨congr (congrArg List.cons hreply) hreplies, hfinal⟩

end Workshop

/-! ## What a command changes -/

/-- The variables of an evaluator after a command. -/
def Command.variables (e : Evaluator σ T) (source : σ) : Command T → SymbolTable T
  | .evaluate input | .tryEvaluate input => (e.evaluate input source).store.symbols
  | .set name value => e.symbols.insert name value
  | .erase name => e.symbols.erase name
  | .clear => .empty
  | .reset => e.initial
  | _ => e.symbols

/-- The evaluator after a command. -/
def Evaluator.obey (e : Evaluator σ T) (source : σ) (command : Command T) : Evaluator σ T :=
  { e with symbols := command.variables e source }

namespace Session

variable {s : Session σ T} {index : Nat} {e : Evaluator σ T}

theorem executeAll_cons (s : Session σ T) (c : Nat × Command T) (rest : List (Nat × Command T)) :
    s.executeAll (c :: rest) =
      ((s.execute c.1 c.2).1 :: ((s.execute c.1 c.2).2.executeAll rest).1,
        ((s.execute c.1 c.2).2.executeAll rest).2) := rfl

theorem executeOn_clone (s : Session σ T) (index : Nat) (e : Evaluator σ T) :
    s.executeOn index e .clone =
      (.evaluator s.evaluators.length, { s with evaluators := s.evaluators ++ [e] }) := by
  unfold executeOn
  rw [e.clone_eq]

/-- The evaluators after a command. A copy comes last; any other command changes the variables of
its own evaluator, if anything. -/
def changed (evaluators : List (Evaluator σ T)) (index : Nat) (e : Evaluator σ T) (source : σ) :
    Command T → List (Evaluator σ T)
  | .clone => evaluators ++ [e]
  | command => evaluators.set index (e.obey source command)

theorem executeOn_evaluators (he : s.evaluators[index]? = some e) (command : Command T) :
    (s.executeOn index e command).2.evaluators =
      changed s.evaluators index e s.source command := by
  have hsame : ∀ c : Command T, c.variables e s.source = e.symbols →
      s.evaluators = s.evaluators.set index (e.obey s.source c) := by
    intro c hc
    obtain ⟨hlt, rfl⟩ := List.getElem?_eq_some_iff.1 he
    rw [Evaluator.obey, hc]
    exact (List.set_getElem_self hlt).symm
  cases command with
  | clone =>
    rw [executeOn_clone]
    rfl
  | view snapshot =>
    refine Eq.trans ?_ (hsame (.view snapshot) rfl)
    unfold executeOn
    dsimp only
    split <;> rfl
  | get | has | symbols | snapshot | functions | typeName => exact hsame _ rfl
  | evaluate | tryEvaluate | set | erase | clear | reset => rfl

/-- No evaluator is ever lost. -/
theorem length_le_execute (s : Session σ T) (index : Nat) (command : Command T) :
    s.evaluators.length ≤ (s.execute index command).2.evaluators.length := by
  unfold execute
  split
  · next e he =>
    rw [executeOn_evaluators he]
    unfold changed
    split
    · simp
    · simp
  · exact Nat.le_refl _

theorem length_le_executeAll (s : Session σ T) (commands : List (Nat × Command T)) :
    s.evaluators.length ≤ (s.executeAll commands).2.evaluators.length := by
  induction commands generalizing s with
  | nil => exact Nat.le_refl _
  | cons c rest ih => exact Nat.le_trans (s.length_le_execute c.1 c.2) (ih _)

/-- All evaluators of the session are like the given one but for their variables. -/
def Kin (e : Evaluator σ T) (s : Session σ T) : Prop :=
  ∀ d ∈ s.evaluators, d = { e with symbols := d.symbols }

theorem execute_kin (h : s.Kin e) (index : Nat) (command : Command T) :
    (s.execute index command).2.Kin e := by
  unfold execute
  split
  · next d hd =>
    have hkin := h d (List.mem_of_getElem? hd)
    intro d' hd'
    rw [executeOn_evaluators hd] at hd'
    unfold changed at hd'
    split at hd'
    · rcases List.mem_append.1 hd' with hd' | hd'
      · exact h d' hd'
      · rw [List.mem_singleton.1 hd']
        exact hkin
    · rcases List.mem_or_eq_of_mem_set hd' with hd' | rfl
      · exact h d' hd'
      · unfold Evaluator.obey
        rw [hkin]
  · exact h

theorem executeAll_kin (h : s.Kin e) (commands : List (Nat × Command T)) :
    (s.executeAll commands).2.Kin e := by
  induction commands generalizing s with
  | nil => exact h
  | cons c rest ih => exact ih (execute_kin h c.1 c.2)

end Session

/-! ## Restoring variables -/

namespace Workshop

/-- Commands that give an evaluator the variables of a table and no others. -/
def refill (index : Nat) (t : SymbolTable T) : List (Nat × Command T) :=
  (index, .clear) :: t.entries.map fun v => (index, .set v.1 v.2)

theorem executeAll_set (e : Evaluator σ T) (source : σ) (pairs : List (Text × T)) :
    ((Session.start e source).executeAll (pairs.map fun v => (0, .set v.1 v.2))).2 =
      .start { e with symbols := e.symbols.insertAll pairs } source := by
  induction pairs generalizing e with
  | nil => rfl
  | cons v rest ih => exact ih (e.setVariable v.1 v.2)

theorem executeAll_refill (e : Evaluator σ T) (source : σ) (t : SymbolTable T) :
    ((Session.start e source).executeAll (refill 0 t)).2 =
      .start { e with symbols := t } source := by
  have h := executeAll_set e.clearVariables source t.entries
  change _ = Session.start { e with symbols := SymbolTable.empty.insertAll t.entries } source at h
  rw [SymbolTable.insertAll_entries] at h
  exact h

/-! ## Evaluation after a history -/

theorem outcome_eq (w : Workshop σ T) (index : Nat) (input : Text) :
    w.outcome index input =
      w.session.evaluators[index]?.map fun e => e.evaluate input w.session.source := by
  unfold outcome
  congr 1
  funext e
  exact (w.evaluate_eq index e input).1

theorem exists_of_toOption {ε α : Type} {x : Except ε α} (h : x.toOption.isSome = true) :
    ∃ a, x = .ok a := by
  cases x with
  | error f => cases h
  | ok a => exact ⟨a, rfl⟩

/-- The first evaluator of a workshop is there after any history. -/
theorem exists_first (e : Evaluator σ T) (source : σ) (history : List (Nat × Command T)) :
    ∃ d, ((start e source).executeAll history).2.session.evaluators[0]? = some d := by
  have hle := (start e source).session.length_le_executeAll history
  rw [← ((start e source).executeAll_session history).2] at hle
  exact ⟨_, List.getElem?_eq_getElem (Nat.lt_of_lt_of_le Nat.zero_lt_one hle)⟩

/-- **Evaluation has no past.** Take an evaluator of a workshop after any commands, on it and on
copies of it, at whatever point its evaluations broke off. Take, on the other hand, a new evaluator
of the same type and constants, give it the same variables, and start it from the same state of the
random source. Both give the same outcome for each text: value or fault, variables, state of the
source and warnings. This is so whatever the working states are. -/
theorem evaluation_forgets {type : NumericType σ T} {g : Generator σ} {constants : Setting}
    {e : Evaluator σ T} (hcreate : Evaluator.create type g constants = .ok e) (source : σ)
    (history : List (Nat × Command T)) (index : Nat) (d : Evaluator σ T)
    (hd : ((start e source).executeAll history).2.session.evaluators[index]? = some d)
    (input : Text) :
    let w := ((start e source).executeAll history).2
    ∃ new, Evaluator.create type g constants = .ok new ∧
      let w' := ((start new w.session.source).executeAll (refill 0 d.symbols)).2
      w'.session.evaluators.map (·.symbols) = [d.symbols] ∧ w'.session.source = w.session.source ∧
      (w.outcome index input).isSome ∧
      ∀ registers registers' : Nat → Registers T,
        { w with registers }.outcome index input =
          { w' with registers := registers' }.outcome 0 input := by
  intro w
  refine ⟨e, hcreate, ?_⟩
  intro w'
  -- Of the history, only the variables and the source are left.
  have hkin : d = { e with symbols := d.symbols } := by
    have hsession := ((start e source).executeAll_session history).2
    rw [hsession] at hd
    have hstart : (Session.start e source).Kin e := fun d hd => by rw [List.mem_singleton.1 hd]
    exact Session.executeAll_kin hstart history d (List.mem_of_getElem? hd)
  have hw' : w'.session = .start d w.session.source := by
    rw [(executeAll_session _ _).2, hkin]
    exact executeAll_refill e w.session.source d.symbols
  have hd' : w.session.evaluators[index]? = some d := hd
  refine ⟨by rw [hw']; rfl, by rw [hw']; rfl, by rw [outcome_eq, hd']; rfl, fun r r' => ?_⟩
  rw [outcome_eq, outcome_eq]
  dsimp only
  rw [hd', hw']
  rfl

/-- An evaluation that breaks off at a product, one that stores a variable before it fails, and a
copy on which a constant is overwritten. -/
theorem evaluation_forgets_broken_off :
    let constants : Setting := .object [(Text.ofString "seven", .integer 7)]
    let history : List (Nat × Command Int) :=
      [(0, .evaluate (Text.ofString "2 + (3 * nope")), (0, .tryEvaluate (Text.ofString "x = 5 $")),
        (0, .clone), (1, .set (Text.ofString "seven") 8), (0, .erase (Text.ofString "pi"))]
    let input := Text.ofString "y = seven * x"
    ∃ e d, Evaluator.create int64 RandomSource.generator constants = .ok e ∧
      let w := ((start e (.seeded 1)).executeAll history).2
      w.session.evaluators[0]? = some d ∧
      let w' := ((start e w.session.source).executeAll (refill 0 d.symbols)).2
      (w.outcome 0 input).isSome ∧
      ∀ registers registers' : Nat → Registers Int,
        { w with registers }.outcome 0 input =
          { w' with registers := registers' }.outcome 0 input := by
  intro constants history input
  obtain ⟨e, hcreate⟩ : ∃ e, Evaluator.create int64 RandomSource.generator constants = .ok e :=
    exists_of_toOption (by decide +kernel)
  obtain ⟨d, hd⟩ := exists_first e (.seeded 1) history
  obtain ⟨new, hnew, -, -, hdone, hforgets⟩ :=
    evaluation_forgets hcreate (.seeded 1) history 0 d hd input
  obtain rfl : new = e := Except.ok.inj (hnew.symm.trans hcreate)
  exact ⟨new, d, hcreate, hd, hdone, hforgets⟩

end Workshop

end Calculator
