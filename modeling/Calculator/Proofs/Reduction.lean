import Calculator.Automaton.Config

/-!
# Operands and reductions

Reading a number or an identifier puts one operand on the stack. A reduction takes the operands of a
right-hand side from the stack and puts one value in their place. For each production, the operands
that it expects fix the computation of that value, and the operands below are carried over
untouched.

* `Token.operands`: what reading a token puts on the stack.
* `Evaluation.pure_apply` and its siblings: what the single computations do to the store.
* `Evaluation.onto`: a computed value on top of a stack.
* `Production.evaluate_number` and its siblings: the value of each production.
-/

namespace Calculator

variable {σ T : Type}

theorem Terminal.binaryOp?_eq_some_iff {t : Terminal} {op : BinaryOp} :
    t.binaryOp? = some op ↔ t = .punctuation op.punctuation := by
  constructor
  · intro h
    cases t with
    | punctuation p => cases p <;> cases h <;> rfl
    | _ => cases h
  · rintro rfl
    exact BinaryOp.binaryOp?_punctuation op

/-- The operands that reading a token puts on the stack. -/
def Token.operands (t : Token T) : List (Operand T) :=
  match t.lexeme with
  | .number a _ => [.value a]
  | .identifier name => [.identifier name]
  | _ => []

theorem Token.operands_of_punctuation {t : Token T} {p : Punctuation}
    (h : t.terminal = .punctuation p) : t.operands = [] := by
  obtain ⟨lexeme, position⟩ := t
  cases lexeme <;> first | rfl | cases h

theorem Config.pushAhead_eq (c : Config σ T) : c.pushAhead = c.ahead.operands ++ c.operands := by
  cases h : c.ahead.lexeme <;> simp [pushAhead, Token.operands, h]

namespace Evaluation

@[simp] theorem liftM_apply {α : Type} (r : Except Fault α) (s : Store σ T) :
    (liftM r : Evaluation σ T α) s = (r, s) := by
  cases r <;> rfl

@[simp] theorem draw_apply {α : Type} (x : σ → Except Fault α × σ) (s : Store σ T) :
    (draw x : Evaluation σ T α) s = ((x s.source).1, ⟨s.symbols, (x s.source).2⟩) := rfl

@[simp] theorem resolve_identifier_apply (name : Text) (s : Store σ T) :
    (resolve (.identifier name) : Evaluation σ T T) s = (s.symbols.read name, s) := by
  change (liftM (s.symbols.read name) : Evaluation σ T T) s = _
  rw [liftM_apply]

@[simp] theorem store_apply (name : Text) (a : T) (s : Store σ T) :
    (do Evaluation.store name a; return a : Evaluation σ T T) s
      = (.ok a, ⟨s.symbols.insert name a, s.source⟩) := rfl

/-- Behind a value, a computation goes on with it. -/
theorem bind_apply_of_ok {α β : Type} {y : Evaluation σ T α} {f : α → Evaluation σ T β}
    {s s' : Store σ T} {a : α} (h : y s = (.ok a, s')) : (y >>= f) s = f a s' := by
  simp only [bind, ExceptT.bind, ExceptT.mk, StateT.bind, h]
  rfl

/-- Behind a fault, nothing is computed. -/
theorem bind_apply_of_error {α β : Type} {y : Evaluation σ T α} {f : α → Evaluation σ T β}
    {s s' : Store σ T} {fault : Fault} (h : y s = (.error fault, s')) :
    (y >>= f) s = (.error fault, s') := by
  simp only [bind, ExceptT.bind, ExceptT.mk, StateT.bind, h]
  rfl

end Evaluation

/-- The value of a computation on top of the operands below. -/
def Evaluation.onto (below : List (Operand T)) (x : Evaluation σ T T) :
    Evaluation σ T (List (Operand T)) := do
  return .value (← x) :: below

theorem Evaluation.onto_apply (below : List (Operand T)) (x : Evaluation σ T T)
    (store : Store σ T) :
    onto below x store =
      match x store with
      | (.ok a, store) => (.ok (.value a :: below), store)
      | (.error f, store) => (.error f, store) := by
  simp only [onto, bind, ExceptT.bind, ExceptT.mk, StateT.bind]
  rcases x store with ⟨_ | _, _⟩ <;> rfl

namespace Production

open Evaluation

variable (setup : Setup σ T) (a b : T) (name : Text) (below : List (Operand T))

theorem evaluate_number : number.evaluate setup (.value a :: below) = onto below (pure a) := rfl

theorem evaluate_bracket : bracket.evaluate setup (.value a :: below) = onto below (pure a) := rfl

theorem evaluate_identifier :
    identifier.evaluate setup (.identifier name :: below)
      = onto below (resolve (.identifier name)) := by
  simp [evaluate, Setup.popValue, Setup.pop, onto]

theorem evaluate_sign (s : Sign) :
    (sign s).evaluate setup (.value a :: below)
      = onto below (liftM (setup.type.applySign s a)) := rfl

theorem evaluate_binary (op : BinaryOp) :
    (binary op).evaluate setup (.value b :: .value a :: below)
      = onto below (liftM (setup.type.apply op a b)) := rfl

theorem evaluate_assign :
    assign.evaluate setup (.value a :: .identifier name :: below)
      = onto below (do Evaluation.store name a; return a) := rfl

theorem evaluate_call0 :
    call0.evaluate setup (.identifier name :: below)
      = onto below (draw (setup.type.call0 setup.generator name)) := rfl

theorem evaluate_call1 :
    call1.evaluate setup (.value a :: .identifier name :: below)
      = onto below (liftM (setup.type.call1 name a)) := rfl

theorem evaluate_call2 :
    call2.evaluate setup (.value b :: .value a :: .identifier name :: below)
      = onto below (draw (setup.type.call2 setup.generator name a b)) := rfl

end Production

end Calculator
