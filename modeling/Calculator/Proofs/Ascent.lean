import Calculator.Arithmetic.Int64
import Calculator.Proofs.Descent
import Calculator.Proofs.Reduction
import Calculator.Random.Source

/-!
# The automaton evaluates by precedence climbing

`Setup.descend_eq_run`: on every input, precedence climbing with enough fuel has the outcome of the
automaton, with the same value or error, the same variables, the same draws and the same warnings.

Proof. `Scan.ascend` runs the automaton from a scan with given items and operands and nothing left
to unwind. An evaluation that goes on by `next` agrees with the automaton at an item if its outcome
is that of `Scan.ascend` from the item entered. One lemma for each kind of transition carries
agreement from what comes after the transition to what comes before: `outcome_shift`,
`outcome_complete`, `outcome_refuse` and `outcome_reduce`, where a reduction also leaves the items
of its production (`Scan.run_unwind`). Along the evaluator (`Descent.Ascends`):

* an expression in some place starts where the automaton enters the item of the place, and goes on
  where it enters the item behind the operand, with the value on the stack;
* there the token ahead stops the pending operator (`Terminal.Stops`), so that the item behind the
  operand reduces, and no check of the token is needed.

The induction is on the fuel, of which there is more than tokens that can still be read.
-/

namespace Calculator

variable {σ T : Type}

/-! ## Items around an operand -/

/-- The operator whose right operand is expected at an item. -/
def Item.pending? : Item → Option Pending
  | unaryAfterOp _ => some .sign
  | binaryAfterOp op => some (.binary op)
  | _ => none

/-- The token may follow an operand, but its operator must not be taken before the pending one is
applied. -/
def Terminal.Stops (pending : Option Pending) (t : Terminal) : Prop :=
  t.isFollow = true ∧ ∀ op, t.binaryOp? = some op → pending.all op.bindsTighter = false

namespace Item

theorem action_of_afterOperand? {place after : Item} {t : Terminal} {op : BinaryOp}
    (hp : place.afterOperand? = some after) (hop : t.binaryOp? = some op)
    (h : place.pending?.all op.bindsTighter = true) :
    after.action t = .shift (.binaryAfterOp op) := by
  cases place <;> simp only [afterOperand?, Option.some.injEq, reduceCtorEq] at hp <;> subst hp <;>
    simp_all [action, looseAction, tightAction, pending?]

theorem tightAction_of_stops {pending : Pending} {p : Production} {t : Terminal}
    (h : t.Stops (some pending)) : tightAction pending p t = .reduce p := by
  obtain ⟨hf, hs⟩ := h
  rw [tightAction, completeAction, if_pos hf]
  split
  · next op hop =>
    have hb : op.bindsTighter pending = false := hs op hop
    rw [hb]
    rfl
  · rfl

theorem looseAction_of_stops {t : Terminal} (h : t.Stops none) (otherwise : Terminal → Action) :
    looseAction otherwise t = otherwise t := by
  unfold looseAction
  split
  · next op hop => exact absurd (h.2 op hop) (by simp)
  · rfl

end Item

/-! ## Runs from a scan -/

/-- The automaton in the midst of a text, with nothing left to unwind. -/
def Scan.config (s : Scan σ T) (control : Control) (frames : List Item)
    (operands : List (Operand T)) : Config σ T :=
  { control, frames, operands, unwind := 0, accepted := false
    ahead := s.ahead, cursor := s.cursor, store := s.store, warnings := s.warnings }

/-- Bounds how many tokens can still be read. -/
def Scan.unread (s : Scan σ T) : Nat := (s.config .resume [] []).unread

/-- How the automaton ends from a scan. -/
def Scan.ascend (setup : Setup σ T) (s : Scan σ T) (control : Control) (frames : List Item)
    (operands : List (Operand T)) : Option (Outcome σ T) :=
  some ((s.config control frames operands).run setup)

theorem Scan.fetch_config (setup : Setup σ T) (s : Scan σ T) (control : Control)
    (frames : List Item) (operands : List (Operand T)) :
    (s.config control frames operands).fetch setup =
      match (s.cursor.next setup.type).token with
      | .ok token => .next ((s.read setup token).config control frames operands)
      | .error f =>
        .halt ⟨.error f, s.store, s.warnings ++ (s.cursor.next setup.type).warning.toList⟩ := by
  unfold Config.fetch
  dsimp only [config]
  cases (s.cursor.next setup.type).token <;> rfl

theorem Scan.unread_read_lt {setup : Setup σ T} {s : Scan σ T} {token : Token T}
    (h : (s.cursor.next setup.type).token = .ok token) (hf : s.ahead.terminal ≠ .finish) :
    (s.read setup token).unread < s.unread := by
  have hfetch := fetch_config setup s .resume [] []
  rw [h] at hfetch
  exact Config.unread_lt_of_fetch hfetch hf

theorem Scan.unread_read_start_le (setup : Setup σ T) (store : Store σ T) (token : Token T) :
    ((start setup.input store).read setup token).unread ≤ 2 * setup.input.length + 1 := by
  have hrest : ((Cursor.start setup.input).next setup.type).cursor.rest.length
      ≤ setup.input.length := by
    rcases Cursor.rest_length_next setup.type (.start setup.input) with hlt | ⟨hnil, _⟩
    · exact Nat.le_of_lt hlt
    · rw [hnil]
      exact Nat.zero_le _
  have hahead : (if token.terminal = .finish then 0 else 1) ≤ 1 := by
    split
    · exact Nat.zero_le 1
    · exact Nat.le_refl 1
  exact Nat.add_le_add (Nat.mul_le_mul_left 2 hrest) hahead

theorem Scan.reduce_config {setup : Setup σ T} {p : Production} {x : Evaluation σ T T}
    {operands below : List (Operand T)} (hx : p.evaluate setup operands = Evaluation.onto below x)
    (s : Scan σ T) (control : Control) (frames : List Item) :
    (s.config control frames operands).reduce setup p =
      match x s.store with
      | (.ok a, store) =>
        .next { { s with store }.config .resume frames (.value a :: below) with
          unwind := p.length - 1 }
      | (.error f, store) => .halt ⟨.error f, store, s.warnings⟩ := by
  unfold Config.reduce
  dsimp only [config]
  rw [hx, Evaluation.onto_apply]
  rcases x s.store with ⟨_ | _, _⟩ <;> rfl

/-- As many items are left as there are to unwind. -/
theorem Scan.run_unwind (setup : Setup σ T) (s : Scan σ T) (left frames : List Item)
    (operands : List (Operand T)) :
    { s.config .resume (left ++ frames) operands with unwind := left.length }.run setup
      = (s.config .resume frames operands).run setup := by
  induction left with
  | nil => rfl
  | cons item left ih =>
    rw [← ih]
    refine Config.run_of_step_next ?_
    simp [Config.step, Config.resume, Config.continues, config]

/-- An item goes on behind its operand. -/
theorem Scan.ascend_resume {setup : Setup σ T} {place after : Item}
    (hp : place.afterOperand? = some after) (s : Scan σ T) (frames : List Item) (a : T)
    (operands : List (Operand T)) :
    s.ascend setup .resume (place :: frames) (.value a :: operands)
      = s.ascend setup (.enter after) (place :: frames) (.value a :: operands) := by
  refine congrArg some (Config.run_of_step_next ?_)
  simp [config, Config.step, Config.resume, Config.continues, hp]

namespace Descent

section transitions

variable {setup : Setup σ T} {s : Scan σ T} {item : Item} {frames : List Item}
  {operands : List (Operand T)} {α : Type} {next : α → Scan σ T → Option (Outcome σ T)}

theorem outcome_refuse (ha : item.action s.ahead.terminal = .fail) :
    (refuse setup item : Descent σ T α).outcome next s
      = s.ascend setup (.enter item) frames operands := by
  have hrun : (s.config (.enter item) frames operands).step setup
      = (s.config (.enter item) frames operands).fault
        (.error ((s.config (.enter item) frames operands).refusal setup item)) := by
    simp [Config.step, Config.enter, Scan.config, ha]
  rw [Scan.ascend, Config.run_of_step_halt hrun, refuse, outcome_bind, outcome_ahead,
    Config.refusal]
  dsimp only [Scan.config]
  cases s.ahead.lexeme <;> rfl

theorem outcome_shift (entered : Item) {f : Unit → Descent σ T α}
    (ha : item.action s.ahead.terminal = .shift entered)
    (h : ∀ s' : Scan σ T, s'.unread < s.unread →
      (f ()).outcome next s'
        = s'.ascend setup (.enter entered) (item :: frames) (s.ahead.operands ++ operands)) :
    (fetch setup >>= f).outcome next s = s.ascend setup (.enter item) frames operands := by
  have hf : s.ahead.terminal ≠ .finish := by
    intro hf
    rw [hf] at ha
    exact Item.action_finish_ne_shift item entered ha
  have hstep : (s.config (.enter item) frames operands).step setup
      = (s.config (.enter entered) (item :: frames)
          (s.ahead.operands ++ operands)).fetch setup := by
    simp only [Config.step, Scan.config, Config.enter, ha, Config.shift, Config.pushAhead_eq]
  rw [Scan.fetch_config] at hstep
  rw [outcome_bind, outcome_fetch, Scan.ascend]
  cases htoken : (s.cursor.next setup.type).token with
  | error f =>
    rw [htoken] at hstep
    rw [Config.run_of_step_halt hstep]
  | ok token =>
    rw [htoken] at hstep
    rw [Config.run_of_step_next hstep]
    exact h (s.read setup token) (Scan.unread_read_lt htoken hf)

theorem outcome_complete {p : Production} {f : Unit → Descent σ T α}
    (ha : item.action s.ahead.terminal = Item.completeAction p s.ahead.terminal)
    (h : s.ahead.terminal.isFollow = true →
      (f ()).outcome next s = s.ascend setup (.enter item) frames operands) :
    (expectFollow setup item >>= f).outcome next s
      = s.ascend setup (.enter item) frames operands := by
  rw [outcome_bind, outcome_expectFollow]
  split
  · next hf => exact h hf
  · next hf =>
    rw [Item.completeAction, if_neg hf] at ha
    exact outcome_refuse ha

theorem outcome_reduce (left : List Item) {p : Production} {x : Evaluation σ T T}
    {below : List (Operand T)} {next : T → Scan σ T → Option (Outcome σ T)}
    (ha : item.action s.ahead.terminal = .reduce p) (hp : left.length + 1 = p.length)
    (hx : p.evaluate setup operands = Evaluation.onto below x)
    (h : ∀ a store,
      next a { s with store } = { s with store }.ascend setup .resume frames (.value a :: below)) :
    (perform x).outcome next s = s.ascend setup (.enter item) (left ++ frames) operands := by
  have hstep : (s.config (.enter item) (left ++ frames) operands).step setup
      = (s.config (.enter item) (left ++ frames) operands).reduce setup p := by
    simp only [Config.step, Scan.config, Config.enter, ha]
  rw [Scan.reduce_config hx] at hstep
  rw [outcome_perform, Scan.ascend]
  rcases hresult : x s.store with ⟨f | a, store⟩
  · rw [hresult] at hstep
    rw [Config.run_of_step_halt hstep]
  · rw [hresult] at hstep
    rw [Config.run_of_step_next hstep]
    dsimp only
    rw [h, ← hp, Nat.add_sub_cancel]
    exact congrArg some (Scan.run_unwind setup { s with store } left frames _).symm

theorem outcome_close_bind (entered : Item) {f : Unit → Descent σ T α}
    (hshift : s.ahead.terminal = .punctuation .rightParen →
      item.action s.ahead.terminal = .shift entered)
    (hfail : s.ahead.terminal ≠ .punctuation .rightParen → item.action s.ahead.terminal = .fail)
    (h : ∀ s' : Scan σ T, s'.unread < s.unread →
      (f ()).outcome next s' = s'.ascend setup (.enter entered) (item :: frames) operands) :
    (close setup item >>= f).outcome next s = s.ascend setup (.enter item) frames operands := by
  rw [outcome_bind, outcome_close]
  split
  · next ht =>
    rw [← outcome_bind]
    refine outcome_shift entered (hshift ht) fun s' hs' => ?_
    rw [Token.operands_of_punctuation ht, List.nil_append]
    exact h s' hs'
  · next ht => exact outcome_refuse (hfail ht)

/-- The end is accepted behind an expression. -/
theorem ascend_accept {a : T} (ht : s.ahead.terminal = .finish) :
    s.ascend setup (.enter .afterExpr) [.start] [.value a]
      = some ⟨.ok a, s.store, s.warnings⟩ := by
  have haccept : (s.config (.enter .afterExpr) [.start] [.value a]).step setup
      = .next { s.config .resume [.start] [.value a] with accepted := true } := by
    simp [Scan.config, Config.step, Config.enter, Item.action, Item.looseAction, ht,
      Terminal.binaryOp?]
  have hleave : { s.config .resume [.start] [.value a] with accepted := true }.step setup
      = .next { s.config .resume [] [.value a] with accepted := true } := rfl
  have hfinish : { s.config .resume [] [.value a] with accepted := true }.step setup
      = .halt ⟨.ok a, s.store, s.warnings⟩ := rfl
  rw [Scan.ascend, Config.run_of_step_next haccept, Config.run_of_step_next hleave,
    Config.run_of_step_halt hfinish]

end transitions

/-! ## The evaluator along the automaton -/

/-- An evaluator of expressions agrees with the automaton from every item in front of an operand, if
what follows agrees from the item behind the operand. -/
def Ascends (setup : Setup σ T) (inner : Item → Option Pending → Descent σ T T) (s : Scan σ T) :
    Prop :=
  ∀ (place after : Item) (frames : List Item) (operands : List (Operand T))
    (next : T → Scan σ T → Option (Outcome σ T)),
    place.afterOperand? = some after →
    place.action s.ahead.terminal = Item.operandAction s.ahead.terminal →
    (∀ a s', s'.unread < s.unread → s'.ahead.terminal.Stops place.pending? →
      next a s' = s'.ascend setup (.enter after) (place :: frames) (.value a :: operands)) →
    (inner place place.pending?).outcome next s
      = s.ascend setup (.enter place) frames operands

section operand

variable {setup : Setup σ T} {inner : Item → Option Pending → Descent σ T T} {n : Nat}
  (ih : ∀ s : Scan σ T, s.unread < n → Ascends setup inner s)
  {s : Scan σ T} {frames : List Item} {operands : List (Operand T)}
  {next : T → Scan σ T → Option (Outcome σ T)}
include ih

theorem call_ascend (name : Text) (hs : s.unread < n)
    (hnext : ∀ a s', s'.unread ≤ s.unread → s'.ahead.terminal.isFollow = true →
      next a s' = s'.ascend setup .resume frames (.value a :: operands)) :
    (call setup inner name).outcome next s
      = s.ascend setup (.enter .callAfterIdent) (.afterIdent :: frames)
          (.identifier name :: operands) := by
  rw [call, outcome_bind, outcome_ahead]
  split
  · next ht =>
    refine outcome_shift .afterCall0 (by rw [ht]; rfl) fun s₁ hs₁ => ?_
    rw [Token.operands_of_punctuation ht, List.nil_append]
    refine outcome_complete rfl fun hf => ?_
    refine outcome_reduce [.callAfterIdent, .afterIdent] (if_pos hf) rfl
      (Production.evaluate_call0 ..) fun a store => ?_
    exact hnext a { s₁ with store } (Nat.le_of_lt hs₁) hf
  · next ht =>
    rw [outcome_bind]
    refine ih s hs .callAfterIdent .callAfterArg _ _ _ rfl (Item.action_callAfterIdent ht)
      fun a s₁ hs₁ hstop₁ => ?_
    rw [outcome_bind, outcome_ahead]
    have hloose := Item.looseAction_of_stops hstop₁
    split
    · next h₁ =>
      refine outcome_shift .afterCall1 (by rw [Item.action, hloose, h₁])
        fun s₂ hs₂ => ?_
      rw [Token.operands_of_punctuation h₁, List.nil_append]
      refine outcome_complete rfl fun hf => ?_
      refine outcome_reduce [.callAfterArg, .callAfterIdent, .afterIdent] (if_pos hf) rfl
        (Production.evaluate_call1 ..) fun b store => ?_
      have hread : s₂.unread ≤ s.unread := by omega
      exact hnext b { s₂ with store } hread hf
    · next h₁ =>
      refine outcome_shift .callAfterComma (by rw [Item.action, hloose, h₁])
        fun s₂ hs₂ => ?_
      rw [Token.operands_of_punctuation h₁, List.nil_append, outcome_bind]
      refine ih s₂ (by omega) .callAfterComma .callAfterArg2 _ _ _ rfl rfl
        fun b s₃ hs₃ hstop₃ => ?_
      have hloose₃ := Item.looseAction_of_stops hstop₃
      refine outcome_close_bind .afterCall2 (fun h₃ => by rw [Item.action, hloose₃, h₃])
        (fun h₃ => ?_) fun s₄ hs₄ => ?_
      · rw [Item.action, hloose₃]
        split
        · next h => exact absurd h h₃
        · rfl
      refine outcome_complete rfl fun hf => ?_
      refine outcome_reduce
        [.callAfterArg2, .callAfterComma, .callAfterArg, .callAfterIdent, .afterIdent]
        (if_pos hf) rfl (Production.evaluate_call2 ..) fun c store => ?_
      have hread : s₄.unread ≤ s.unread := by omega
      exact hnext c { s₄ with store } hread hf
    · next h₁ h₂ =>
      refine outcome_refuse ?_
      rw [Item.action, hloose]
      split
      · next h => exact absurd h h₂
      · next h => exact absurd h h₁
      · rfl

theorem named_ascend (name : Text) (hs : s.unread < n)
    (hnext : ∀ a s', s'.unread ≤ s.unread → s'.ahead.terminal.isFollow = true →
      next a s' = s'.ascend setup .resume frames (.value a :: operands)) :
    (named setup inner name).outcome next s
      = s.ascend setup (.enter .afterIdent) frames (.identifier name :: operands) := by
  rw [named, outcome_bind, outcome_ahead]
  split
  · next ht =>
    refine outcome_shift .assignAfterIdent (by rw [ht]; rfl) fun s₁ hs₁ => ?_
    rw [Token.operands_of_punctuation ht, List.nil_append, outcome_bind]
    refine ih s₁ (by omega) .assignAfterIdent .afterAssign _ _ _ rfl rfl fun a s₂ hs₂ hstop => ?_
    refine outcome_reduce [.assignAfterIdent, .afterIdent]
      ((Item.looseAction_of_stops hstop _).trans (if_pos hstop.1)) rfl
      (Production.evaluate_assign ..) fun b store => ?_
    have hread : s₂.unread ≤ s.unread := by omega
    exact hnext b { s₂ with store } hread hstop.1
  · next ht =>
    refine outcome_shift .callAfterIdent (by rw [ht]; rfl) fun s₁ hs₁ => ?_
    rw [Token.operands_of_punctuation ht, List.nil_append]
    exact call_ascend ih name (by omega) fun a s₂ hs₂ => hnext a s₂ (by omega)
  · next h₁ h₂ =>
    refine outcome_complete (Item.action_afterIdent h₁ h₂) fun hf => ?_
    refine outcome_reduce [] ((Item.action_afterIdent h₁ h₂).trans (if_pos hf)) rfl
      (Production.evaluate_identifier ..) fun a store => ?_
    exact hnext a { s with store } (Nat.le_refl _) hf

theorem signed_ascend {place : Item} (sign : Sign) (hs : s.unread ≤ n)
    (ht : s.ahead.operands = [])
    (ha : place.action s.ahead.terminal = .shift (.unaryAfterOp sign))
    (hnext : ∀ a s', s'.unread < s.unread → s'.ahead.terminal.isFollow = true →
      next a s' = s'.ascend setup .resume (place :: frames) (.value a :: operands)) :
    (signed setup inner sign).outcome next s = s.ascend setup (.enter place) frames operands := by
  rw [signed]
  refine outcome_shift _ ha fun s₁ hs₁ => ?_
  rw [ht, List.nil_append, outcome_bind]
  refine ih s₁ (by omega) (.unaryAfterOp sign) (.afterUnary sign) _ _ _ rfl rfl
    fun a s₂ hs₂ hstop => ?_
  refine outcome_reduce [.unaryAfterOp sign] (Item.tightAction_of_stops hstop) rfl
    (Production.evaluate_sign ..) fun b store => ?_
  have hread : s₂.unread < s.unread := by omega
  exact hnext b { s₂ with store } hread hstop.1

theorem operand_ascend {place : Item} (hs : s.unread ≤ n)
    (ha : place.action s.ahead.terminal = Item.operandAction s.ahead.terminal)
    (hnext : ∀ a s', s'.unread < s.unread → s'.ahead.terminal.isFollow = true →
      next a s' = s'.ascend setup .resume (place :: frames) (.value a :: operands)) :
    (operand setup inner place).outcome next s = s.ascend setup (.enter place) frames operands := by
  rw [operand, outcome_bind, outcome_ahead]
  split
  · next a text hl =>
    have ht : s.ahead.terminal = .number := by rw [Token.terminal, hl]; rfl
    have ho : s.ahead.operands = [.value a] := by rw [Token.operands, hl]
    refine outcome_shift .afterNumber (by rw [ha, ht]; rfl) fun s₁ hs₁ => ?_
    rw [ho]
    refine outcome_complete rfl fun hf => ?_
    exact outcome_reduce (x := pure a) [] (if_pos hf) rfl
      (Production.evaluate_number ..) fun b store => hnext b { s₁ with store } hs₁ hf
  · next name hl =>
    have ht : s.ahead.terminal = .identifier := by rw [Token.terminal, hl]; rfl
    have ho : s.ahead.operands = [.identifier name] := by rw [Token.operands, hl]
    refine outcome_shift .afterIdent (by rw [ha, ht]; rfl) fun s₁ hs₁ => ?_
    rw [ho]
    exact named_ascend ih name (by omega) fun a s₂ hs₂ => hnext a s₂ (by omega)
  · next hl =>
    have ht : s.ahead.terminal = .punctuation .plus := by rw [Token.terminal, hl]; rfl
    exact signed_ascend ih .plus hs (Token.operands_of_punctuation ht) (by rw [ha, ht]; rfl) hnext
  · next hl =>
    have ht : s.ahead.terminal = .punctuation .minus := by rw [Token.terminal, hl]; rfl
    exact signed_ascend ih .minus hs (Token.operands_of_punctuation ht) (by rw [ha, ht]; rfl) hnext
  · next hl =>
    have ht : s.ahead.terminal = .punctuation .leftParen := by rw [Token.terminal, hl]; rfl
    refine outcome_shift .afterBracket (by rw [ha, ht]; rfl) fun s₁ hs₁ => ?_
    rw [Token.operands_of_punctuation ht, List.nil_append, outcome_bind]
    refine ih s₁ (by omega) .afterBracket .bracketAfterExpr _ _ _ rfl rfl fun a s₂ hs₂ hstop => ?_
    have hloose := Item.looseAction_of_stops hstop
    refine outcome_close_bind .afterBracketExpr
      (fun h₂ => by rw [Item.action, hloose, h₂]) (fun h₂ => ?_) fun s₃ hs₃ => ?_
    · rw [Item.action, hloose]
      split
      · next h => exact absurd h h₂
      · rfl
    refine outcome_complete rfl fun hf => ?_
    refine outcome_reduce (x := pure a) [.bracketAfterExpr, .afterBracket] (if_pos hf) rfl
      (Production.evaluate_bracket ..) fun b store => ?_
    have hread : s₃.unread < s.unread := by omega
    exact hnext b { s₃ with store } hread hf
  · next h₁ h₂ h₃ h₄ h₅ =>
    refine outcome_refuse (ha.trans ?_)
    rw [Token.terminal]
    cases hl : s.ahead.lexeme with
    | number a text => exact (h₁ a text hl).elim
    | identifier name => exact (h₂ name hl).elim
    | punctuation p =>
      cases p with
      | plus => exact (h₃ hl).elim
      | minus => exact (h₄ hl).elim
      | leftParen => exact (h₅ hl).elim
      | _ => rfl
    | finish => rfl
    | invalid text => rfl

end operand

theorem operators_ascend {setup : Setup σ T} {fuel : Nat}
    (ih : ∀ n < fuel, ∀ s : Scan σ T, s.unread < n → Ascends setup (expression setup n) s)
    {place after : Item} (hp : place.afterOperand? = some after) {s : Scan σ T}
    {frames : List Item} {operands : List (Operand T)}
    {next : T → Scan σ T → Option (Outcome σ T)} (a : T) (hs : s.unread < fuel)
    (hf : s.ahead.terminal.isFollow = true)
    (hnext : ∀ b s', s'.unread ≤ s.unread → s'.ahead.terminal.Stops place.pending? →
      next b s' = s'.ascend setup (.enter after) (place :: frames) (.value b :: operands)) :
    (operators setup fuel place.pending? a).outcome next s
      = s.ascend setup (.enter after) (place :: frames) (.value a :: operands) := by
  induction fuel generalizing s a with
  | zero => exact absurd hs (Nat.not_lt_zero _)
  | succ fuel hrec =>
    rw [operators, outcome_bind, outcome_ahead]
    cases hop : s.ahead.terminal.binaryOp? with
    | none => exact hnext a s (Nat.le_refl _) ⟨hf, by simp [hop]⟩
    | some op =>
      dsimp only
      split
      · next htake =>
        refine outcome_shift _ (Item.action_of_afterOperand? hp hop htake) fun s₁ hs₁ => ?_
        have hp₁ := Token.operands_of_punctuation (Terminal.binaryOp?_eq_some_iff.1 hop)
        rw [outcome_bind, hp₁, List.nil_append]
        refine ih fuel (by omega) s₁ (by omega) (.binaryAfterOp op) (.afterBinary op) _ _ _ rfl rfl
          fun b s₂ hs₂ hstop => ?_
        rw [outcome_bind]
        refine outcome_reduce [.binaryAfterOp op, after]
          (Item.tightAction_of_stops hstop) rfl (Production.evaluate_binary ..) fun c store => ?_
        have hread : s₂.unread < s.unread := by omega
        have hfuel : s₂.unread < fuel := by omega
        rw [Scan.ascend_resume hp]
        exact hrec (fun n hn => ih n (Nat.lt_succ_of_lt hn)) c hfuel hstop.1
          fun d s₃ hs₃ => hnext d s₃ (Nat.le_of_lt (Nat.lt_of_le_of_lt hs₃ hread))
      · next htake =>
        refine hnext a s (Nat.le_refl _) ⟨hf, fun op' hop' => ?_⟩
        rw [hop, Option.some.injEq] at hop'
        subst hop'
        simpa using htake

theorem ascends (setup : Setup σ T) {fuel : Nat} {s : Scan σ T} (hs : s.unread < fuel) :
    Ascends setup (expression setup fuel) s := by
  induction fuel using Nat.strongRecOn generalizing s with
  | _ fuel ih =>
    obtain _ | fuel := fuel
    · exact absurd hs (Nat.not_lt_zero _)
    intro place after frames operands next hp ha hnext
    rw [expression, outcome_bind]
    refine operand_ascend (fun _ => ih fuel (Nat.lt_succ_self _)) (Nat.le_of_lt_succ hs) ha
      fun a s₁ hs₁ hf => ?_
    rw [Scan.ascend_resume hp]
    exact operators_ascend (fun n hn _ => ih n (Nat.lt_succ_of_lt hn)) hp a (by omega) hf
      fun b s₂ hs₂ => hnext b s₂ (by omega)

end Descent

/-- A whole text is evaluated as the automaton does. -/
theorem Descent.outcome_text (setup : Setup σ T) (store : Store σ T) {fuel : Nat}
    (hfuel : 2 * setup.input.length + 1 < fuel) :
    (text setup fuel).outcome (fun a s => some ⟨.ok a, s.store, s.warnings⟩)
        (.start setup.input store)
      = some (setup.run store) := by
  have hinitial : Config.initial setup store
      = (Scan.start setup.input store).config (.enter .start) [] [] := rfl
  rw [Setup.run, hinitial, Scan.fetch_config, text, outcome_bind, outcome_fetch]
  cases ((Scan.start setup.input store).cursor.next setup.type).token with
  | error f => rfl
  | ok token =>
    dsimp only
    have hs : ((Scan.start setup.input store).read setup token).unread < fuel :=
      Nat.lt_of_le_of_lt (Scan.unread_read_start_le setup store token) hfuel
    rw [outcome_bind]
    refine ascends setup hs .start .afterExpr [] [] _ rfl rfl fun a s hs hstop => ?_
    rw [outcome_bind, outcome_ahead]
    split
    · next ht => exact (ascend_accept ht).symm
    · next ht =>
      refine outcome_refuse ?_
      rw [Item.action, Item.looseAction_of_stops hstop]
      split
      · next h => exact absurd h ht
      · rfl

namespace Setup

/-- What is found by climbing with enough fuel holds of the outcome of the automaton. -/
theorem of_descend {setup : Setup σ T} {store : Store σ T} (P : Outcome σ T → Prop)
    [DecidablePred P] (fuel : Nat) (hfuel : 2 * setup.input.length + 1 < fuel)
    (h : (setup.descend fuel store).any (fun o => decide (P o)) = true) :
    P (setup.run store) := by
  rw [descend, Descent.outcome_text setup store hfuel] at h
  exact of_decide_eq_true h

/-- **The automaton evaluates by precedence climbing.** From every store and for every input and
numeric type, precedence climbing with enough fuel for the tokens has the outcome of the
automaton. -/
theorem descend_eq_run (setup : Setup σ T) (store : Store σ T) {fuel : Nat}
    (hfuel : 2 * setup.input.length + 1 < fuel) :
    setup.descend fuel store = some (setup.run store) := by
  rw [descend]
  exact Descent.outcome_text setup store hfuel

/-- Fuel for nine code units. -/
theorem descend_eq_run_product :
    Setup.descend ⟨int64, RandomSource.generator, Text.ofString "2 ^ -x(3)"⟩ 20
        ⟨.empty, .seeded 1⟩
      = some (Setup.run ⟨int64, RandomSource.generator, Text.ofString "2 ^ -x(3)"⟩
          ⟨.empty, .seeded 1⟩) :=
  descend_eq_run _ _ (by decide)

end Setup

end Calculator
