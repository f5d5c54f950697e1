import Calculator.Proofs.Ascent
import Calculator.Proofs.Spelling
import Calculator.Proofs.Tree
import Calculator.Random.Source
import Mathlib.Order.Filter.AtTopBot.Basic

/-!
# Precedence decides how an expression is grouped

`Setup.run_spelled`: a text that spells a grouped tree is evaluated as that tree.

Proof. The automaton evaluates by precedence climbing (`Descent.outcome_text`), which is looked at
instead. `Descent.Computes` says that a computation reads from one scan to another and changes
variables and draws as an evaluation does; it goes through sequences (`Computes.andThen`,
`Computes.bind`). Along a tree (`Tree.Climbs`), an expression with a pending operator computes the
value of the tree and then goes on with the operators behind it, if

* no operator at the left edge is left to the pending one, so that the whole tree is read, and
* the token behind the tree stops everything that is pending at the right edge (`Tree.Stopped`), so
  that no more is read.

The operands of a grouped tree meet both conditions. The induction is on the tree. How much fuel an
expression needs does not matter here: what is said of it holds from some amount of fuel on.
-/

namespace Calculator

open Filter (atTop eventually_gt_atTop eventually_map map_add_atTop_eq_nat)

variable {σ T : Type}

/-! ## Evaluations that go on -/

/-- How an evaluation ends that goes on in the given way; a fault ends it at once. -/
def Evaluation.proceed {α : Type} (x : Evaluation σ T α) (warnings : List Ambiguity)
    (next : α → Store σ T → Option (Outcome σ T)) (store : Store σ T) : Option (Outcome σ T) :=
  match x store with
  | (.ok a, store) => next a store
  | (.error f, store) => some ⟨.error f, store, warnings⟩

theorem Evaluation.proceed_bind {α β : Type} (x : Evaluation σ T α) (f : α → Evaluation σ T β)
    (warnings : List Ambiguity) (next : β → Store σ T → Option (Outcome σ T))
    (store : Store σ T) :
    (x >>= f).proceed warnings next store
      = x.proceed warnings (fun a => (f a).proceed warnings next) store := by
  simp only [proceed, bind, ExceptT.bind, ExceptT.mk, StateT.bind]
  rcases x store with ⟨_ | _, _⟩ <;> rfl

/-! ## What stands ahead -/

/-- The forms from the token ahead on. -/
def Scan.Faces (type : NumericType σ T) (s : Scan σ T) : List (Lexeme T) → Prop
  | [] => True
  | l :: ls => s.ahead.lexeme = l ∧ s.cursor.Spells type ls

theorem Scan.Faces.terminal {type : NumericType σ T} {s : Scan σ T} {l : Lexeme T}
    {ls : List (Lexeme T)} (h : s.Faces type (l :: ls)) : s.ahead.terminal = l.terminal := by
  rw [Token.terminal, h.1]

namespace Descent

variable {α β : Type} {setup : Setup σ T} {s s' s'' : Scan σ T}

/-- From any store, the computation reads from `s` to `s'` without a warning and evaluates as `y`
does. Of the scans only the token ahead and the cursor count. -/
def Computes (x : Descent σ T α) (s s' : Scan σ T) (y : Evaluation σ T α) : Prop :=
  ∀ next store warnings,
    x.outcome next { s with store, warnings }
      = y.proceed warnings (fun a store => next a { s' with store, warnings }) store

theorem computes_pure (a : α) (s : Scan σ T) : (pure a : Descent σ T α).Computes s s (pure a) := by
  intro next store warnings
  rfl

theorem computes_perform (y : Evaluation σ T α) (s : Scan σ T) : (perform y).Computes s s y := by
  intro next store warnings
  exact outcome_perform y

theorem Computes.bind {x : Descent σ T α} {f : α → Descent σ T β} {y : Evaluation σ T α}
    {k : α → Evaluation σ T β} (hx : x.Computes s s' y)
    (hf : ∀ a, (f a).Computes s' s'' (k a)) : (x >>= f).Computes s s'' (y >>= k) := by
  intro next store warnings
  rw [outcome_bind, hx, Evaluation.proceed_bind]
  congr 1
  funext a store
  exact hf a next store warnings

theorem Computes.andThen {x : Descent σ T α} {f : α → Descent σ T β} {a : α}
    {y : Evaluation σ T β} (hx : x.Computes s s' (pure a)) (hf : (f a).Computes s' s'' y) :
    (x >>= f).Computes s s'' y := by
  intro next store warnings
  rw [outcome_bind, hx]
  exact hf next store warnings

/-- What only reads keeps the value. -/
theorem Computes.followedBy {x : Descent σ T α} {f : α → Descent σ T α} {y : Evaluation σ T α}
    (hx : x.Computes s s' y) (hf : ∀ a, (f a).Computes s' s'' (pure a)) :
    (x >>= f).Computes s s'' y := by
  have hbind := hx.bind hf
  rwa [bind_pure] at hbind

theorem Computes.ahead {f : Token T → Descent σ T β} {y : Evaluation σ T β}
    (hf : (f s.ahead).Computes s s' y) : (Descent.ahead >>= f).Computes s s' y := by
  intro next store warnings
  rw [outcome_bind, outcome_ahead]
  exact hf next store warnings

/-- Reading moves on by one form. -/
theorem exists_fetch {l : Lexeme T} {ls : List (Lexeme T)} (h : s.Faces setup.type (l :: ls))
    (hls : ls ≠ []) :
    ∃ s', s'.Faces setup.type ls ∧ (fetch setup).Computes s s' (pure ()) := by
  cases ls with
  | nil => exact absurd rfl hls
  | cons l' ls =>
    obtain ⟨_, p, htoken, hwarning, hspells⟩ := h
    refine ⟨s.read setup ⟨l', p⟩, ⟨rfl, hspells⟩, ?_⟩
    intro next store warnings
    rw [outcome_fetch]
    dsimp only
    rw [htoken]
    show next () _ = next () _
    congr 1
    simp [Scan.read, hwarning]

theorem computes_expectFollow (place : Item) (h : s.ahead.terminal.isFollow = true) :
    (expectFollow setup place).Computes s s (pure ()) := by
  intro next store warnings
  rw [outcome_expectFollow]
  exact if_pos h

theorem exists_close {ls : List (Lexeme T)} (place : Item)
    (h : s.Faces setup.type (.punctuation .rightParen :: ls)) (hls : ls ≠ []) :
    ∃ s', s'.Faces setup.type ls ∧ (close setup place).Computes s s' (pure ()) := by
  obtain ⟨s', hfaces, hfetch⟩ := exists_fetch h hls
  refine ⟨s', hfaces, ?_⟩
  intro next store warnings
  rw [outcome_close]
  exact (if_pos h.terminal).trans (hfetch next store warnings)

/-- Behind the value of an operand nothing is read that stops the pending operator. -/
theorem computes_operators {pending : Option Pending} (fuel : Nat) (a : T)
    (h : s.ahead.terminal.Stops pending) :
    (operators setup (fuel + 1) pending a).Computes s s (pure a) := by
  rw [operators]
  refine .ahead ?_
  split
  · exact computes_pure a s
  · next op hop =>
    rw [if_neg (by rw [h.2 op hop]; exact Bool.false_ne_true)]
    exact computes_pure a s

/-- Fuel that one step has used up does not count in the long run. -/
theorem eventually_of_succ {p : Nat → Prop} (h : ∀ᶠ fuel in atTop, p (fuel + 1)) :
    ∀ᶠ fuel in atTop, p fuel := by
  rwa [← map_add_atTop_eq_nat 1, eventually_map]

end Descent

/-! ## Trees -/

namespace Tree

open Descent

variable {setup : Setup σ T}

/-- The terminal may follow the tree and is not taken by anything at its right edge. -/
def Stopped (t : Tree T) (f : Terminal) : Prop :=
  f.isFollow = true ∧ ∀ q ∈ t.rightSpine, f.Stops q

theorem stops_of_binaryOp?_eq_none {f : Terminal} (hf : f.isFollow = true)
    (hop : f.binaryOp? = none) (pending : Option Pending) : f.Stops pending := by
  refine ⟨hf, fun op h => ?_⟩
  rw [hop] at h
  cases h

/-- A terminal that is no operator is taken by nothing. -/
theorem stopped_of_binaryOp?_eq_none (t : Tree T) {f : Terminal} (hf : f.isFollow = true)
    (hop : f.binaryOp? = none) : t.Stopped f :=
  ⟨hf, fun q _ => stops_of_binaryOp?_eq_none hf hop q⟩

/-- No tree starts with a closing parenthesis. -/
theorem exists_cons (t : Tree T) :
    ∃ l ls, t.lexemes = l :: ls ∧ l.terminal ≠ .punctuation .rightParen := by
  induction t with
  | bin op l r ihl _ =>
    obtain ⟨first, ls, hl, hfirst⟩ := ihl
    exact ⟨first, ls ++ .punctuation op.punctuation :: r.lexemes, by rw [lexemes, hl]; rfl, hfirst⟩
  | sign s t _ => exact ⟨_, _, rfl, by cases s <;> exact nofun⟩
  | _ => exact ⟨_, _, rfl, nofun⟩

/-- In front of the tokens of the tree, an expression computes the value of the tree and goes on
with the operators behind it. -/
def Climbs (setup : Setup σ T) (t : Tree T) : Prop :=
  ∀ pending s f ls, s.Faces setup.type (t.lexemes ++ f :: ls) →
    (∀ q ∈ t.leftSpine, pending.all q.bindsTighter = true) → t.Stopped f.terminal →
    ∃ s', s'.Faces setup.type (f :: ls) ∧ ∀ s'' k,
      (∀ᶠ fuel in atTop, ∀ a, (operators setup fuel pending a).Computes s' s'' (k a)) →
      ∀ᶠ fuel in atTop, ∀ place, (expression setup fuel place pending).Computes s s''
        (t.evaluate setup.type setup.generator >>= k)

/-- In front of the tokens of the tree, an operand computes the value of the tree. -/
def IsOperand (setup : Setup σ T) (t : Tree T) : Prop :=
  ∀ s f ls, s.Faces setup.type (t.lexemes ++ f :: ls) → t.Stopped f.terminal →
    ∃ s', s'.Faces setup.type (f :: ls) ∧ ∀ᶠ fuel in atTop, ∀ place,
      (operand setup (expression setup fuel) place).Computes s s'
        (t.evaluate setup.type setup.generator)

theorem IsOperand.climbs {t : Tree T} (h : IsOperand setup t) : Climbs setup t := by
  intro pending s f ls hfaces _ hstopped
  obtain ⟨s', hfaces', hoperand⟩ := h s f ls hfaces hstopped
  refine ⟨s', hfaces', fun s'' k hk => eventually_of_succ ?_⟩
  filter_upwards [hoperand, hk] with fuel hoperand hk
  intro place
  rw [expression]
  exact (hoperand place).bind hk

/-- An expression in front of a terminal that stops what is pending computes the tree alone. -/
theorem Climbs.exists_computes {t : Tree T} (h : Climbs setup t) (pending : Option Pending)
    {s : Scan σ T} {f : Lexeme T} {ls : List (Lexeme T)}
    (hfaces : s.Faces setup.type (t.lexemes ++ f :: ls))
    (hleft : ∀ q ∈ t.leftSpine, pending.all q.bindsTighter = true)
    (hstopped : t.Stopped f.terminal) (hstops : f.terminal.Stops pending) :
    ∃ s', s'.Faces setup.type (f :: ls) ∧ ∀ᶠ fuel in atTop, ∀ place,
      (expression setup fuel place pending).Computes s s'
        (t.evaluate setup.type setup.generator) := by
  obtain ⟨s', hfaces', hexpression⟩ := h pending s f ls hfaces hleft hstopped
  refine ⟨s', hfaces', ?_⟩
  have hoperators : ∀ᶠ fuel in atTop, ∀ a : T,
      (operators setup fuel pending a).Computes s' s' (pure a) := by
    refine eventually_of_succ (.of_forall fun fuel a => ?_)
    exact computes_operators fuel a (hfaces'.terminal ▸ hstops)
  have hcomputes := hexpression s' pure hoperators
  rwa [bind_pure] at hcomputes

/-! ## The forms of operands -/

theorem isOperand_num (a : T) (literal : Text) : IsOperand setup (num a literal) := by
  intro s f ls hfaces hstopped
  obtain ⟨s₁, hfaces₁, hfetch⟩ := exists_fetch hfaces (List.cons_ne_nil f ls)
  refine ⟨s₁, hfaces₁, .of_forall fun fuel place => ?_⟩
  rw [operand]
  refine .ahead ?_
  rw [hfaces.1]
  refine hfetch.andThen (.andThen (computes_expectFollow _ ?_) (computes_pure a s₁))
  rw [hfaces₁.terminal]
  exact hstopped.1

theorem isOperand_var (name : Text) : IsOperand setup (var name : Tree T) := by
  intro s f ls hfaces hstopped
  obtain ⟨s₁, hfaces₁, hfetch⟩ := exists_fetch hfaces (List.cons_ne_nil f ls)
  have hfollow : s₁.ahead.terminal.isFollow = true := by
    rw [hfaces₁.terminal]
    exact hstopped.1
  refine ⟨s₁, hfaces₁, .of_forall fun fuel place => ?_⟩
  rw [operand]
  refine .ahead ?_
  rw [hfaces.1]
  refine hfetch.andThen ?_
  rw [named]
  refine .ahead ?_
  split
  · next h => rw [h] at hfollow; cases hfollow
  · next h => rw [h] at hfollow; cases hfollow
  · exact (computes_expectFollow _ hfollow).andThen (computes_perform _ s₁)

section

variable {t l r : Tree T}

/-- Up to a terminal that is no operator, an expression computes the tree alone. -/
theorem Climbs.exists_enclosed (h : Climbs setup t) {s : Scan σ T} {f : Lexeme T}
    {ls : List (Lexeme T)} (hfaces : s.Faces setup.type (t.lexemes ++ f :: ls))
    (hf : f.terminal.isFollow = true) (hop : f.terminal.binaryOp? = none) :
    ∃ s', s'.Faces setup.type (f :: ls) ∧ ∀ᶠ fuel in atTop, ∀ place,
      (expression setup fuel place none).Computes s s'
        (t.evaluate setup.type setup.generator) :=
  h.exists_computes none hfaces (fun _ _ => rfl) (stopped_of_binaryOp?_eq_none t hf hop)
    (stops_of_binaryOp?_eq_none hf hop none)

theorem Climbs.isOperand_paren (h : Climbs setup t) : IsOperand setup (paren t) := by
  intro s f ls hfaces hstopped
  rw [lexemes, List.cons_append, List.cons_append, List.append_assoc] at hfaces
  obtain ⟨s₁, hfaces₁, hfetch⟩ := exists_fetch hfaces (by simp)
  obtain ⟨s₂, hfaces₂, hexpression⟩ := h.exists_enclosed hfaces₁ rfl rfl
  obtain ⟨s₃, hfaces₃, hclose⟩ := exists_close .bracketAfterExpr hfaces₂ (List.cons_ne_nil f ls)
  refine ⟨s₃, hfaces₃, ?_⟩
  filter_upwards [hexpression] with fuel hexpression
  intro place
  rw [operand]
  refine .ahead ?_
  rw [hfaces.1]
  refine hfetch.andThen ((hexpression .afterBracket).followedBy fun a => hclose.andThen ?_)
  refine .andThen (computes_expectFollow _ ?_) (computes_pure a s₃)
  rw [hfaces₃.terminal]
  exact hstopped.1

theorem Climbs.isOperand_sign (sign : Sign) (h : Climbs setup t)
    (hleft : ∀ q ∈ t.leftSpine, q.bindsTighter .sign = true) :
    IsOperand setup (.sign sign t) := by
  intro s f ls hfaces hstopped
  obtain ⟨hfollow, hright⟩ := hstopped
  rw [rightSpine, List.forall_mem_cons] at hright
  rw [lexemes, List.cons_append] at hfaces
  obtain ⟨s₁, hfaces₁, hfetch⟩ := exists_fetch hfaces (by simp)
  obtain ⟨s₂, hfaces₂, hexpression⟩ :=
    h.exists_computes (some .sign) hfaces₁ hleft ⟨hfollow, hright.2⟩ hright.1
  refine ⟨s₂, hfaces₂, ?_⟩
  filter_upwards [hexpression] with fuel hexpression
  intro place
  have hsigned : (signed setup (expression setup fuel) sign).Computes s s₂
      ((Tree.sign sign t).evaluate setup.type setup.generator) := by
    rw [signed]
    exact hfetch.andThen ((hexpression _).bind fun a => computes_perform _ s₂)
  rw [operand]
  refine .ahead ?_
  rw [hfaces.1]
  cases sign with
  | plus => exact hsigned
  | minus => exact hsigned

/-- From behind an identifier on. -/
theorem isOperand_of_named {name : Text} {t : Tree T} (rest : List (Lexeme T))
    (hlexemes : t.lexemes = .identifier name :: rest)
    (h : ∀ s f ls, s.Faces setup.type (rest ++ f :: ls) → t.Stopped f.terminal →
      ∃ s', s'.Faces setup.type (f :: ls) ∧ ∀ᶠ fuel in atTop,
        (named setup (expression setup fuel) name).Computes s s'
          (t.evaluate setup.type setup.generator)) :
    IsOperand setup t := by
  intro s f ls hfaces hstopped
  rw [hlexemes, List.cons_append] at hfaces
  obtain ⟨s₁, hfaces₁, hfetch⟩ := exists_fetch hfaces (by simp)
  obtain ⟨s₂, hfaces₂, hnamed⟩ := h s₁ f ls hfaces₁ hstopped
  refine ⟨s₂, hfaces₂, ?_⟩
  filter_upwards [hnamed] with fuel hnamed
  intro place
  rw [operand]
  refine .ahead ?_
  rw [hfaces.1]
  exact hfetch.andThen hnamed

theorem Climbs.isOperand_assign (name : Text) (h : Climbs setup t) :
    IsOperand setup (assign name t) := by
  refine isOperand_of_named _ rfl fun s f ls hfaces hstopped => ?_
  obtain ⟨hfollow, hright⟩ := hstopped
  rw [rightSpine, List.forall_mem_cons] at hright
  rw [List.cons_append] at hfaces
  obtain ⟨s₁, hfaces₁, hfetch⟩ := exists_fetch hfaces (by simp)
  obtain ⟨s₂, hfaces₂, hexpression⟩ :=
    h.exists_computes none hfaces₁ (fun _ _ => rfl) ⟨hfollow, hright.2⟩ hright.1
  refine ⟨s₂, hfaces₂, ?_⟩
  filter_upwards [hexpression] with fuel hexpression
  rw [named]
  refine .ahead ?_
  rw [hfaces.terminal]
  exact hfetch.andThen ((hexpression _).bind fun a => computes_perform _ s₂)

/-- From behind the opening parenthesis of a call on. -/
theorem isOperand_of_call {name : Text} {t : Tree T} (rest : List (Lexeme T))
    (hlexemes : t.lexemes = .identifier name :: .punctuation .leftParen :: rest)
    (h : ∀ s f ls, s.Faces setup.type (rest ++ f :: ls) → f.terminal.isFollow = true →
      ∃ s', s'.Faces setup.type (f :: ls) ∧ ∀ᶠ fuel in atTop,
        (call setup (expression setup fuel) name).Computes s s'
          (t.evaluate setup.type setup.generator)) :
    IsOperand setup t := by
  refine isOperand_of_named _ hlexemes fun s f ls hfaces hstopped => ?_
  rw [List.cons_append] at hfaces
  obtain ⟨s₁, hfaces₁, hfetch⟩ := exists_fetch hfaces (by simp)
  obtain ⟨s₂, hfaces₂, hcall⟩ := h s₁ f ls hfaces₁ hstopped.1
  refine ⟨s₂, hfaces₂, ?_⟩
  filter_upwards [hcall] with fuel hcall
  rw [named]
  refine .ahead ?_
  rw [hfaces.terminal]
  exact hfetch.andThen hcall

theorem isOperand_call0 (name : Text) : IsOperand setup (call0 name : Tree T) := by
  refine isOperand_of_call [.punctuation .rightParen] rfl fun s f ls hfaces hfollow => ?_
  rw [List.cons_append] at hfaces
  obtain ⟨s₁, hfaces₁, hfetch⟩ := exists_fetch hfaces (List.cons_ne_nil f ls)
  refine ⟨s₁, hfaces₁, .of_forall fun fuel => ?_⟩
  rw [call]
  refine .ahead ?_
  rw [if_pos (show s.ahead.terminal = .punctuation .rightParen from hfaces.terminal)]
  refine hfetch.andThen (.andThen (computes_expectFollow _ ?_) (computes_perform _ s₁))
  rw [hfaces₁.terminal]
  exact hfollow

theorem Faces.ne_rightParen {s : Scan σ T} {f : Lexeme T} {ls : List (Lexeme T)} (t : Tree T)
    (hfaces : s.Faces setup.type (t.lexemes ++ f :: ls)) :
    s.ahead.terminal ≠ .punctuation .rightParen := by
  obtain ⟨first, rest, hlexemes, hfirst⟩ := t.exists_cons
  rw [hlexemes, List.cons_append] at hfaces
  rw [hfaces.terminal]
  exact hfirst

theorem Climbs.isOperand_call1 (name : Text) (h : Climbs setup t) :
    IsOperand setup (call1 name t) := by
  refine isOperand_of_call (t.lexemes ++ [.punctuation .rightParen]) rfl
    fun s f ls hfaces hfollow => ?_
  rw [List.append_assoc] at hfaces
  obtain ⟨s₁, hfaces₁, hexpression⟩ := h.exists_enclosed hfaces rfl rfl
  obtain ⟨s₂, hfaces₂, hfetch⟩ := exists_fetch hfaces₁ (List.cons_ne_nil f ls)
  refine ⟨s₂, hfaces₂, ?_⟩
  filter_upwards [hexpression] with fuel hexpression
  rw [call]
  refine .ahead ?_
  rw [if_neg (Faces.ne_rightParen t hfaces)]
  refine (hexpression _).bind fun a => .ahead ?_
  rw [hfaces₁.terminal]
  refine hfetch.andThen (.andThen (computes_expectFollow _ ?_) (computes_perform _ s₂))
  rw [hfaces₂.terminal]
  exact hfollow

theorem Climbs.isOperand_call2 (name : Text) (hl : Climbs setup l) (hr : Climbs setup r) :
    IsOperand setup (call2 name l r) := by
  refine isOperand_of_call
    (l.lexemes ++ .punctuation .comma :: r.lexemes ++ [.punctuation .rightParen]) rfl
    fun s f ls hfaces hfollow => ?_
  rw [List.append_assoc, List.append_assoc, List.cons_append] at hfaces
  obtain ⟨s₁, hfaces₁, hfirst⟩ := hl.exists_enclosed hfaces rfl rfl
  obtain ⟨s₂, hfaces₂, hfetch⟩ := exists_fetch hfaces₁ (by simp)
  obtain ⟨s₃, hfaces₃, hsecond⟩ := hr.exists_enclosed hfaces₂ rfl rfl
  obtain ⟨s₄, hfaces₄, hclose⟩ := exists_close .callAfterArg2 hfaces₃ (List.cons_ne_nil f ls)
  refine ⟨s₄, hfaces₄, ?_⟩
  filter_upwards [hfirst, hsecond] with fuel hfirst hsecond
  rw [call]
  refine .ahead ?_
  rw [if_neg (Faces.ne_rightParen l hfaces)]
  refine (hfirst _).bind fun a => .ahead ?_
  rw [hfaces₁.terminal]
  refine hfetch.andThen ((hsecond _).bind fun b => hclose.andThen ?_)
  refine .andThen (computes_expectFollow _ ?_) (computes_perform _ s₄)
  rw [hfaces₄.terminal]
  exact hfollow

/-! ## Operators -/

/-- The operator behind the left operand is taken, and its right operand is read in full. -/
theorem Climbs.bin (op : BinaryOp) (hl : Climbs setup l) (hr : Climbs setup r)
    (hright : ∀ q ∈ l.rightSpine, q.all op.bindsTighter = false)
    (hleft : ∀ q ∈ r.leftSpine, q.bindsTighter (.binary op) = true) :
    Climbs setup (.bin op l r) := by
  intro pending s f ls hfaces htaken hstopped
  obtain ⟨hfollow, hstops⟩ := hstopped
  rw [leftSpine, List.forall_mem_cons] at htaken
  rw [rightSpine, List.forall_mem_cons] at hstops
  rw [lexemes, List.append_assoc, List.cons_append] at hfaces
  have hop : (Terminal.punctuation op.punctuation).binaryOp? = some op :=
    op.binaryOp?_punctuation
  -- The operator stops whatever is pending at the right edge of its left operand.
  have hstopped : l.Stopped (.punctuation op.punctuation) := by
    refine ⟨by cases op <;> rfl, fun q hq => ⟨by cases op <;> rfl, fun op' hop' => ?_⟩⟩
    rw [hop] at hop'
    cases hop'
    exact hright q hq
  obtain ⟨s₁, hfaces₁, hfirst⟩ := hl pending s _ _ hfaces htaken.2 hstopped
  obtain ⟨s₂, hfaces₂, hfetch⟩ := exists_fetch hfaces₁ (by simp)
  obtain ⟨s₃, hfaces₃, hsecond⟩ :=
    hr.exists_computes (some (.binary op)) hfaces₂ hleft ⟨hfollow, hstops.2⟩ hstops.1
  refine ⟨s₃, hfaces₃, fun s'' k hk => ?_⟩
  have heq : (Tree.bin op l r).evaluate setup.type setup.generator >>= k
      = l.evaluate setup.type setup.generator >>= fun a =>
          r.evaluate setup.type setup.generator >>= fun b =>
            liftM (setup.type.apply op a b) >>= k := by
    simp only [evaluate, bind_assoc]
  rw [heq]
  refine hfirst s'' _ (eventually_of_succ ?_)
  filter_upwards [hsecond, hk] with fuel hsecond hk
  intro a
  rw [operators]
  refine .ahead ?_
  rw [hfaces₁.terminal, show (Lexeme.punctuation op.punctuation : Lexeme T).terminal.binaryOp?
    = some op from hop]
  dsimp only
  rw [if_pos htaken.1]
  refine hfetch.andThen ((hsecond _).bind fun b => ?_)
  exact (computes_perform _ s₃).bind hk

end

/-- **The tree is climbed.** In front of the tokens of a grouped tree, an expression computes the
value of the tree. -/
theorem climbs (t : Tree T) (h : t.isGrouped = true) : Climbs setup t := by
  induction t with
  | num a literal => exact (isOperand_num a literal).climbs
  | var name => exact (isOperand_var name).climbs
  | call0 name => exact (isOperand_call0 name).climbs
  | paren t ih => exact (ih h).isOperand_paren.climbs
  | assign name t ih => exact ((ih h).isOperand_assign name).climbs
  | call1 name t ih => exact ((ih h).isOperand_call1 name).climbs
  | sign s t ih =>
    rw [isGrouped, Bool.and_eq_true, List.all_eq_true] at h
    exact ((ih h.2).isOperand_sign s h.1).climbs
  | call2 name l r ihl ihr =>
    rw [isGrouped, Bool.and_eq_true] at h
    exact ((ihl h.1).isOperand_call2 name (ihr h.2)).climbs
  | bin op l r ihl ihr =>
    simp only [isGrouped, Bool.and_eq_true, List.all_eq_true, Bool.not_eq_true'] at h
    obtain ⟨⟨⟨hright, hleft⟩, hl⟩, hr⟩ := h
    exact (ihl hl).bin op (ihr hr) hright hleft

end Tree

/-! ## Texts that spell trees -/

/-- Precedence climbing evaluates a text that spells a grouped tree as the tree. -/
theorem Tree.exists_computes_text {setup : Setup σ T} (t : Tree T) (h : t.isGrouped = true)
    (hinput : (Cursor.start setup.input).Spells setup.type (t.lexemes ++ [.finish]))
    (store : Store σ T) :
    ∃ s', ∀ᶠ fuel in atTop, (Descent.text setup fuel).Computes (.start setup.input store) s'
      (t.evaluate setup.type setup.generator) := by
  have hstart : (Scan.start setup.input store).Faces setup.type
      (.finish :: (t.lexemes ++ [.finish])) := ⟨rfl, hinput⟩
  obtain ⟨s₁, hfaces₁, hfetch⟩ := Descent.exists_fetch hstart (by simp)
  obtain ⟨s₂, hfaces₂, hexpression⟩ := (t.climbs h).exists_enclosed hfaces₁ rfl rfl
  refine ⟨s₂, ?_⟩
  filter_upwards [hexpression] with fuel hexpression
  rw [Descent.text]
  refine hfetch.andThen ((hexpression .start).followedBy fun a => .ahead ?_)
  rw [if_pos (show s₂.ahead.terminal = .finish from hfaces₂.terminal)]
  exact Descent.computes_pure a s₂

namespace Setup

/-- A text that spells a grouped tree has the outcome of the tree, and no warning comes up. -/
theorem run_of_spells (setup : Setup σ T) {t : Tree T} (h : t.isGrouped = true)
    (hspells : (Cursor.start setup.input).Spells setup.type (t.lexemes ++ [.finish]))
    (store : Store σ T) :
    setup.run store = ⟨(t.evaluate setup.type setup.generator store).1,
      (t.evaluate setup.type setup.generator store).2, []⟩ := by
  obtain ⟨s', htext⟩ := t.exists_computes_text h hspells store
  obtain ⟨fuel, htext, hfuel⟩ :=
    (htext.and (eventually_gt_atTop (2 * setup.input.length + 1))).exists
  have houtcome := htext (fun a s => some ⟨.ok a, s.store, s.warnings⟩) store []
  have hrun : some (setup.run store) = _ :=
    (Descent.outcome_text setup store hfuel).symm.trans houtcome
  rw [← Option.some.injEq, hrun, Evaluation.proceed]
  rcases t.evaluate setup.type setup.generator store with ⟨f | a, store'⟩ <;> rfl

/-- **Precedence decides how an expression is grouped.** A text whose words spell a grouped tree has
the outcome of the tree, and no warning comes up. Floats and integers have literals of the kind that
is asked for. -/
theorem run_spelled :
    (float64 : NumericType σ Float).PlainLiterals ∧ (int64 : NumericType σ Int).PlainLiterals ∧
    ∀ (setup : Setup σ T) (t : Tree T), setup.type.PlainLiterals → t.isGrouped = true →
      (∀ l ∈ t.lexemes, l.Plain setup.type) → Spaced (t.lexemes.map Lexeme.text) setup.input →
      ∀ store, setup.run store =
        ⟨(t.evaluate setup.type setup.generator store).1,
          (t.evaluate setup.type setup.generator store).2, []⟩ := by
  refine ⟨float64_plainLiterals, int64_plainLiterals, ?_⟩
  intro setup t hplain h hlexemes hspaced store
  exact run_of_spells setup h (Cursor.spells_of_spaced hplain hlexemes hspaced 0) store

/-- A sign takes the product behind it away from the quotient in front. -/
theorem run_spelled_quotient :
    (Setup.run ⟨int64, RandomSource.generator, Text.ofString " 8 / - 2 * 4"⟩
      ⟨.empty, .seeded 1⟩).result = .ok (-1) := by
  let t : Tree Int := .bin .div (.num 8 (Text.ofString "8"))
    (.sign .minus (.bin .mul (.num 2 (Text.ofString "2")) (.num 4 (Text.ofString "4"))))
  have hlexemes : ∀ l ∈ t.lexemes, l.Plain (int64 : NumericType RandomSource Int) := by
    simp only [t, Tree.lexemes, List.cons_append, List.nil_append, List.forall_mem_cons]
    exact ⟨.number rfl rfl, .punctuation _, .punctuation _, .number rfl rfl, .punctuation _,
      .number rfl rfl, nofun⟩
  have hspaced : Spaced (t.lexemes.map Lexeme.text) (Text.ofString " 8 / - 2 * 4") :=
    spaced_flatMap _
  rw [run_spelled.2.2 _ t int64_plainLiterals rfl hlexemes hspaced]
  rfl

end Setup

end Calculator
