import Calculator.Proofs.Faults
import Calculator.Proofs.Grammar
import Calculator.Proofs.Transition

/-!
# What stands on the stacks

A stack of items is viable together with operands and tokens if it comes about by reading tokens and
by moving a point over an operand that has been read as a phrase. On viable stacks every reduction
finds the operands of its production, and the tokens that they were read from.

* `Item.Shift`, `Item.Completes`: the table read backwards.
* `Viable`: the stacks of items, with the operands and the tokens that go with them.
* `Production.Handle`: the operands and the tokens of a right-hand side.
* `Viable.exists_handle`: the handle of a complete item, and the stacks without it.
* `Config.Valid`: the invariant of a run, which holds at every configuration
  (`Setup.Reaches.valid`).
-/

namespace Calculator

variable {σ T : Type}

/-! ## The table read backwards -/

namespace Item

/-- The item with the point moved back over the operand that has just been read. -/
def beforeOperand? : Item → Option Item
  | afterExpr => some start
  | afterUnary s => some (unaryAfterOp s)
  | afterBinary op => some (binaryAfterOp op)
  | bracketAfterExpr => some afterBracket
  | afterAssign => some assignAfterIdent
  | callAfterArg => some callAfterIdent
  | callAfterArg2 => some callAfterComma
  | _ => none

theorem afterOperand?_eq_some_iff {place next : Item} :
    place.afterOperand? = some next ↔ next.beforeOperand? = some place := by
  constructor
  · intro h
    cases place <;> cases h <;> rfl
  · intro h
    cases next <;> cases h <;> rfl

theorem isSome_afterOperand? {place next : Item} (h : next.beforeOperand? = some place) :
    place.afterOperand?.isSome := by
  rw [afterOperand?_eq_some_iff.2 h]
  rfl

/-- Which item reads which terminal and leads to which item, apart from the pending operator that an
operator has to bind tighter than. -/
inductive Shift : Item → Terminal → Item → Prop
  | number {place : Item} (expects : place.afterOperand?.isSome) :
    Shift place .number .afterNumber
  | identifier {place : Item} (expects : place.afterOperand?.isSome) :
    Shift place .identifier .afterIdent
  | sign {place : Item} (s : Sign) (expects : place.afterOperand?.isSome) :
    Shift place (.punctuation s.punctuation) (.unaryAfterOp s)
  | bracket {place : Item} (expects : place.afterOperand?.isSome) :
    Shift place (.punctuation .leftParen) .afterBracket
  | operator {place item : Item} (op : BinaryOp) (before : item.beforeOperand? = some place) :
    Shift item (.punctuation op.punctuation) (.binaryAfterOp op)
  | closeBracket : Shift .bracketAfterExpr (.punctuation .rightParen) .afterBracketExpr
  | equals : Shift .afterIdent (.punctuation .equals) .assignAfterIdent
  | openCall : Shift .afterIdent (.punctuation .leftParen) .callAfterIdent
  | closeCall0 : Shift .callAfterIdent (.punctuation .rightParen) .afterCall0
  | closeCall1 : Shift .callAfterArg (.punctuation .rightParen) .afterCall1
  | comma : Shift .callAfterArg (.punctuation .comma) .callAfterComma
  | closeCall2 : Shift .callAfterArg2 (.punctuation .rightParen) .afterCall2

theorem Shift.ne_start {item next : Item} {t : Terminal} (h : Shift item t next) :
    next ≠ .start := by
  cases h <;> exact nofun

theorem Shift.beforeOperand?_eq_none {item next : Item} {t : Terminal} (h : Shift item t next) :
    next.beforeOperand? = none := by
  cases h <;> rfl

/-- The items with the point at the end, and their productions. -/
inductive Completes : Item → Production → Prop
  | number : Completes .afterNumber .number
  | identifier : Completes .afterIdent .identifier
  | sign (s : Sign) : Completes (.afterUnary s) (.sign s)
  | binary (op : BinaryOp) : Completes (.afterBinary op) (.binary op)
  | bracket : Completes .afterBracketExpr .bracket
  | assign : Completes .afterAssign .assign
  | call0 : Completes .afterCall0 .call0
  | call1 : Completes .afterCall1 .call1
  | call2 : Completes .afterCall2 .call2

/-- What an item may do with a terminal ahead. -/
inductive Acts : Item → Terminal → Action → Prop
  | shift {item next : Item} {t : Terminal} : Shift item t next → Acts item t (.shift next)
  | reduce {item : Item} {t : Terminal} {p : Production} :
    Completes item p → t.isFollow = true → Acts item t (.reduce p)
  | accept : Acts .afterExpr .finish .accept
  | fail {item : Item} {t : Terminal} : Acts item t .fail

theorem Acts.operandAction {place : Item} (expects : place.afterOperand?.isSome) (t : Terminal) :
    Acts place t (operandAction t) := by
  unfold Item.operandAction
  split
  · exact .shift (.number expects)
  · exact .shift (.identifier expects)
  · exact .shift (.sign .plus expects)
  · exact .shift (.sign .minus expects)
  · exact .shift (.bracket expects)
  · exact .fail

theorem Acts.completeAction {item : Item} {p : Production} (complete : Completes item p)
    (t : Terminal) : Acts item t (completeAction p t) := by
  unfold Item.completeAction
  split
  · next hf => exact .reduce complete hf
  · exact .fail

theorem Acts.operator {place item : Item} {t : Terminal} {op : BinaryOp}
    (before : item.beforeOperand? = some place) (hop : t.binaryOp? = some op) :
    Acts item t (.shift (.binaryAfterOp op)) := by
  rw [Terminal.binaryOp?_eq_some_iff.1 hop]
  exact .shift (.operator op before)

theorem Acts.tightAction {place item : Item} {p : Production}
    (before : item.beforeOperand? = some place) (complete : Completes item p) (pending : Pending)
    (t : Terminal) : Acts item t (tightAction pending p t) := by
  unfold Item.tightAction
  split
  · next op hop =>
    split
    · exact .operator before hop
    · exact .completeAction complete t
  · exact .completeAction complete t

theorem Acts.looseAction {place item : Item} {otherwise : Terminal → Action}
    (before : item.beforeOperand? = some place) (t : Terminal)
    (hother : Acts item t (otherwise t)) : Acts item t (looseAction otherwise t) := by
  unfold Item.looseAction
  split
  · next op hop => exact .operator before hop
  · exact hother

/-- The whole table: an item reads what its production goes on with, and reduces no production but
its own, in front of a terminal that may follow. -/
theorem acts_action (item : Item) (t : Terminal) : Acts item t (item.action t) := by
  cases item with
  | start | unaryAfterOp _ | binaryAfterOp _ | afterBracket | assignAfterIdent
  | callAfterComma => exact .operandAction rfl t
  | callAfterIdent =>
    simp only [action]
    split
    · exact .shift .closeCall0
    · exact .operandAction rfl t
  | afterIdent =>
    simp only [action]
    split
    · exact .shift .equals
    · exact .shift .openCall
    · exact .completeAction .identifier t
  | afterExpr =>
    rw [action]
    refine .looseAction rfl t ?_
    split
    · exact .accept
    · exact .fail
  | bracketAfterExpr =>
    rw [action]
    refine .looseAction rfl t ?_
    split
    · exact .shift .closeBracket
    · exact .fail
  | callAfterArg =>
    rw [action]
    refine .looseAction rfl t ?_
    split
    · exact .shift .comma
    · exact .shift .closeCall1
    · exact .fail
  | callAfterArg2 =>
    rw [action]
    refine .looseAction rfl t ?_
    split
    · exact .shift .closeCall2
    · exact .fail
  | afterAssign => exact .looseAction rfl t (.completeAction .assign t)
  | afterUnary s => exact .tightAction rfl (.sign s) _ t
  | afterBinary op => exact .tightAction rfl (.binary op) _ t
  | afterNumber => exact .completeAction .number t
  | afterBracketExpr => exact .completeAction .bracket t
  | afterCall0 => exact .completeAction .call0 t
  | afterCall1 => exact .completeAction .call1 t
  | afterCall2 => exact .completeAction .call2 t

theorem shift_of_action {item next : Item} {t : Terminal} (h : item.action t = .shift next) :
    Shift item t next := by
  have hacts := acts_action item t
  rw [h] at hacts
  cases hacts with
  | shift hshift => exact hshift

theorem completes_of_action {item : Item} {t : Terminal} {p : Production}
    (h : item.action t = .reduce p) : Completes item p ∧ t.isFollow = true := by
  have hacts := acts_action item t
  rw [h] at hacts
  cases hacts with
  | reduce hcomplete hf => exact ⟨hcomplete, hf⟩

theorem eq_of_action_accept {item : Item} {t : Terminal} (h : item.action t = .accept) :
    item = .afterExpr ∧ t = .finish := by
  have hacts := acts_action item t
  rw [h] at hacts
  cases hacts with
  | accept => exact ⟨rfl, rfl⟩

end Item

/-! ## Viable stacks -/

/-- The stacks of items, innermost first, that reading can lead to, with the operands and the tokens
that go with them. -/
inductive Viable : List Item → List (Operand T) → List (Token T) → Prop
  | start : Viable [.start] [] []
  /-- A token is read. -/
  | shift {item next : Item} {below : List Item} {operands : List (Operand T)}
    {tokens : List (Token T)} (t : Token T) :
    Viable (item :: below) operands tokens → item.Shift t.terminal next →
      Viable (next :: item :: below) (t.operands ++ operands) (tokens ++ [t])
  /-- The point moves over an operand that has been read. -/
  | operand {place next : Item} {below : List Item} {operands : List (Operand T)}
    {tokens e : List (Token T)} (a : T) :
    Viable (place :: below) operands tokens → next.beforeOperand? = some place →
      Phrase (e.map Token.terminal) →
      Viable (next :: place :: below) (.value a :: operands) (tokens ++ e)

namespace Viable

variable {item place next : Item} {below : List Item} {operands : List (Operand T)}
  {tokens : List (Token T)}

theorem eq_nil_of_start (h : Viable (.start :: below) operands tokens) : below = [] := by
  cases h with
  | start => rfl
  | shift t _ hshift => exact absurd rfl hshift.ne_start
  | operand a _ before => cases before

/-- Behind an operand, that operand is on top of the stack. -/
theorem of_operand (h : Viable (next :: below) operands tokens)
    (before : next.beforeOperand? = some place) :
    ∃ outer a rest read e, below = place :: outer ∧ operands = .value a :: rest ∧
      tokens = read ++ e ∧ Phrase (e.map Token.terminal) ∧ Viable (place :: outer) rest read := by
  cases h with
  | start => cases before
  | shift t _ hshift => rw [hshift.beforeOperand?_eq_none] at before; cases before
  | operand a h before' he =>
    rw [before] at before'
    cases before'
    exact ⟨_, a, _, _, _, rfl, rfl, rfl, he, h⟩

/-- Anywhere else, a token has just been read. -/
theorem of_shift (h : Viable (next :: below) operands tokens) (hstart : next ≠ .start)
    (before : next.beforeOperand? = none) :
    ∃ item outer t u rest read, below = item :: outer ∧ operands = t.operands ++ rest ∧
      tokens = read ++ [t] ∧ t.terminal = u ∧ item.Shift u next ∧
      Viable (item :: outer) rest read := by
  cases h with
  | start => exact absurd rfl hstart
  | shift t h hshift => exact ⟨_, _, t, _, _, _, rfl, rfl, rfl, rfl, hshift, h⟩
  | operand a _ before' =>
    rw [before] at before'
    cases before'

end Viable

/-! ## Handles -/

/-- The operands and the tokens of a right-hand side. Where the production has an identifier, the
operand is that identifier as it was written; all other operands are values. -/
inductive Production.Handle : Production → List (Operand T) → List (Token T) → Prop
  | number (a : T) (text : Text) (position : Nat) :
    Handle .number [.value a] [⟨.number a text, position⟩]
  | identifier (name : Text) (position : Nat) :
    Handle .identifier [.identifier name] [⟨.identifier name, position⟩]
  | sign (s : Sign) (a : T) {t : Token T} {e : List (Token T)} :
    t.terminal = .punctuation s.punctuation → Phrase (e.map Token.terminal) →
      Handle (.sign s) [.value a] (t :: e)
  | binary (op : BinaryOp) (a b : T) {l r : List (Token T)} {t : Token T} :
    Phrase (l.map Token.terminal) → t.terminal = .punctuation op.punctuation →
      Phrase (r.map Token.terminal) →
      Handle (.binary op) [.value b, .value a] (l ++ t :: r)
  | bracket (a : T) {l r : Token T} {e : List (Token T)} :
    l.terminal = .punctuation .leftParen → Phrase (e.map Token.terminal) →
      r.terminal = .punctuation .rightParen →
      Handle .bracket [.value a] (l :: e ++ [r])
  | assign (name : Text) (position : Nat) (a : T) {t : Token T} {e : List (Token T)} :
    t.terminal = .punctuation .equals → Phrase (e.map Token.terminal) →
      Handle .assign [.value a, .identifier name] (⟨.identifier name, position⟩ :: t :: e)
  | call0 (name : Text) (position : Nat) {l r : Token T} :
    l.terminal = .punctuation .leftParen → r.terminal = .punctuation .rightParen →
      Handle .call0 [.identifier name] [⟨.identifier name, position⟩, l, r]
  | call1 (name : Text) (position : Nat) (a : T) {l r : Token T} {e : List (Token T)} :
    l.terminal = .punctuation .leftParen → Phrase (e.map Token.terminal) →
      r.terminal = .punctuation .rightParen →
      Handle .call1 [.value a, .identifier name] (⟨.identifier name, position⟩ :: l :: e ++ [r])
  | call2 (name : Text) (position : Nat) (a b : T) {l m r : Token T} {d e : List (Token T)} :
    l.terminal = .punctuation .leftParen → Phrase (d.map Token.terminal) →
      m.terminal = .punctuation .comma → Phrase (e.map Token.terminal) →
      r.terminal = .punctuation .rightParen →
      Handle .call2 [.value b, .value a, .identifier name]
        (⟨.identifier name, position⟩ :: l :: d ++ m :: e ++ [r])

/-- The tokens of a handle form a phrase. -/
theorem Production.Handle.phrase {p : Production} {operands : List (Operand T)}
    {tokens : List (Token T)} (h : p.Handle operands tokens) :
    Phrase (tokens.map Token.terminal) := by
  cases h with
  | number a text position => exact .number
  | identifier name position => exact .identifier
  | sign s a ht he =>
    rw [List.map_cons, ht]
    exact .sign s he
  | binary op a b hl ht hr =>
    rw [List.map_append, List.map_cons, ht]
    exact .binary op hl hr
  | bracket a hl he hr =>
    rw [List.map_append, List.map_cons, List.map_cons, List.map_nil, hl, hr]
    exact .bracket he
  | assign name position a ht he =>
    rw [List.map_cons, List.map_cons, ht]
    exact .assign he
  | call0 name position hl hr =>
    rw [List.map_cons, List.map_cons, List.map_cons, List.map_nil, hl, hr]
    exact .call0
  | call1 name position a hl he hr =>
    rw [List.map_append, List.map_cons, List.map_cons, List.map_cons, List.map_nil, hl, hr]
    exact .call1 he
  | call2 name position a b hl hd hm he hr =>
    rw [List.map_append, List.map_append, List.map_cons, List.map_cons, List.map_cons,
      List.map_cons, List.map_nil, hl, hm, hr]
    exact .call2 hd he

theorem Token.exists_of_number {t : Token T} (h : t.terminal = .number) :
    ∃ a text position, t = ⟨.number a text, position⟩ := by
  obtain ⟨lexeme, position⟩ := t
  cases lexeme <;> first | exact ⟨_, _, _, rfl⟩ | cases h

theorem Token.exists_of_identifier {t : Token T} (h : t.terminal = .identifier) :
    ∃ name position, t = ⟨.identifier name, position⟩ := by
  obtain ⟨lexeme, position⟩ := t
  cases lexeme <;> first | exact ⟨_, _, rfl⟩ | cases h

namespace Viable

variable {below : List Item} {operands : List (Operand T)} {tokens : List (Token T)}

theorem of_afterIdent (h : Viable (.afterIdent :: below) operands tokens) :
    ∃ place outer name position rest read, below = place :: outer ∧ place.afterOperand?.isSome ∧
      operands = .identifier name :: rest ∧ tokens = read ++ [⟨.identifier name, position⟩] ∧
      Viable (place :: outer) rest read := by
  obtain ⟨place, outer, t, _, rest, read, rfl, rfl, rfl, ht, hshift, h₁⟩ := h.of_shift nofun rfl
  cases hshift with
  | identifier expects =>
    obtain ⟨name, position, rfl⟩ := Token.exists_of_identifier ht
    exact ⟨place, outer, name, position, rest, read, rfl, expects, rfl, rfl, h₁⟩

theorem of_callAfterIdent (h : Viable (.callAfterIdent :: below) operands tokens) :
    ∃ place outer name position l rest read, below = .afterIdent :: place :: outer ∧
      place.afterOperand?.isSome ∧ operands = .identifier name :: rest ∧
      tokens = read ++ [⟨.identifier name, position⟩, l] ∧
      l.terminal = .punctuation .leftParen ∧ Viable (place :: outer) rest read := by
  obtain ⟨_, _, l, _, _, _, rfl, rfl, rfl, hl, hshift, h₁⟩ := h.of_shift nofun rfl
  cases hshift
  obtain ⟨place, outer, name, position, rest, read, rfl, expects, rfl, rfl, h₂⟩ := h₁.of_afterIdent
  refine ⟨place, outer, name, position, l, rest, read, rfl, expects, ?_, by simp, hl, h₂⟩
  rw [Token.operands_of_punctuation hl, List.nil_append]

/-- **The handle of a complete item.** The operands of its production are on top of the stack, and
the item that expects them stands behind the other items of the production. -/
theorem exists_handle {item : Item} {p : Production}
    (h : Viable (item :: below) operands tokens) (complete : item.Completes p) :
    ∃ inner place outer popped rest read handle,
      (below = inner ++ place :: outer ∧ inner.length + 1 = p.length ∧
        place.afterOperand?.isSome) ∧
      (operands = popped ++ rest ∧ tokens = read ++ handle ∧ p.Handle popped handle) ∧
      Viable (place :: outer) rest read := by
  cases complete with
  | number =>
    obtain ⟨place, outer, t, _, rest, read, rfl, rfl, rfl, ht, hshift, h₁⟩ := h.of_shift nofun rfl
    cases hshift with
    | number expects =>
      obtain ⟨a, text, position, rfl⟩ := Token.exists_of_number ht
      exact ⟨[], place, outer, _, rest, read, _, ⟨rfl, rfl, expects⟩,
        ⟨rfl, rfl, .number a text position⟩, h₁⟩
  | identifier =>
    obtain ⟨place, outer, name, position, rest, read, rfl, expects, rfl, rfl, h₁⟩ := h.of_afterIdent
    exact ⟨[], place, outer, [_], rest, read, _, ⟨rfl, rfl, expects⟩,
      ⟨rfl, rfl, .identifier name position⟩, h₁⟩
  | sign s =>
    obtain ⟨_, a, _, _, e, rfl, rfl, rfl, he, h₁⟩ := h.of_operand rfl
    obtain ⟨place, outer, t, _, rest, read, rfl, rfl, rfl, ht, hshift, h₂⟩ := h₁.of_shift nofun rfl
    cases hshift with
    | sign _ expects =>
      refine ⟨[.unaryAfterOp s], place, outer, [.value a], rest, read, t :: e,
        ⟨rfl, rfl, expects⟩, ⟨?_, by simp, .sign s a ht he⟩, h₂⟩
      rw [Token.operands_of_punctuation ht]
      rfl
  | binary op =>
    obtain ⟨_, b, _, _, r, rfl, rfl, rfl, hr, h₁⟩ := h.of_operand rfl
    obtain ⟨_, _, t, _, _, _, rfl, rfl, rfl, ht, hshift, h₂⟩ := h₁.of_shift nofun rfl
    cases hshift with
    | operator _ before =>
      obtain ⟨outer, a, rest, read, l, rfl, rfl, rfl, hl, h₃⟩ := h₂.of_operand before
      refine ⟨[.binaryAfterOp op, _], _, outer, [.value b, .value a], rest, read, l ++ t :: r,
        ⟨rfl, rfl, Item.isSome_afterOperand? before⟩, ⟨?_, by simp, .binary op a b hl ht hr⟩, h₃⟩
      rw [Token.operands_of_punctuation ht]
      rfl
  | bracket =>
    obtain ⟨_, _, r, _, _, _, rfl, rfl, rfl, hr, hshift, h₁⟩ := h.of_shift nofun rfl
    cases hshift
    obtain ⟨_, a, _, _, e, rfl, rfl, rfl, he, h₂⟩ := h₁.of_operand rfl
    obtain ⟨place, outer, l, _, rest, read, rfl, rfl, rfl, hl, hshift, h₃⟩ := h₂.of_shift nofun rfl
    cases hshift with
    | bracket expects =>
      refine ⟨[.bracketAfterExpr, .afterBracket], place, outer, [.value a], rest, read,
        l :: e ++ [r], ⟨rfl, rfl, expects⟩, ⟨?_, by simp, .bracket a hl he hr⟩, h₃⟩
      rw [Token.operands_of_punctuation hl, Token.operands_of_punctuation hr]
      rfl
  | assign =>
    obtain ⟨_, a, _, _, e, rfl, rfl, rfl, he, h₁⟩ := h.of_operand rfl
    obtain ⟨_, _, t, _, _, _, rfl, rfl, rfl, ht, hshift, h₂⟩ := h₁.of_shift nofun rfl
    cases hshift
    obtain ⟨place, outer, name, position, rest, read, rfl, expects, rfl, rfl, h₃⟩ :=
      h₂.of_afterIdent
    refine ⟨[.assignAfterIdent, .afterIdent], place, outer, [.value a, .identifier name], rest,
      read, _, ⟨rfl, rfl, expects⟩, ⟨?_, by simp, .assign name position a ht he⟩, h₃⟩
    rw [Token.operands_of_punctuation ht]
    rfl
  | call0 =>
    obtain ⟨_, _, r, _, _, _, rfl, rfl, rfl, hr, hshift, h₁⟩ := h.of_shift nofun rfl
    cases hshift
    obtain ⟨place, outer, name, position, l, rest, read, rfl, expects, rfl, rfl, hl, h₂⟩ :=
      h₁.of_callAfterIdent
    refine ⟨[.callAfterIdent, .afterIdent], place, outer, [.identifier name], rest, read, _,
      ⟨rfl, rfl, expects⟩, ⟨?_, by simp, .call0 name position hl hr⟩, h₂⟩
    rw [Token.operands_of_punctuation hr]
    rfl
  | call1 =>
    obtain ⟨_, _, r, _, _, _, rfl, rfl, rfl, hr, hshift, h₁⟩ := h.of_shift nofun rfl
    cases hshift
    obtain ⟨_, a, _, _, e, rfl, rfl, rfl, he, h₂⟩ := h₁.of_operand rfl
    obtain ⟨place, outer, name, position, l, rest, read, rfl, expects, rfl, rfl, hl, h₃⟩ :=
      h₂.of_callAfterIdent
    refine ⟨[.callAfterArg, .callAfterIdent, .afterIdent], place, outer,
      [.value a, .identifier name], rest, read, _,
      ⟨rfl, rfl, expects⟩, ⟨?_, by simp, .call1 name position a hl he hr⟩, h₃⟩
    rw [Token.operands_of_punctuation hr]
    rfl
  | call2 =>
    obtain ⟨_, _, r, _, _, _, rfl, rfl, rfl, hr, hshift, h₁⟩ := h.of_shift nofun rfl
    cases hshift
    obtain ⟨_, b, _, _, e, rfl, rfl, rfl, he, h₂⟩ := h₁.of_operand rfl
    obtain ⟨_, _, m, _, _, _, rfl, rfl, rfl, hm, hshift, h₃⟩ := h₂.of_shift nofun rfl
    cases hshift
    obtain ⟨_, a, _, _, d, rfl, rfl, rfl, hd, h₄⟩ := h₃.of_operand rfl
    obtain ⟨place, outer, name, position, l, rest, read, rfl, expects, rfl, rfl, hl, h₅⟩ :=
      h₄.of_callAfterIdent
    refine ⟨[.callAfterArg2, .callAfterComma, .callAfterArg, .callAfterIdent, .afterIdent], place,
      outer, [.value b, .value a, .identifier name], rest, read, _,
      ⟨rfl, rfl, expects⟩, ⟨?_, by simp, .call2 name position a b hl hd hm he hr⟩, h₅⟩
    rw [Token.operands_of_punctuation hr, Token.operands_of_punctuation hm]
    rfl

end Viable

/-- A reduction replaces the operands of a handle by one value, unless an operation of the type
fails or a name stands for nothing. -/
theorem Production.Handle.exists_onto {p : Production} {popped : List (Operand T)}
    {tokens : List (Token T)} (h : p.Handle popped tokens) (setup : Setup σ T)
    (rest : List (Operand T)) :
    ∃ x, p.evaluate setup (popped ++ rest) = Evaluation.onto rest x ∧
      x.Raises fun s f => setup.type.Fails setup.generator s f ∨ f.IsUnknown := by
  cases h with
  | number a text position =>
    exact ⟨_, evaluate_number .., Evaluation.raises_pure a⟩
  | identifier name position =>
    exact ⟨_, evaluate_identifier .., fun store f hf =>
      .inr (Evaluation.raises_resolve name store f hf)⟩
  | sign s a ht he =>
    exact ⟨_, evaluate_sign .., Evaluation.raises_liftM fun _ _ hf => .inl (.of_applySign hf)⟩
  | binary op a b hl ht hr =>
    exact ⟨_, evaluate_binary .., Evaluation.raises_liftM fun _ _ hf => .inl (.apply op a b hf)⟩
  | bracket a hl he hr =>
    exact ⟨_, evaluate_bracket .., Evaluation.raises_pure a⟩
  | assign name position a ht he =>
    exact ⟨_, evaluate_assign .., Evaluation.raises_store name a⟩
  | call0 name position hl hr =>
    exact ⟨_, evaluate_call0 .., Evaluation.raises_draw fun _ _ => NumericType.Fails.of_call0⟩
  | call1 name position a hl he hr =>
    exact ⟨_, evaluate_call1 .., Evaluation.raises_liftM fun _ _ => NumericType.Fails.of_call1⟩
  | call2 name position a b hl hd hm he hr =>
    exact ⟨_, evaluate_call2 .., Evaluation.raises_draw fun _ _ => NumericType.Fails.of_call2⟩

/-! ## The invariant of a run -/

/-- What holds in a configuration of a run that has read the given tokens. -/
inductive Config.Valid (c : Config σ T) (tokens : List (Token T)) : Prop
  /-- An item is entered. -/
  | entered {item : Item} (control : c.control = .enter item) (unwind : c.unwind = 0)
    (accepted : c.accepted = false) (viable : Viable (item :: c.frames) c.operands tokens)
    (follow : item.beforeOperand?.isSome → c.ahead.terminal.isFollow = true)
  /-- A phrase has been reduced; the items in front of the one that expects it are left. -/
  | reduced {inner outer : List Item} {place : Item} {a : T} {rest : List (Operand T)}
    {read e : List (Token T)} (control : c.control = .resume) (accepted : c.accepted = false)
    (frames : c.frames = inner ++ place :: outer) (unwind : c.unwind = inner.length)
    (expects : place.afterOperand?.isSome) (operands : c.operands = .value a :: rest)
    (eq_append : tokens = read ++ e) (phrase : Phrase (e.map Token.terminal))
    (viable : Viable (place :: outer) rest read) (follow : c.ahead.terminal.isFollow = true)
  /-- The whole text has been accepted; the items are left. -/
  | accepted {a : T} (control : c.control = .resume) (accepted : c.accepted = true)
    (unwind : c.unwind = 0) (operands : c.operands = [.value a])
    (phrase : Phrase (tokens.map Token.terminal)) (finish : c.ahead.terminal = .finish)

namespace Config.Valid

variable {setup : Setup σ T} {c c' : Config σ T} {tokens : List (Token T)}

theorem viable_of_enter {item : Item} (h : c.Valid tokens) (control : c.control = .enter item) :
    c.unwind = 0 ∧ c.accepted = false ∧ Viable (item :: c.frames) c.operands tokens ∧
      (item.beforeOperand?.isSome → c.ahead.terminal.isFollow = true) := by
  cases h with
  | entered control' unwind accepted viable follow =>
    rw [control] at control'
    cases control'
    exact ⟨unwind, accepted, viable, follow⟩
  | reduced control' => rw [control] at control'; cases control'
  | accepted control' => rw [control] at control'; cases control'

/-- A transition keeps the invariant. -/
theorem move (h : c.Valid tokens) (hmove : Move setup c c') : c'.Valid (tokens ++ c.shifted) := by
  cases hmove with
  | @shift item next token control action read =>
    obtain ⟨unwind, accepted, viable, _⟩ := h.viable_of_enter control
    have hshift := Item.shift_of_action action
    rw [shifted_of_shift control action]
    refine .entered rfl unwind accepted (viable.shift c.ahead hshift) fun hbefore => ?_
    rw [hshift.beforeOperand?_eq_none] at hbefore
    cases hbefore
  | @reduce item p operands store control action evaluate =>
    obtain ⟨_, accepted, viable, _⟩ := h.viable_of_enter control
    obtain ⟨complete, follow⟩ := Item.completes_of_action action
    obtain ⟨inner, place, outer, popped, rest, read, handle, ⟨hframes, hlength, expects⟩,
      ⟨hoperands, htokens, hhandle⟩, hviable⟩ := viable.exists_handle complete
    obtain ⟨x, hx, _⟩ := hhandle.exists_onto setup rest
    rw [hoperands, hx, Evaluation.onto_apply] at evaluate
    rw [shifted_of_ne_shift control (by simp [action]), List.append_nil]
    rcases hrun : x c.store with ⟨f | a, store'⟩
    · rw [hrun] at evaluate
      cases evaluate
    · rw [hrun] at evaluate
      cases evaluate
      exact .reduced rfl accepted hframes (by rw [← hlength]; rfl) expects rfl htokens
        hhandle.phrase hviable follow
  | @accept item control action =>
    obtain ⟨unwind, _, viable, _⟩ := h.viable_of_enter control
    obtain ⟨rfl, hfinish⟩ := Item.eq_of_action_accept action
    rw [shifted_of_ne_shift control (by simp [action]), List.append_nil]
    obtain ⟨outer, a, rest, read, e, _, hoperands, rfl, phrase, hstart⟩ := viable.of_operand rfl
    cases hstart with
    | start => exact .accepted rfl rfl (by simp [unwind]) hoperands phrase hfinish
    | shift t _ hshift => exact absurd rfl hshift.ne_start
    | operand a _ before => cases before
  | @goOn item next below control frames after continues =>
    rw [shifted_of_resume control, List.append_nil]
    simp only [Config.continues, Bool.and_eq_true, beq_iff_eq, Bool.not_eq_true'] at continues
    cases h with
    | entered control' => rw [control] at control'; cases control'
    | @reduced inner outer place a rest read e _ accepted frames' unwind _ operands eq_append
        phrase viable follow =>
      -- Nothing is left to unwind, so the innermost item is the one that expects the phrase.
      obtain rfl : inner = [] := List.eq_nil_of_length_eq_zero (unwind.symm.trans continues.1.1)
      have before : next.beforeOperand? = some place := by
        rw [frames] at frames'
        cases frames'
        exact Item.afterOperand?_eq_some_iff.1 after
      refine .entered rfl continues.1.1 accepted ?_ fun _ => follow
      have hnext := viable.operand a before phrase
      rwa [← operands, ← eq_append, ← List.nil_append (place :: outer), ← frames'] at hnext
    | accepted _ accepted => rw [accepted] at continues; simp at continues
  | @leave item below control frames stops =>
    rw [shifted_of_resume control, List.append_nil]
    cases h with
    | entered control' => rw [control] at control'; cases control'
    | @reduced inner outer place a rest read e _ accepted frames' unwind expects operands eq_append
        phrase viable follow =>
      rw [frames] at frames'
      cases inner with
      | nil =>
        -- The item that expects the phrase is not left.
        cases frames'
        rcases stops with hnone | hstop
        · rw [hnone] at expects
          cases expects
        · simp [continues, unwind, operands, accepted] at hstop
      | cons item' inner =>
        cases frames'
        refine .reduced control accepted rfl ?_ expects operands eq_append phrase viable follow
        show c.unwind - 1 = inner.length
        rw [unwind]
        rfl
    | accepted _ accepted unwind operands phrase finish =>
      exact .accepted control accepted (by simp [unwind]) operands phrase finish

end Config.Valid

theorem Config.Valid.start {setup : Setup σ T} {store : Store σ T} {c : Config σ T}
    (h : (Config.initial setup store).fetch setup = .next c) : c.Valid [] := by
  obtain ⟨token, _, rfl⟩ := Setup.exists_of_fetch_initial h
  exact .entered rfl rfl rfl .start nofun

/-- **The invariant of a run.** It holds in every configuration that a run comes to. -/
theorem Setup.Reaches.valid {setup : Setup σ T} {store : Store σ T} {tokens : List (Token T)}
    {c : Config σ T} (h : setup.Reaches store tokens c) : c.Valid tokens := by
  induction h with
  | start hfetch => exact .start hfetch
  | step _ hstep ih => exact ih.move (Config.move_of_step hstep)

/-! ## Ends of runs -/

/-- What is accepted is the value on the stack. -/
theorem Config.finish_eq {c : Config σ T} {a : T} (setup : Setup σ T) (accepted : c.accepted = true)
    (operands : c.operands = [.value a]) : c.finish setup = ⟨.ok a, c.store, c.warnings⟩ := by
  simp only [finish, accepted, operands]
  rfl

namespace Config.Valid

variable {setup : Setup σ T} {c : Config σ T} {tokens : List (Token T)}

/-- A reduction finds the handle of its production. -/
theorem exists_handle (h : c.Valid tokens) {item : Item} {p : Production}
    (control : c.control = .enter item) (action : item.action c.ahead.terminal = .reduce p) :
    ∃ popped rest read handle, c.operands = popped ++ rest ∧ tokens = read ++ handle ∧
      p.Handle popped handle := by
  obtain ⟨_, _, viable, _⟩ := h.viable_of_enter control
  obtain ⟨_, _, _, popped, rest, read, handle, _, hhandle, _⟩ :=
    viable.exists_handle (Item.completes_of_action action).1
  exact ⟨popped, rest, read, handle, hhandle⟩

/-- A reduction fails where an operation of the type fails, or where a name stands for nothing. -/
theorem fails_of_reduce (h : c.Valid tokens) {item : Item} {p : Production} {f : Fault}
    {store : Store σ T} (control : c.control = .enter item)
    (action : item.action c.ahead.terminal = .reduce p)
    (evaluate : p.evaluate setup c.operands c.store = (.error f, store)) :
    setup.type.Fails setup.generator c.store.source f ∨ f.IsUnknown := by
  obtain ⟨popped, rest, _, _, hoperands, _, hhandle⟩ := h.exists_handle control action
  obtain ⟨x, hx, hraises⟩ := hhandle.exists_onto setup rest
  rw [hoperands, hx, Evaluation.onto_apply] at evaluate
  refine hraises c.store f ?_
  rcases hrun : x c.store with ⟨f' | a, store'⟩
  · rw [hrun] at evaluate
    cases evaluate
    rfl
  · rw [hrun] at evaluate
    cases evaluate

theorem raises_of_reduce (h : c.Valid tokens) {P : Fault → Prop}
    (hP : setup.type.Raises setup.generator P) {item : Item} {p : Production} {f : Fault}
    {store : Store σ T} (control : c.control = .enter item)
    (action : item.action c.ahead.terminal = .reduce p)
    (evaluate : p.evaluate setup c.operands c.store = (.error f, store)) : P f ∨ f.IsUnknown :=
  (h.fails_of_reduce control action evaluate).imp_left hP.of_fails

/-- When all items have been left, the whole text has been accepted and its value is known. -/
theorem accepted_of_frames (h : c.Valid tokens) (control : c.control = .resume)
    (frames : c.frames = []) :
    c.accepted = true ∧ (∃ a, c.operands = [.value a]) ∧ Phrase (tokens.map Token.terminal) ∧
      c.ahead.terminal = .finish := by
  cases h with
  | entered control' => rw [control] at control'; cases control'
  | @reduced inner outer place _ _ _ _ _ _ frames' =>
    rw [frames] at frames'
    simp at frames'
  | @accepted a _ accepted _ operands phrase finish =>
    exact ⟨accepted, ⟨a, operands⟩, phrase, finish⟩

theorem finish (h : c.Valid tokens) (setup : Setup σ T) (control : c.control = .resume)
    (frames : c.frames = []) :
    (∃ a, (c.finish setup).result = .ok a) ∧ Phrase (tokens.map Token.terminal) ∧
      c.ahead.terminal = .finish := by
  obtain ⟨accepted, ⟨a, operands⟩, phrase, finish⟩ := h.accepted_of_frames control frames
  exact ⟨⟨a, by rw [finish_eq setup accepted operands]⟩, phrase, finish⟩

end Config.Valid

end Calculator
