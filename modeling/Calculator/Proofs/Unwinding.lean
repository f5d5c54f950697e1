import Calculator.Proofs.Termination
import Mathlib.Logic.Relation

/-!
# Unwinding

`Setup.run_unwinds`: what the counter of a reduction does. It is zero whenever an item is entered,
and so whenever a token is read. A reduction sets it, and then exactly the items that have read the
right-hand side are left, one transition each. The item beneath them goes on behind its operand,
with one value more on the stack than there was when it was entered.

* `Production.rightSide`, `Item.read`: productions as sequences of symbols, up to the point.
* `Viable.exists_haveRead`: the innermost items have read what stands in front of the point.
* `Config.Unwinds`: a reduction with all that follows up to the item that goes on.
* `Setup.Reaches.exists_entry`: an item on the stack has been entered, and since then nothing below
  its operands has changed.

Proof. Which operands lie below an item can be said by their number: it is the number of items in
front of whose point stands a symbol with an operand (`Viable.length_operands`). A reduction takes
off the operands of its handle. So whatever was on the stack when an item beneath the handle was
entered stays there.
-/

namespace Calculator

variable {σ T : Type}

/-! ## Right-hand sides -/

/-- A symbol of the grammar. -/
inductive GrammarSymbol
  | terminal (t : Terminal)
  /-- `E` -/
  | expression
  deriving DecidableEq, Repr

/-- Whether there is an operand on the stack for the symbol when it has been read. -/
def GrammarSymbol.hasOperand : GrammarSymbol → Bool
  | terminal .number | terminal .identifier | expression => true
  | _ => false

namespace Production

/-- The symbols that a reduction replaces by `E`. -/
def rightSide : Production → List GrammarSymbol
  | number => [.terminal .number]
  | identifier => [.terminal .identifier]
  | sign s => [.terminal (.punctuation s.punctuation), .expression]
  | binary op => [.expression, .terminal (.punctuation op.punctuation), .expression]
  | bracket =>
    [.terminal (.punctuation .leftParen), .expression, .terminal (.punctuation .rightParen)]
  | assign => [.terminal .identifier, .terminal (.punctuation .equals), .expression]
  | call0 =>
    [.terminal .identifier, .terminal (.punctuation .leftParen),
      .terminal (.punctuation .rightParen)]
  | call1 =>
    [.terminal .identifier, .terminal (.punctuation .leftParen), .expression,
      .terminal (.punctuation .rightParen)]
  | call2 =>
    [.terminal .identifier, .terminal (.punctuation .leftParen), .expression,
      .terminal (.punctuation .comma), .expression, .terminal (.punctuation .rightParen)]

theorem length_rightSide (p : Production) : p.rightSide.length = p.length := by
  cases p <;> rfl

theorem length_pos (p : Production) : 0 < p.length := by
  cases p <;> exact Nat.succ_pos _

end Production

namespace Item

/-- What has been read of the production of an item: the symbols in front of the point. -/
def read : Item → List GrammarSymbol
  | start => []
  | afterExpr => [.expression]
  | unaryAfterOp s => (Production.sign s).rightSide.take 1
  | afterUnary s => (Production.sign s).rightSide
  | binaryAfterOp op => (Production.binary op).rightSide.take 2
  | afterBinary op => (Production.binary op).rightSide
  | afterBracket => Production.bracket.rightSide.take 1
  | bracketAfterExpr => Production.bracket.rightSide.take 2
  | afterBracketExpr => Production.bracket.rightSide
  | afterNumber => Production.number.rightSide
  | afterIdent => Production.identifier.rightSide
  | assignAfterIdent => Production.assign.rightSide.take 2
  | afterAssign => Production.assign.rightSide
  | callAfterIdent => Production.call0.rightSide.take 2
  | afterCall0 => Production.call0.rightSide
  | callAfterArg => Production.call1.rightSide.take 3
  | afterCall1 => Production.call1.rightSide
  | callAfterComma => Production.call2.rightSide.take 4
  | callAfterArg2 => Production.call2.rightSide.take 5
  | afterCall2 => Production.call2.rightSide

/-- The symbol right in front of the point. -/
def symbol? (item : Item) : Option GrammarSymbol := item.read.getLast?

theorem Completes.read_eq {item : Item} {p : Production} (h : item.Completes p) :
    item.read = p.rightSide := by
  cases h <;> rfl

theorem Shift.symbol?_eq {item next : Item} {t : Terminal} (h : item.Shift t next) :
    next.symbol? = some (.terminal t) := by
  cases h <;> rfl

theorem read_of_beforeOperand? {place next : Item} (h : next.beforeOperand? = some place) :
    next.read = place.read ++ [.expression] := by
  cases next <;> cases h <;> rfl

theorem symbol?_of_beforeOperand? {place next : Item} (h : next.beforeOperand? = some place) :
    next.symbol? = some .expression := by
  rw [symbol?, read_of_beforeOperand? h, List.getLast?_concat]

/-- Whether there is an operand on the stack for the symbol in front of the point. -/
def hasOperand (item : Item) : Bool := item.symbol?.any GrammarSymbol.hasOperand

theorem Shift.hasOperand_eq {item next : Item} {t : Terminal} (h : item.Shift t next) :
    next.hasOperand = (GrammarSymbol.terminal t).hasOperand := by
  rw [hasOperand, h.symbol?_eq, Option.any_some]

theorem hasOperand_of_beforeOperand? {place next : Item} (h : next.beforeOperand? = some place) :
    next.hasOperand = true := by
  rw [hasOperand, symbol?_of_beforeOperand? h]
  rfl

end Item

/-! ## What the items on a stack stand for -/

theorem Token.length_operands (t : Token T) :
    t.operands.length = if (GrammarSymbol.terminal t.terminal).hasOperand = true then 1 else 0 := by
  obtain ⟨lexeme, position⟩ := t
  cases lexeme <;> rfl

/-- The items have read the symbols, one each, the innermost item the last of them. -/
def HaveRead (items : List Item) (symbols : List GrammarSymbol) : Prop :=
  items.reverse.map Item.symbol? = symbols.map some

namespace HaveRead

variable {items : List Item} {symbols : List GrammarSymbol} {item : Item} {s : GrammarSymbol}

theorem length_eq (h : HaveRead items symbols) : items.length = symbols.length := by
  have hlength := congrArg List.length h
  rwa [List.length_map, List.length_map, List.length_reverse] at hlength

theorem cons (h : HaveRead items symbols) (hs : item.symbol? = some s) :
    HaveRead (item :: items) (symbols ++ [s]) := by
  rw [HaveRead, List.reverse_cons, List.map_append, List.map_append, h]
  simp [hs]

theorem singleton (hs : item.symbol? = some s) : HaveRead [item] [s] := by
  simp [HaveRead, hs]

end HaveRead

namespace Viable

variable {item : Item} {below items : List Item} {operands : List (Operand T)}
  {tokens : List (Token T)}

/-- The innermost items have read what stands in front of the point: each item continues what the
one beneath it has read of a production, or begins with one symbol or with an operator behind an
operand. -/
theorem exists_haveRead (h : Viable (item :: below) operands tokens) :
    ∃ inner, inner <+: item :: below ∧ HaveRead inner item.read := by
  generalize hitems : item :: below = items at h
  induction h generalizing item below with
  | start =>
    cases hitems
    exact ⟨[], List.nil_prefix, rfl⟩
  | @shift place next outer operands tokens t _ hshift ih =>
    cases hitems
    obtain ⟨inner, hinner, hread⟩ := ih rfl
    have hsymbol := hshift.symbol?_eq
    have hnext : next :: inner <+: next :: place :: outer := List.cons_prefix_cons.2 ⟨rfl, hinner⟩
    have hfirst : [next] <+: next :: place :: outer :=
      List.cons_prefix_cons.2 ⟨rfl, List.nil_prefix⟩
    generalize t.terminal = u at hshift hsymbol
    cases hshift with
    | number | identifier | sign | bracket => exact ⟨_, hfirst, .singleton hsymbol⟩
    | operator op before =>
      refine ⟨[.binaryAfterOp op, place], ?_, ?_⟩
      · exact List.cons_prefix_cons.2 ⟨rfl, List.cons_prefix_cons.2 ⟨rfl, List.nil_prefix⟩⟩
      · exact (HaveRead.singleton (Item.symbol?_of_beforeOperand? before)).cons hsymbol
    | closeBracket | equals | openCall | closeCall0 | closeCall1 | comma | closeCall2 =>
      exact ⟨_, hnext, hread.cons hsymbol⟩
  | operand a _ before _ ih =>
    cases hitems
    obtain ⟨inner, hinner, hread⟩ := ih rfl
    rw [Item.read_of_beforeOperand? before]
    exact ⟨_, List.cons_prefix_cons.2 ⟨rfl, hinner⟩,
      hread.cons (Item.symbol?_of_beforeOperand? before)⟩

theorem length_operands (h : Viable items operands tokens) :
    operands.length = items.countP Item.hasOperand := by
  induction h with
  | start => rfl
  | shift t _ hshift ih =>
    rw [List.length_append, ih, List.countP_cons (l := _ :: _), hshift.hasOperand_eq,
      Token.length_operands, Nat.add_comm]
  | operand a _ before _ ih =>
    rw [List.length_cons, ih, List.countP_cons_of_pos (Item.hasOperand_of_beforeOperand? before)]

/-- The items in front of the one that expects a handle have read the right-hand side. -/
theorem exists_handle_haveRead {p : Production} (h : Viable (item :: below) operands tokens)
    (complete : item.Completes p) :
    ∃ inner place outer popped rest read handle,
      (item :: below = inner ++ place :: outer ∧ HaveRead inner p.rightSide ∧
        place.afterOperand?.isSome) ∧
      (operands = popped ++ rest ∧ tokens = read ++ handle ∧ p.Handle popped handle) ∧
      Viable (place :: outer) rest read := by
  obtain ⟨inner, place, outer, popped, rest, read, handle, ⟨hbelow, hlength, expects⟩, hhandle,
    hviable⟩ := h.exists_handle complete
  obtain ⟨front, hfront, hread⟩ := h.exists_haveRead
  rw [complete.read_eq] at hread
  have hinner : front = item :: inner := by
    refine (List.prefix_of_prefix_length_le hfront ⟨place :: outer, ?_⟩ ?_).eq_of_length ?_
    · rw [hbelow, List.cons_append]
    · rw [hread.length_eq, p.length_rightSide, List.length_cons, hlength]
    · rw [hread.length_eq, p.length_rightSide, List.length_cons, hlength]
  exact ⟨item :: inner, place, outer, popped, rest, read, handle,
    ⟨by rw [hbelow, List.cons_append], hinner ▸ hread, expects⟩, hhandle, hviable⟩

end Viable

/-! ## Items that stay -/

namespace Config

/-- The items that have been entered and not left, the one that is just being entered included. -/
def active (c : Config σ T) : List Item :=
  match c.control with
  | .enter item => item :: c.frames
  | .resume => c.frames

/-- The active items without those that are about to be left. -/
def staying (c : Config σ T) : List Item :=
  match c.control with
  | .enter item => item :: c.frames
  | .resume => c.frames.drop c.unwind

theorem active_of_enter {c : Config σ T} {item : Item} (control : c.control = .enter item) :
    c.active = item :: c.frames := by
  simp only [active, control]

theorem staying_of_enter {c : Config σ T} {item : Item} (control : c.control = .enter item) :
    c.staying = item :: c.frames := by
  simp only [staying, control]

theorem staying_of_resume {c : Config σ T} (control : c.control = .resume) :
    c.staying = c.frames.drop c.unwind := by
  simp only [staying, control]

theorem staying_suffix_active (c : Config σ T) : c.staying <:+ c.active := by
  unfold staying active
  split
  · exact List.suffix_rfl
  · exact List.drop_suffix _ _

/-- Transitions lead from one configuration to the other, and these items stay active. -/
def LeadsTo (setup : Setup σ T) (items : List Item) : Config σ T → Config σ T → Prop :=
  Relation.ReflTransGen fun c c' => c.step setup = .next c' ∧ items <:+ c'.active

/-- The configuration behind a reduction of `n` symbols when `k` items have been left. -/
def leaving (c : Config σ T) (operands : List (Operand T)) (store : Store σ T) (n k : ℕ) :
    Config σ T :=
  { c with control := .resume, frames := c.active.drop k, operands, store, unwind := n - k }

/-- A reduction in a run, with all that follows up to the item that goes on. The items that are left
are those that have read the right-hand side; between them no item is entered and no token is
read. Then the counter is back at zero, and the item beneath goes on behind its operand. Since that
item was entered, one value has come on the stack. -/
inductive Unwinds (setup : Setup σ T) (store : Store σ T) (c : Config σ T) (p : Production) : Prop
  | intro {inner outer : List Item} {place next : Item} {a : T} {after : Store σ T}
    {read : List (Token T)} {entry : Config σ T}
    (active : c.active = inner ++ place :: outer) (haveRead : HaveRead inner p.rightSide)
    (entered : setup.Reaches store read entry) (control : entry.control = .enter place)
    (frames : entry.frames = outer) (leads : entry.LeadsTo setup (place :: outer) c)
    (reduce : c.step setup =
      .next (c.leaving (.value a :: entry.operands) after p.rightSide.length 1))
    (leave : ∀ k, 0 < k → k < p.rightSide.length →
      (c.leaving (.value a :: entry.operands) after p.rightSide.length k).step setup =
        .next (c.leaving (.value a :: entry.operands) after p.rightSide.length (k + 1)))
    (behind : place.afterOperand? = some next)
    (goOn :
      let last := c.leaving (.value a :: entry.operands) after p.rightSide.length p.rightSide.length
      last.frames = place :: outer ∧ last.unwind = 0 ∧
        last.step setup = .next { last with control := .enter next })

end Config

/-! ## Entries -/

/-- What a reduction leaves: the item that expected the handle, the operands below the handle, and a
value on top of them. -/
theorem Config.Valid.exists_of_reduce {setup : Setup σ T} {c : Config σ T} {tokens : List (Token T)}
    (h : c.Valid tokens) {item : Item} {p : Production} {operands : List (Operand T)}
    {after : Store σ T} (control : c.control = .enter item)
    (action : item.action c.ahead.terminal = .reduce p)
    (evaluate : p.evaluate setup c.operands c.store = (.ok operands, after)) :
    ∃ inner place outer a rest read, c.active = inner ++ place :: outer ∧
      HaveRead inner p.rightSide ∧ place.afterOperand?.isSome ∧ operands = .value a :: rest ∧
      rest <:+ c.operands ∧ Viable (place :: outer) rest read := by
  obtain ⟨-, -, viable, -⟩ := h.viable_of_enter control
  obtain ⟨inner, place, outer, popped, rest, read, handle, ⟨hactive, hread, expects⟩,
    ⟨hoperands, -, hhandle⟩, hviable⟩ :=
    viable.exists_handle_haveRead (Item.completes_of_action action).1
  obtain ⟨x, hx, -⟩ := hhandle.exists_onto setup rest
  rw [hoperands, hx, Evaluation.onto_apply] at evaluate
  rw [← active_of_enter control] at hactive
  rcases hrun : x c.store with ⟨f | a, after'⟩
  · rw [hrun] at evaluate
    cases evaluate
  · rw [hrun] at evaluate
    cases evaluate
    exact ⟨inner, place, outer, a, rest, read, hactive, hread, expects, rfl,
      hoperands ▸ List.suffix_append popped rest, hviable⟩

namespace Setup

variable {setup : Setup σ T} {store : Store σ T} {tokens : List (Token T)} {c : Config σ T}

/-- The operands below an item are as many as the items beneath stand for. -/
theorem Reaches.length_operands (h : setup.Reaches store tokens c) {place : Item}
    (control : c.control = .enter place) :
    c.operands.length = (place :: c.frames).countP Item.hasOperand := by
  obtain ⟨-, -, viable, -⟩ := h.valid.viable_of_enter control
  exact viable.length_operands

/-- An item that stays has been entered in the course of the run. Since then it has been active, and
the operands that were on the stack are still there. -/
theorem Reaches.exists_entry (h : setup.Reaches store tokens c) {place : Item} {outer : List Item}
    (hstay : place :: outer <:+ c.staying) :
    ∃ read entry, setup.Reaches store read entry ∧ entry.control = .enter place ∧
      entry.frames = outer ∧ entry.LeadsTo setup (place :: outer) c ∧
      entry.operands <:+ c.operands := by
  induction h generalizing place outer with
  | start hfetch =>
    have hreaches := Reaches.start hfetch
    obtain ⟨token, -, rfl⟩ := exists_of_fetch_initial hfetch
    rcases List.suffix_cons_iff.1 hstay with heq | hnil
    · cases heq
      exact ⟨_, _, hreaches, rfl, rfl, .refl, List.suffix_rfl⟩
    · cases List.suffix_nil.1 hnil
  | @step tokens c c' hreaches hstep ih =>
    have hnow := hreaches.step hstep
    have hactive := hstay.trans c'.staying_suffix_active
    -- An item that stayed before needs no new entry. Only a reduction takes operands off.
    have stayed (hbefore : place :: outer <:+ c.staying)
        (hoperands : ∀ entry : Config σ T,
          entry.operands.length = (place :: outer).countP Item.hasOperand →
          entry.operands <:+ c.operands → entry.operands <:+ c'.operands) :
        ∃ read entry, setup.Reaches store read entry ∧ entry.control = .enter place ∧
          entry.frames = outer ∧ entry.LeadsTo setup (place :: outer) c' ∧
          entry.operands <:+ c'.operands := by
      obtain ⟨read, entry, hentry, control, rfl, leads, hsuffix⟩ := ih hbefore
      exact ⟨read, entry, hentry, control, rfl, leads.tail ⟨hstep, hactive⟩,
        hoperands entry (hentry.length_operands control) hsuffix⟩
    cases Config.move_of_step hstep with
    | @shift item next token control action read =>
      rcases List.suffix_cons_iff.1 hstay with heq | hbelow
      · cases heq
        exact ⟨_, _, hnow, rfl, rfl, .refl, List.suffix_rfl⟩
      · refine stayed (Config.staying_of_enter control ▸ hbelow) fun _ _ hsuffix => ?_
        exact hsuffix.trans (List.suffix_append _ _)
    | @reduce item p operands after control action evaluate =>
      obtain ⟨inner, place', outer', a, rest, read, hactive', hread, -, rfl, hrest, hviable⟩ :=
        hreaches.valid.exists_of_reduce control action evaluate
      rw [Config.active_of_enter control] at hactive'
      have hlength : inner.length = p.length - 1 + 1 := by
        have hpos := p.length_pos
        rw [hread.length_eq, p.length_rightSide]
        omega
      have hdrop : c.frames.drop (p.length - 1) = place' :: outer' := by
        rw [← List.drop_succ_cons (a := item), hactive', ← hlength, List.drop_left]
      rw [Config.staying_of_resume rfl, hdrop] at hstay
      refine stayed ?_ fun entry hentry hsuffix => ?_
      · rw [Config.staying_of_enter control, hactive']
        exact hstay.trans (List.suffix_append _ _)
      · have hle : entry.operands.length ≤ rest.length := by
          rw [hentry, hviable.length_operands]
          exact hstay.sublist.countP_le
        exact (List.suffix_of_suffix_length_le hsuffix hrest hle).trans (List.suffix_cons _ _)
    | @accept item control action =>
      obtain ⟨unwind, -⟩ := hreaches.valid.viable_of_enter control
      refine stayed ?_ fun _ _ hsuffix => hsuffix
      rw [Config.staying_of_enter control]
      exact (hstay.trans (List.drop_suffix _ _)).trans (List.suffix_cons _ _)
    | @goOn item next below control frames after continues =>
      rcases List.suffix_cons_iff.1 hstay with heq | hbelow
      · cases heq
        exact ⟨_, _, hnow, rfl, rfl, .refl, List.suffix_rfl⟩
      · simp only [Config.continues, Bool.and_eq_true, beq_iff_eq] at continues
        refine stayed ?_ fun _ _ hsuffix => hsuffix
        rwa [Config.staying_of_resume control, continues.1.1, List.drop_zero]
    | @leave item below control frames stops =>
      let left : Config σ T := { c with frames := below, unwind := c.unwind - 1 }
      have hleft : left.staying = below.drop (c.unwind - 1) := Config.staying_of_resume control
      refine stayed ?_ fun _ _ hsuffix => hsuffix
      rw [Config.staying_of_resume control, frames]
      refine (hleft ▸ hstay).trans ?_
      cases c.unwind with
      | zero => exact List.suffix_cons item below
      | succ n => exact List.suffix_rfl

end Setup

/-! ## Reductions -/

namespace Config

variable {setup : Setup σ T} {c : Config σ T}

theorem exists_of_mem_reductions {p : Production} (h : p ∈ c.reductions) :
    ∃ item, c.control = .enter item ∧ item.action c.ahead.terminal = .reduce p := by
  unfold reductions at h
  split at h
  · next item control =>
    split at h
    · next q action =>
      obtain rfl := List.mem_singleton.1 h
      exact ⟨item, control, action⟩
    · cases h
  · cases h

/-- As long as the counter is not zero, the innermost item is left. -/
theorem leaving_step (operands : List (Operand T)) (store : Store σ T) {n k : ℕ} (hk : k < n)
    (hactive : k < c.active.length) :
    (c.leaving operands store n k).step setup = .next (c.leaving operands store n (k + 1)) := by
  have hcontinues : (c.leaving operands store n k).continues = false := by
    have hunwind : (n - k == 0) = false := by
      rw [beq_eq_false_iff_ne]
      omega
    show (n - k == 0 && _ && _) = false
    rw [hunwind, Bool.false_and, Bool.false_and]
  exact step_of_leave (c := c.leaving operands store n k) rfl
    (List.drop_eq_getElem_cons hactive) (.inr hcontinues)

end Config

namespace Setup

variable {setup : Setup σ T} {store : Store σ T} {tokens : List (Token T)} {c : Config σ T}

/-- A reduction is followed by as many returns as its right-hand side has symbols, unless its
operation fails. -/
theorem Reaches.unwinds (h : setup.Reaches store tokens c) {p : Production}
    (hp : p ∈ c.reductions) :
    (∃ f after, c.step setup = .halt ⟨.error f, after, c.warnings⟩) ∨
      c.Unwinds setup store p := by
  obtain ⟨item, control, action⟩ := Config.exists_of_mem_reductions hp
  rcases hevaluate : p.evaluate setup c.operands c.store with ⟨f | operands, after⟩
  · left
    refine ⟨f, after, ?_⟩
    rw [Config.step_of_reduce control action]
    simp only [Config.reduce, hevaluate, Config.fault]
  · right
    obtain ⟨inner, place, outer, a, rest, _, hactive, hread, hexpects, rfl, hrest, hviable⟩ :=
      h.valid.exists_of_reduce control action hevaluate
    obtain ⟨next, hnext⟩ := Option.isSome_iff_exists.1 hexpects
    have hstaying : place :: outer <:+ c.staying := by
      rw [Config.staying_of_enter control, ← Config.active_of_enter control, hactive]
      exact List.suffix_append _ _
    obtain ⟨read, entry, hentry, hcontrol, rfl, hleads, hsuffix⟩ := h.exists_entry hstaying
    -- Both are what lies at the bottom of the stack, and they are of the same length.
    have hoperands : rest = entry.operands := by
      refine (List.suffix_of_suffix_length_le hrest hsuffix ?_).eq_of_length ?_
      · rw [hviable.length_operands, hentry.length_operands hcontrol]
      · rw [hviable.length_operands, hentry.length_operands hcontrol]
    subst hoperands
    have hlast : c.active.drop p.rightSide.length = place :: entry.frames := by
      rw [hactive, ← hread.length_eq, List.drop_left]
    have hreduce : c.step setup =
        .next (c.leaving (.value a :: entry.operands) after p.rightSide.length 1) := by
      rw [Config.step_of_reduce control action, p.length_rightSide, Config.leaving,
        Config.active_of_enter control]
      simp only [Config.reduce, hevaluate]
      rfl
    refine .intro hactive hread hentry hcontrol rfl hleads hreduce (fun k _ hk => ?_) hnext
      ⟨hlast, Nat.sub_self _, ?_⟩
    · refine Config.leaving_step _ _ hk ?_
      rw [hactive, List.length_append, hread.length_eq]
      omega
    · obtain ⟨-, haccepted, -⟩ := h.valid.viable_of_enter control
      refine Config.step_of_goOn rfl hlast hnext ?_
      show (_ - _ == 0 && _ && !c.accepted) = true
      rw [Nat.sub_self, haccepted]
      rfl

/-- **Unwinding.** Whenever an item is entered, the counter of a reduction is zero, and so it is
whenever a token is read. A reduction that is made leaves exactly the items that have read its
right-hand side, one transition each, and in between no item is entered and no token is read. Then
the counter is zero again, and the item beneath goes on behind its operand, with one value more on
the stack than when it was entered. -/
theorem run_unwinds (setup : Setup σ T) (store : Store σ T) {tokens : List (Token T)}
    {c : Config σ T} (h : setup.Reaches store tokens c) :
    (∀ item, c.control = .enter item → c.unwind = 0) ∧
    (∀ c', c.step setup = .next c' → c.shifted ≠ [] → c.unwind = 0 ∧ c'.unwind = 0) ∧
    ∀ p ∈ c.reductions,
      (∃ f after, c.step setup = .halt ⟨.error f, after, c.warnings⟩) ∨
        c.Unwinds setup store p := by
  have hentered : ∀ item, c.control = .enter item → c.unwind = 0 := fun item control =>
    (h.valid.viable_of_enter control).1
  refine ⟨hentered, fun c' hstep hshifted => ?_, fun p hp => h.unwinds hp⟩
  cases Config.move_of_step hstep with
  | shift control action read => exact ⟨hentered _ control, hentered _ control⟩
  | reduce control action _ | accept control action =>
    exact absurd (Config.shifted_of_ne_shift control (by simp [action])) hshifted
  | goOn control | leave control => exact absurd (Config.shifted_of_resume control) hshifted

/-- The sign in front of a number: two items are left, and the first one goes on. -/
theorem run_unwinds_sign :
    let setup : Setup RandomSource Int := ⟨int64, RandomSource.generator, Text.ofString "-2"⟩
    let store : Store RandomSource Int := ⟨.empty, .seeded 1⟩
    ∃ tokens c, setup.Reaches store tokens c ∧ c.reductions = [.sign .minus] ∧
      c.Unwinds setup store (.sign .minus) := by
  intro setup store
  let sign : Token Int := ⟨.punctuation .minus, 0⟩
  let number : Token Int := ⟨.number 2 (Text.ofString "2"), 1⟩
  let start : Config RandomSource Int :=
    { Config.initial setup store with ahead := sign, cursor := ⟨1, Text.ofString "2"⟩ }
  let behind : Config RandomSource Int :=
    { start with
      control := .enter (.afterUnary .minus), frames := [.unaryAfterOp .minus, .start]
      operands := [.value 2], ahead := ⟨.finish, 2⟩, cursor := ⟨2, []⟩ }
  have hstart : setup.Reaches store [] start := .start rfl
  have hbehind : setup.Reaches store [sign, number] behind :=
    (((hstart.step rfl).step rfl).step rfl).step rfl
  have hstep : behind.step setup = .next { behind with
      control := .resume, operands := [.value (-2)], unwind := 1 } := rfl
  refine ⟨_, behind, hbehind, rfl, ?_⟩
  rcases (run_unwinds setup store hbehind).2.2 (.sign .minus) List.mem_cons_self with
    ⟨f, after, hhalt⟩ | hunwinds
  · rw [hstep] at hhalt
    cases hhalt
  · exact hunwinds

end Setup

end Calculator
