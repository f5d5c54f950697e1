import Calculator.Proofs.Acceptance
import Calculator.Proofs.Reading
import Calculator.Proofs.Trail
import Calculator.Random.Source

/-!
# Errors are found at the earliest token

`Setup.run_refuses_earliest`: the tokens that an evaluation has read can always be completed to a
sentence, and what it refuses is the first token with which they cannot.

Proof. An operand that is expected somewhere on a viable stack can be any phrase: whatever stands in
front of it is the start of a production, and the rest of that production makes a longer phrase of
it, expected further out (`Viable.completable_of_phrase`). On the other hand the recognizer cannot
read what the automaton refuses (`Config.Valid.not_phrase_of_fail`).
-/

namespace Calculator

variable {σ T : Type}

/-- The terminals are the start of a phrase. -/
def Completable (ts : List Terminal) : Prop := ∃ rest, Phrase (ts ++ rest)

theorem Phrase.completable {e : List Terminal} (h : Phrase e) : Completable e :=
  ⟨[], by rwa [List.append_nil]⟩

/-- The start of what can be completed can be completed. -/
theorem Completable.of_append {t u : List Terminal} (h : Completable (t ++ u)) :
    Completable t := by
  obtain ⟨rest, hrest⟩ := h
  exact ⟨u ++ rest, by rwa [← List.append_assoc]⟩

/-! ## Completing what has been read -/

@[simp] theorem Token.terminal_identifier (name : Text) (position : Nat) :
    (⟨.identifier name, position⟩ : Token T).terminal = .identifier := rfl

namespace Viable

variable {item place : Item} {below : List Item} {operands : List (Operand T)}
  {tokens : List (Token T)}

/-- What has been read can be completed if an operand is expected, whatever phrase is taken for
that. The induction is on the stack: each item in front of the operand stands on one further out
that expects the phrase around it. -/
theorem completable_of_phrase (h : Viable (place :: below) operands tokens)
    (expects : place.afterOperand?.isSome) {e : List Terminal} (he : Phrase e) :
    Completable (tokens.map Token.terminal ++ e) := by
  -- The items on the way to the one further out are left behind at once.
  induction hn : below.length using Nat.strongRecOn generalizing place below operands tokens e with
  | _ n ih =>
    replace ih : ∀ {place : Item} {outer : List Item} {operands : List (Operand T)}
        {tokens : List (Token T)}, Viable (place :: outer) operands tokens →
        place.afterOperand?.isSome → ∀ {e : List Terminal}, Phrase e → outer.length < n →
        Completable (tokens.map Token.terminal ++ e) :=
      fun h expects _ he hlt => ih _ hlt h expects he rfl
    cases place with
    | start =>
      cases h with
      | start => exact he.completable
      | shift t _ hshift => exact absurd rfl hshift.ne_start
      | operand a _ before => cases before
    | unaryAfterOp s =>
      obtain ⟨place, outer, t, _, rest, read, rfl, rfl, rfl, ht, hshift, h₁⟩ := h.of_shift nofun rfl
      cases hshift with
      | sign _ expects₁ => simpa [ht] using ih h₁ expects₁ (.sign s he) (by grind)
    | binaryAfterOp op =>
      obtain ⟨_, _, t, _, _, _, rfl, rfl, rfl, ht, hshift, h₁⟩ := h.of_shift nofun rfl
      cases hshift with
      | operator _ before =>
        obtain ⟨outer, a, rest, read, l, rfl, rfl, rfl, hl, h₂⟩ := h₁.of_operand before
        have expects₂ := Item.isSome_afterOperand? before
        simpa [ht] using ih h₂ expects₂ (.binary op hl he) (by grind)
    | afterBracket =>
      obtain ⟨place, outer, l, _, rest, read, rfl, rfl, rfl, hl, hshift, h₁⟩ := h.of_shift nofun rfl
      cases hshift with
      | bracket expects₁ =>
        refine Completable.of_append (u := [.punctuation .rightParen]) ?_
        simpa [hl] using ih h₁ expects₁ (.bracket he) (by grind)
    | assignAfterIdent =>
      obtain ⟨_, _, t, _, _, _, rfl, rfl, rfl, ht, hshift, h₁⟩ := h.of_shift nofun rfl
      cases hshift
      obtain ⟨place, outer, name, position, rest, read, rfl, expects₂, rfl, rfl, h₂⟩ :=
        h₁.of_afterIdent
      simpa [ht] using ih h₂ expects₂ (.assign he) (by grind)
    | callAfterIdent =>
      obtain ⟨place, outer, name, position, l, rest, read, rfl, expects₁, rfl, rfl, hl, h₁⟩ :=
        h.of_callAfterIdent
      refine Completable.of_append (u := [.punctuation .rightParen]) ?_
      simpa [hl] using ih h₁ expects₁ (.call1 he) (by grind)
    | callAfterComma =>
      obtain ⟨_, _, m, _, _, _, rfl, rfl, rfl, hm, hshift, h₁⟩ := h.of_shift nofun rfl
      cases hshift
      obtain ⟨_, a, _, _, d, rfl, rfl, rfl, hd, h₂⟩ := h₁.of_operand rfl
      obtain ⟨place, outer, name, position, l, rest, read, rfl, expects₃, rfl, rfl, hl, h₃⟩ :=
        h₂.of_callAfterIdent
      refine Completable.of_append (u := [.punctuation .rightParen]) ?_
      simpa [hl, hm] using ih h₃ expects₃ (.call2 hd he) (by grind)
    | _ => cases expects

/-- What has been read can be completed: an item expects an operand, stands behind one, or is at
the end of its production. -/
theorem completable (h : Viable (item :: below) operands tokens) :
    Completable (tokens.map Token.terminal) := by
  have behind : ∀ place, item.beforeOperand? = some place →
      Completable (tokens.map Token.terminal) := by
    intro place before
    obtain ⟨outer, a, rest, read, e, rfl, rfl, rfl, he, h₁⟩ := h.of_operand before
    rw [List.map_append]
    exact h₁.completable_of_phrase (Item.isSome_afterOperand? before) he
  have complete : ∀ p, item.Completes p → Completable (tokens.map Token.terminal) := by
    intro p hp
    obtain ⟨_, place, outer, _, rest, read, handle, ⟨_, _, expects⟩, ⟨_, rfl, hhandle⟩, h₁⟩ :=
      h.exists_handle hp
    rw [List.map_append]
    exact h₁.completable_of_phrase expects hhandle.phrase
  cases item with
  | start | unaryAfterOp _ | binaryAfterOp _ | afterBracket | assignAfterIdent | callAfterIdent
  | callAfterComma => exact (h.completable_of_phrase rfl .identifier).of_append
  | afterExpr | afterUnary _ | afterBinary _ | bracketAfterExpr | afterAssign | callAfterArg
  | callAfterArg2 => exact behind _ rfl
  | afterNumber => exact complete _ .number
  | afterIdent => exact complete _ .identifier
  | afterBracketExpr => exact complete _ .bracket
  | afterCall0 => exact complete _ .call0
  | afterCall1 => exact complete _ .call1
  | afterCall2 => exact complete _ .call2

end Viable

theorem Config.Valid.completable {c : Config σ T} {tokens : List (Token T)} (h : c.Valid tokens) :
    Completable (tokens.map Token.terminal) := by
  cases h with
  | entered _ _ _ viable => exact viable.completable
  | reduced _ _ _ _ expects _ eq_append phrase viable =>
    rw [eq_append, List.map_append]
    exact viable.completable_of_phrase expects phrase
  | accepted _ _ _ _ phrase => exact phrase.completable

/-! ## Refusals -/

/-- The errors by which the automaton refuses a token. -/
inductive Fault.IsRefusal : Fault → Prop
  | grammar (state token input : Text) : IsRefusal (.error (.grammar state token input))
  | strayInput (fragment : Text) (position : Nat) :
    IsRefusal (.error (.lexical (.strayInput fragment position)))

theorem Config.isRefusal_refusal (c : Config σ T) (setup : Setup σ T) (item : Item) :
    Fault.IsRefusal (.error (c.refusal setup item)) := by
  unfold refusal
  split
  · exact .strayInput _ _
  · exact .grammar _ _ _

theorem Fault.IsUnknown.not_isRefusal {f : Fault} (h : f.IsUnknown) : ¬ f.IsRefusal := by
  cases h <;> exact nofun

/-- The run from a store reads the tokens and refuses the next one, with the given error. -/
def Setup.Refuses (setup : Setup σ T) (store : Store σ T) (tokens : List (Token T))
    (last : Token T) (e : Error) : Prop :=
  ∃ c item, setup.Reaches store tokens c ∧ c.control = .enter item ∧
    item.action c.ahead.terminal = .fail ∧ c.ahead = last ∧ c.refusal setup item = e

namespace Setup

variable {setup : Setup σ T} {store : Store σ T}

theorem Refuses.result {tokens : List (Token T)} {last : Token T} {e : Error}
    (h : setup.Refuses store tokens last e) : (setup.run store).result = .error (.error e) := by
  obtain ⟨c, item, hreaches, control, action, _, rfl⟩ := h
  rw [hreaches.run_eq, Config.run_of_step_halt (Config.step_of_fail control action)]

/-- A fault comes from a literal, or from an operation of the type in the course of the run, or a
name stands for nothing, or a token is refused. -/
theorem fails_or_refuses {f : Fault} (hf : (setup.run store).result = .error f) :
    (∃ text, setup.type.parseLiteral text = .error f) ∨
    (∃ tokens c, setup.Reaches store tokens c ∧
      setup.type.Fails setup.generator c.store.source f) ∨
    f.IsUnknown ∨ ∃ tokens last e, f = .error e ∧ setup.Refuses store tokens last e := by
  rcases exists_halt_of_run setup store with ⟨f', htoken, hresult⟩ | ⟨tokens, c, hreaches, hhalt⟩
  · rw [hresult] at hf
    cases hf
    exact .inl (Cursor.exists_parseLiteral htoken)
  · generalize setup.run store = o at hf hhalt
    cases hhalt with
    | unreadable control action read =>
      cases hf
      exact .inl (Cursor.exists_parseLiteral read)
    | failed control action evaluate =>
      cases hf
      rcases hreaches.valid.fails_of_reduce control action evaluate with hfails | hunknown
      · exact .inr (.inl ⟨tokens, c, hreaches, hfails⟩)
      · exact .inr (.inr (.inl hunknown))
    | refused control action =>
      cases hf
      exact .inr (.inr (.inr ⟨tokens, c.ahead, _, rfl, c, _, hreaches, control, action, rfl, rfl⟩))
    | finished control frames =>
      obtain ⟨⟨a, ha⟩, _⟩ := hreaches.valid.finish setup control frames
      rw [ha] at hf
      cases hf

/-- A fault is raised by the type, or a name stands for nothing, or a token is refused. -/
theorem raised_or_refuses {f : Fault} (hf : (setup.run store).result = .error f)
    {P : Fault → Prop} (hP : setup.type.Raises setup.generator P)
    (hliteral : setup.type.ReadRaises P) :
    P f ∨ f.IsUnknown ∨ ∃ tokens last e, f = .error e ∧ setup.Refuses store tokens last e := by
  rcases fails_or_refuses hf with ⟨text, htext⟩ | ⟨_, _, _, hfails⟩ | hother
  · exact .inl (hliteral text f htext)
  · exact .inl (hP.of_fails hfails)
  · exact .inr hother

/-- **Errors are found at the earliest token.** Whatever a run has read, it can be completed to a
sentence. A token that it refuses stands behind what it has read, and with that token it cannot be
completed; if the end is refused, what it has read is no sentence. Unless an operation of the type
raises them, all grammar errors and all errors about stray input are such refusals. -/
theorem run_refuses_earliest (setup : Setup σ T) (store : Store σ T) :
    (∀ tokens c, setup.Reaches store tokens c →
      tokens ++ [c.ahead] <+: (tokenize setup.type setup.input).tokens ∧
      Completable (tokens.map Token.terminal)) ∧
    (∀ tokens last e, setup.Refuses store tokens last e →
      (setup.run store).result = .error (.error e) ∧ Fault.IsRefusal (.error e) ∧
      tokens ++ [last] <+: (tokenize setup.type setup.input).tokens ∧
      Completable (tokens.map Token.terminal) ∧
      (last.terminal ≠ .finish → ¬ Completable ((tokens ++ [last]).map Token.terminal)) ∧
      (last.terminal = .finish → ¬ Phrase (tokens.map Token.terminal))) ∧
    ∀ f, (setup.run store).result = .error f → f.IsRefusal →
      ∀ P, setup.type.Raises setup.generator P → setup.type.ReadRaises P →
        P f ∨ ∃ tokens last e, f = .error e ∧ setup.Refuses store tokens last e := by
  have hread : ∀ tokens c, setup.Reaches store tokens c →
      tokens ++ [c.ahead] <+: (tokenize setup.type setup.input).tokens ∧
      Completable (tokens.map Token.terminal) := fun tokens c hreaches =>
    ⟨hreaches.isPrefix_tokenize, hreaches.valid.completable⟩
  refine ⟨hread, fun tokens last e h => ⟨h.result, ?_⟩, fun f hf hrefusal P hP hliteral => ?_⟩
  · obtain ⟨c, item, hreaches, control, action, rfl, rfl⟩ := h
    obtain ⟨htokens, hcompletable⟩ := hread tokens c hreaches
    obtain ⟨hnext, hfinish⟩ := hreaches.valid.not_phrase_of_fail control action
    refine ⟨c.isRefusal_refusal setup item, htokens, hcompletable, fun ht hlast => ?_, hfinish⟩
    obtain ⟨rest, phrase⟩ := hlast
    exact hnext ht rest (by simpa using phrase)
  · rcases raised_or_refuses hf hP hliteral with hraised | hunknown | hrefuses
    · exact .inl hraised
    · exact absurd hrefusal hunknown.not_isRefusal
    · exact .inr hrefuses

/-- Two numbers in a row: the second one is refused. -/
theorem run_refuses_second_number :
    let setup : Setup RandomSource Int := ⟨int64, RandomSource.generator, Text.ofString "1 2"⟩
    let store : Store RandomSource Int := ⟨.empty, .seeded 1⟩
    let first : Token Int := ⟨.number 1 (Text.ofString "1"), 0⟩
    let second : Token Int := ⟨.number 2 (Text.ofString "2"), 2⟩
    let e : Error :=
      .grammar (Text.ofString "afterNumber") (Text.ofString "number") (Text.ofString "1 2")
    setup.Refuses store [first] second e ∧ Completable [first.terminal] ∧
      ¬ Completable [first.terminal, second.terminal] := by
  intro setup store first second e
  let start : Config RandomSource Int :=
    { Config.initial setup store with ahead := first, cursor := ⟨1, Text.ofString " 2"⟩ }
  let after : Config RandomSource Int :=
    { start with
      control := .enter .afterNumber, frames := [.start], operands := [.value 1]
      ahead := second, cursor := ⟨3, []⟩ }
  have hstart : setup.Reaches store [] start := .start rfl
  have hafter : setup.Reaches store [first] after := hstart.step rfl
  have hrefuses : setup.Refuses store [first] second e :=
    ⟨after, .afterNumber, hafter, rfl, rfl, rfl, rfl⟩
  obtain ⟨-, -, -, hcompletable, hnot, -⟩ :=
    (run_refuses_earliest setup store).2.1 [first] second e hrefuses
  exact ⟨hrefuses, hcompletable, hnot nofun⟩

end Setup

end Calculator
