import Calculator.Proofs.Ascent
import Calculator.Proofs.Refusal

/-!
# Which grammar errors there are

`Setup.run_diagnoses`: the grammar errors are those of `Item.refused`, and each of them comes up.

* `Item.refused`: the terminals that an item refuses in some run.
* `Item.mem_refused`: in front of what may stand ahead, an item refuses no others.
* `Config.Valid.refusal_eq`: the errors by which a run refuses a token.
* `Item.approach`, `Terminal.sample`: a text for each of the errors.

Proof. Some refusals of the table never come up, since a point is moved over an operand only where a
terminal that may follow one is ahead (`Config.Valid`). Behind the operand, the table refuses none
of these in a sign, a binary operation or an assignment. What is left is found item by item.
-/

namespace Calculator

variable {σ T : Type}

/-! ## The refusals -/

namespace Item

/-- The items in which an operand has just been read, and the point not yet moved over it. -/
def endsOperand : Item → Bool
  | afterNumber | afterIdent | afterBracketExpr | afterCall0 | afterCall1 | afterCall2 => true
  | _ => false

/-- The terminals that an item refuses in some run, but for stray input. -/
def refused : Item → List Terminal
  | start | unaryAfterOp _ | binaryAfterOp _ | afterBracket | assignAfterIdent | callAfterComma =>
    [.punctuation .star, .punctuation .slash, .punctuation .percent, .punctuation .caret,
      .punctuation .rightParen, .punctuation .comma, .punctuation .equals, .finish]
  | callAfterIdent =>
    [.punctuation .star, .punctuation .slash, .punctuation .percent, .punctuation .caret,
      .punctuation .comma, .punctuation .equals, .finish]
  | afterNumber | afterBracketExpr | afterCall0 | afterCall1 | afterCall2 =>
    [.number, .identifier, .punctuation .leftParen, .punctuation .equals]
  | afterIdent => [.number, .identifier]
  | afterExpr => [.punctuation .rightParen, .punctuation .comma]
  | bracketAfterExpr | callAfterArg2 => [.punctuation .comma, .finish]
  | callAfterArg => [.finish]
  | afterUnary _ | afterBinary _ | afterAssign => []

variable {item : Item} {t : Terminal}

theorem endsOperand_of_beforeOperand? (h : item.beforeOperand? = none) :
    item.afterOperand?.isSome ∨ item.endsOperand = true := by
  cases item with
  | start | unaryAfterOp _ | binaryAfterOp _ | afterBracket | assignAfterIdent | callAfterIdent
  | callAfterComma => exact .inl rfl
  | afterNumber | afterIdent | afterBracketExpr | afterCall0 | afterCall1 | afterCall2 =>
    exact .inr rfl
  | _ => cases h

/-- An item that refuses nothing stands behind an operand. -/
theorem isSome_beforeOperand?_of_refused (h : item.refused = []) :
    item.beforeOperand?.isSome := by
  cases item with
  | afterUnary _ | afterBinary _ | afterAssign => rfl
  | _ => cases h

/-- What does not begin an operand. -/
theorem mem_refused_of_operandAction (h : operandAction t = .fail) (ht : t ≠ .invalid) :
    t ∈ start.refused := by
  cases t with
  | punctuation p => cases p <;> first | decide | cases h
  | finish => decide
  | invalid => exact absurd rfl ht
  | number | identifier => cases h

/-- What does not follow an operand. -/
theorem mem_refused_of_isFollow (h : t.isFollow = false) (ht : t ≠ .invalid) :
    t ∈ afterNumber.refused := by
  cases t with
  | punctuation p => cases p <;> first | decide | cases h
  | number | identifier => decide
  | invalid => exact absurd rfl ht
  | finish => cases h

theorem eq_of_looseAction {otherwise : Terminal → Action} (h : looseAction otherwise t = .fail)
    (hf : t.isFollow = true) :
    t = .punctuation .rightParen ∨ t = .punctuation .comma ∨ t = .finish := by
  by_cases ht : t = .finish
  · exact .inr (.inr ht)
  · rcases eq_of_looseAction_fail h hf ht with ht | ht
    · exact .inl ht
    · exact .inr (.inl ht)

/-- In front of what may stand ahead, an item refuses the listed terminals only. -/
theorem mem_refused (h : item.action t = .fail) (ht : t ≠ .invalid)
    (follow : item.beforeOperand?.isSome → t.isFollow = true) : t ∈ item.refused := by
  cases item with
  | start | unaryAfterOp _ | binaryAfterOp _ | afterBracket | assignAfterIdent
  | callAfterComma => exact mem_refused_of_operandAction h ht
  | callAfterIdent | afterIdent =>
    cases t with
    | punctuation p => cases p <;> first | decide | cases h
    | invalid => exact absurd rfl ht
    | number | identifier | finish => first | decide | cases h
  | afterNumber | afterBracketExpr | afterCall0 | afterCall1 | afterCall2 =>
    exact mem_refused_of_isFollow (isFollow_of_completeAction h) ht
  | afterExpr | bracketAfterExpr | callAfterArg | callAfterArg2 =>
    have hloose := h
    rw [action] at hloose
    rcases eq_of_looseAction hloose (follow rfl) with rfl | rfl | rfl <;> first | decide | cases h
  | afterUnary _ | afterBinary _ =>
    have hnot := isFollow_of_tightAction h
    rw [follow rfl] at hnot
    cases hnot
  | afterAssign =>
    have hnot := isFollow_of_completeAction (of_looseAction_fail h).2
    rw [follow rfl] at hnot
    cases hnot

end Item

/-! ## The errors of a run -/

namespace Config.Valid

variable {c : Config σ T} {tokens : List (Token T)} {item : Item}

/-- What is ahead where an item is entered. -/
theorem ahead_of_enter (h : c.Valid tokens) (control : c.control = .enter item) :
    (item.beforeOperand?.isSome → c.ahead.terminal.isFollow = true) ∧
    (c.ahead.terminal = .invalid → item.afterOperand?.isSome ∨ item.endsOperand = true) ∧
    (item.refused = [] → item.action c.ahead.terminal ≠ .fail) := by
  obtain ⟨_, _, _, follow⟩ := h.viable_of_enter control
  have hvalid : item.beforeOperand?.isSome → c.ahead.terminal ≠ .invalid := by
    intro before hinvalid
    have hfollow := follow before
    rw [hinvalid] at hfollow
    cases hfollow
  refine ⟨follow, fun hinvalid => ?_, fun hrefused hfail => ?_⟩
  · refine Item.endsOperand_of_beforeOperand? (Option.not_isSome_iff_eq_none.1 fun before => ?_)
    exact hvalid before hinvalid
  · have before := Item.isSome_beforeOperand?_of_refused hrefused
    have hmem := Item.mem_refused hfail (hvalid before) follow
    rw [hrefused] at hmem
    cases hmem

/-- A refused token is stray input, or one of the terminals that the item refuses. -/
theorem refusal_eq (h : c.Valid tokens) (setup : Setup σ T) (control : c.control = .enter item)
    (hfail : item.action c.ahead.terminal = .fail) :
    (∃ text, c.ahead.lexeme = .invalid text ∧
      c.refusal setup item = .lexical (.strayInput text c.ahead.position)) ∨
    c.ahead.terminal ∈ item.refused ∧
      c.refusal setup item = .grammar item.name c.ahead.terminal.describe setup.input := by
  obtain ⟨_, _, _, follow⟩ := h.viable_of_enter control
  unfold refusal
  split
  · next text hlexeme => exact .inl ⟨text, hlexeme, rfl⟩
  · next hlexeme =>
    have hinvalid : c.ahead.terminal ≠ .invalid := by
      intro hterminal
      cases hl : c.ahead.lexeme with
      | invalid text => exact hlexeme text hl
      | number | identifier | punctuation | finish =>
        rw [Token.terminal, hl] at hterminal
        cases hterminal
    exact .inr ⟨Item.mem_refused hfail hinvalid follow, rfl⟩

end Config.Valid

/-! ## Texts with the errors -/

/-- The start of a text by which an item that refuses something is entered. -/
def Item.approach : Item → Text
  | start => []
  | afterExpr | afterNumber => Text.ofString "1 "
  | unaryAfterOp s => [s.punctuation.unit]
  | binaryAfterOp op => Text.ofString "1" ++ [op.punctuation.unit]
  | afterBracket => Text.ofString "("
  | bracketAfterExpr => Text.ofString "(1 "
  | afterBracketExpr => Text.ofString "(1)"
  | afterIdent => Text.ofString "x "
  | assignAfterIdent => Text.ofString "x="
  | callAfterIdent => Text.ofString "f("
  | afterCall0 => Text.ofString "f()"
  | callAfterArg => Text.ofString "f(1 "
  | afterCall1 => Text.ofString "f(1)"
  | callAfterComma => Text.ofString "f(1,"
  | callAfterArg2 => Text.ofString "f(1,2 "
  | afterCall2 => Text.ofString "f(1,2)"
  | afterUnary _ | afterBinary _ | afterAssign => []

/-- A piece of text with the terminal. -/
def Terminal.sample : Terminal → Text
  | number => Text.ofString "1"
  | identifier => Text.ofString "x"
  | punctuation p => [p.unit]
  | finish => []
  | invalid => Text.ofString "?"

/-- A text in which the item refuses the terminal. -/
def Item.refusedText (item : Item) (t : Terminal) : Text := item.approach ++ t.sample

theorem Setup.run_refusedText {item : Item} {t : Terminal} (h : t ∈ item.refused) :
    let input := item.refusedText t
    (Setup.run ⟨int64, RandomSource.generator, input⟩ ⟨.empty, .seeded 1⟩).result
      = .error (.error (.grammar item.name t.describe input)) := by
  intro input
  refine of_descend (fun o => o.result = .error (.error (.grammar item.name t.describe input)))
    (2 * input.length + 2) (Nat.lt_succ_self _) ?_
  revert t
  cases item with
  | unaryAfterOp s => cases s <;> decide +kernel
  | binaryAfterOp op => cases op <;> decide +kernel
  | afterUnary _ | afterBinary _ | afterAssign => exact nofun
  | _ => decide +kernel

namespace Setup

/-- **Which grammar errors there are.** Where a run enters an item behind an operand, a terminal is
ahead that may follow one. Stray input is met only where an operand is expected or has just been
read. So signs, binary operations and assignments refuse nothing behind their last operand.

A token that a run refuses is stray input, or it is one that the item refuses, and the error names
the two. All grammar errors are such refusals, unless an operation of the type raises them. And each
of them comes up with integers. -/
theorem run_diagnoses (setup : Setup σ T) (store : Store σ T) :
    (∀ tokens c item, setup.Reaches store tokens c → c.control = .enter item →
      (item.beforeOperand?.isSome → c.ahead.terminal.isFollow = true) ∧
      (c.ahead.terminal = .invalid → item.afterOperand?.isSome ∨ item.endsOperand = true) ∧
      (item.refused = [] → item.action c.ahead.terminal ≠ .fail)) ∧
    (∀ tokens last e, setup.Refuses store tokens last e →
      (∃ text, last.lexeme = .invalid text ∧ e = .lexical (.strayInput text last.position)) ∨
      ∃ item, last.terminal ∈ Item.refused item ∧
        e = .grammar item.name last.terminal.describe setup.input) ∧
    (∀ state token input,
      (setup.run store).result = .error (.error (.grammar state token input)) →
      ∀ P, setup.type.Raises setup.generator P → setup.type.ReadRaises P →
        P (.error (.grammar state token input)) ∨
        ∃ item t, t ∈ Item.refused item ∧
          state = item.name ∧ token = t.describe ∧ input = setup.input) ∧
    ∀ item, ∀ t ∈ Item.refused item, ∃ input,
      (Setup.run ⟨int64, RandomSource.generator, input⟩ ⟨.empty, .seeded 1⟩).result
        = .error (.error (.grammar item.name t.describe input)) := by
  have hrefuses : ∀ tokens last e, setup.Refuses store tokens last e →
      (∃ text, last.lexeme = .invalid text ∧ e = .lexical (.strayInput text last.position)) ∨
      ∃ item, last.terminal ∈ Item.refused item ∧
        e = .grammar item.name last.terminal.describe setup.input := by
    rintro tokens last e ⟨c, item, hreaches, control, hfail, rfl, rfl⟩
    exact (hreaches.valid.refusal_eq setup control hfail).imp_right fun h => ⟨item, h⟩
  refine ⟨fun tokens c item hreaches control => ?_, hrefuses, ?_,
    fun item t ht => ⟨item.refusedText t, run_refusedText ht⟩⟩
  · exact hreaches.valid.ahead_of_enter control
  · intro state token input hresult P hP hliteral
    rcases raised_or_refuses hresult hP hliteral with h | hunknown | ⟨tokens, last, e, he, h⟩
    · exact .inl h
    · cases hunknown
    · cases he
      rcases hrefuses tokens last _ h with ⟨text, _, hlexical⟩ | ⟨item, hmem, hgrammar⟩
      · cases hlexical
      · cases hgrammar
        exact .inr ⟨item, _, hmem, rfl, rfl, rfl⟩

/-- A comma in a group, refused behind the operand. -/
theorem run_diagnoses_comma :
    let setup : Setup RandomSource Int :=
      ⟨int64, RandomSource.generator, Text.ofString "2 * (x = 1, 3)"⟩
    let error : Fault := .error (.grammar (Text.ofString "bracketAfterExpr")
      (Text.ofString "','") (Text.ofString "2 * (x = 1, 3)"))
    (setup.run ⟨.empty, .seeded 1⟩).result = .error error ∧
      ∃ item t, t ∈ Item.refused item ∧
        item.name = Text.ofString "bracketAfterExpr" ∧ t.describe = Text.ofString "','" := by
  intro setup error
  have hresult : (setup.run ⟨.empty, .seeded 1⟩).result = .error error :=
    of_descend (fun o => o.result = .error error) 40 (by decide) (by decide +kernel)
  have hraises : setup.type.Raises setup.generator fun f => ¬ f.IsRefusal := by
    refine (int64_raises _).mono fun f hf => ?_
    rcases hf with hf | hf <;> cases hf <;> exact nofun
  have hread : setup.type.ReadRaises fun f => ¬ f.IsRefusal := by
    intro text f hf
    obtain ⟨_, rfl | rfl⟩ := int64_readRaises text f hf <;> exact nofun
  obtain ⟨-, -, hgrammar, -⟩ := run_diagnoses setup ⟨.empty, .seeded 1⟩
  rcases hgrammar _ _ _ hresult _ hraises hread with h | ⟨item, t, ht, hname, hdescribe, _⟩
  · exact absurd (.grammar _ _ _) h
  · exact ⟨hresult, item, t, ht, hname.symm, hdescribe.symm⟩

end Setup

end Calculator
