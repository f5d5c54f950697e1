import Calculator.Proofs.Viable
import Calculator.Random.Source

/-!
# The automaton accepts its grammar

`Setup.run_accepts_sentences`: a sentence is never refused, and what has a value is a sentence.

Proof. What has a value is a sentence because the tokens that were read when a text is accepted form
a phrase (`Config.Valid.finish`). Conversely the recognizer follows the automaton
(`Viable.exists_follows`): it has the brackets open that the items tell (`Item.openedBy`). Where the
automaton refuses a terminal, the recognizer cannot read it (`Viable.step_eq_none`), and where it
refuses the end, the recognizer is not done (`Viable.not_done`). But the recognizer reads every
phrase.
-/

namespace Calculator

variable {σ T : Type}

/-- The tokens of the text up to its first end form a phrase. -/
def IsSentence (type : NumericType σ T) (input : Text) : Prop :=
  ∃ tokens last, (tokenize type input).tokens = tokens ++ [last] ∧ last.terminal = .finish ∧
    Phrase (tokens.map Token.terminal)

/-! ## Following the automaton -/

namespace Item

/-- The brackets that are open on a stack of items. -/
def openedBy : List Item → List Bracket
  | [] => []
  | afterBracket :: below => .group :: openedBy below
  | callAfterIdent :: below => .argument :: openedBy below
  | callAfterComma :: below => .second :: (openedBy below).tail
  | afterBracketExpr :: below | afterCall0 :: below | afterCall1 :: below | afterCall2 :: below =>
    (openedBy below).tail
  | _ :: below => openedBy below

/-- Where the recognizer can stand when an item is entered. -/
def positions : Item → List Position
  | start | unaryAfterOp _ | binaryAfterOp _ | afterBracket | assignAfterIdent
  | callAfterComma => [.operand]
  | callAfterIdent => [.arguments]
  | afterIdent => [.name]
  | afterNumber | afterBracketExpr | afterCall0 | afterCall1 | afterCall2 => [.behind]
  | afterExpr | afterUnary _ | afterBinary _ | bracketAfterExpr | afterAssign | callAfterArg
  | callAfterArg2 => [.name, .behind]

theorem positions_of_beforeOperand? {item : Item} (h : item.beforeOperand?.isSome) :
    item.positions = [.name, .behind] := by
  cases item with
  | afterExpr | afterUnary _ | afterBinary _ | bracketAfterExpr | afterAssign | callAfterArg
  | callAfterArg2 => rfl
  | _ => cases h

end Item

namespace Recognizer

/-- An operand has to follow. -/
def Expects (r : Recognizer) : Prop := r.position = .operand ∨ r.position = .arguments

theorem Expects.step_eq {r : Recognizer} {t : Terminal} (hr : r.Expects)
    (ht : t ≠ .punctuation .rightParen) : r.step t = begin r.opened t := by
  obtain ⟨position, opened⟩ := r
  rcases hr with h | h <;> cases h
  · rfl
  · exact if_neg ht

theorem Expects.run_phrase {r : Recognizer} {e : List Terminal} (hr : r.Expects)
    (he : Phrase e) : ∃ r', r.run e = some r' ∧ r'.Complete ∧ r'.opened = r.opened := by
  obtain ⟨position, opened⟩ := r
  rcases hr with h | h <;> cases h
  · exact Recognizer.run_phrase he opened
  · rw [run_arguments he]
    exact Recognizer.run_phrase he opened

/-- The recognizer stands where the automaton does in an item, on the items below. -/
structure Follows (r : Recognizer) (item : Item) (below : List Item) : Prop where
  position : r.position ∈ item.positions
  opened : r.opened = Item.openedBy (item :: below)

variable {r : Recognizer} {item place : Item} {below : List Item}

theorem Follows.expects (h : r.Follows place below) (hp : place.afterOperand?.isSome) :
    r.Expects := by
  have hposition := h.position
  cases place with
  | start | unaryAfterOp _ | binaryAfterOp _ | afterBracket | assignAfterIdent
  | callAfterComma => exact .inl (List.mem_singleton.1 hposition)
  | callAfterIdent => exact .inr (List.mem_singleton.1 hposition)
  | _ => cases hp

theorem Follows.complete (h : r.Follows item below) (hi : item.beforeOperand?.isSome) :
    r.Complete := by
  have hposition := h.position
  rw [Item.positions_of_beforeOperand? hi] at hposition
  show r.position = .name ∨ r.position = .behind
  simpa using hposition

end Recognizer

/-! ## Reading what the automaton reads -/

namespace Viable

variable {below : List Item} {operands : List (Operand T)} {tokens : List (Token T)}

/-- The recognizer reads what an item reads, and stands where the next item is entered. -/
theorem exists_step {r : Recognizer} {item next : Item} {t : Terminal}
    (h : Viable (item :: below) operands tokens) (hr : r.Follows item below)
    (hshift : item.Shift t next) :
    ∃ r', r.step t = some r' ∧ r'.Follows next (item :: below) := by
  have hopened := hr.opened
  cases hshift with
  | number expects =>
    refine ⟨⟨.behind, r.opened⟩, (hr.expects expects).step_eq nofun, .head _, hopened⟩
  | identifier expects =>
    refine ⟨⟨.name, r.opened⟩, (hr.expects expects).step_eq nofun, .head _, hopened⟩
  | sign s expects =>
    refine ⟨⟨.operand, r.opened⟩, ?_, .head _, hopened⟩
    rw [(hr.expects expects).step_eq (by cases s <;> decide)]
    cases s <;> rfl
  | bracket expects =>
    refine ⟨⟨.operand, .group :: r.opened⟩, (hr.expects expects).step_eq nofun, .head _, ?_⟩
    exact congrArg (Bracket.group :: ·) hopened
  | operator op before =>
    have hcomplete := hr.complete (by rw [before]; rfl)
    exact ⟨⟨.operand, r.opened⟩, hcomplete.step_operator op, .head _, hopened⟩
  | closeBracket =>
    obtain ⟨outer, _, _, _, _, rfl, _⟩ := h.of_operand rfl
    exact ⟨⟨.behind, Item.openedBy outer⟩, (hr.complete rfl).step_rightParen hopened, .head _, rfl⟩
  | equals =>
    obtain ⟨position, opened⟩ := r
    cases List.mem_singleton.1 hr.position
    exact ⟨⟨.operand, opened⟩, rfl, .head _, hopened⟩
  | openCall =>
    obtain ⟨position, opened⟩ := r
    cases List.mem_singleton.1 hr.position
    refine ⟨⟨.arguments, .argument :: opened⟩, rfl, .head _, ?_⟩
    exact congrArg (Bracket.argument :: ·) hopened
  | closeCall0 =>
    obtain ⟨position, opened⟩ := r
    cases List.mem_singleton.1 hr.position
    exact ⟨⟨.behind, opened.tail⟩, rfl, .head _, congrArg List.tail hopened⟩
  | closeCall1 =>
    obtain ⟨outer, _, _, _, _, rfl, _⟩ := h.of_operand rfl
    exact ⟨⟨.behind, Item.openedBy outer⟩, (hr.complete rfl).step_rightParen hopened, .head _, rfl⟩
  | comma =>
    obtain ⟨outer, _, _, _, _, rfl, _⟩ := h.of_operand rfl
    exact ⟨⟨.operand, .second :: Item.openedBy outer⟩, (hr.complete rfl).step_comma hopened,
      .head _, rfl⟩
  | closeCall2 =>
    obtain ⟨outer, _, _, _, _, rfl, _⟩ := h.of_operand rfl
    exact ⟨⟨.behind, (Item.openedBy outer).tail⟩, (hr.complete rfl).step_rightParen hopened,
      .head _, rfl⟩

/-- Moving the point over an operand opens and closes no bracket. -/
theorem openedBy_of_beforeOperand? {next place : Item} (before : next.beforeOperand? = some place)
    (items : List Item) : Item.openedBy (next :: items) = Item.openedBy items := by
  cases next <;> first | rfl | cases before

/-- **The recognizer follows the automaton.** -/
theorem exists_follows {item : Item} (h : Viable (item :: below) operands tokens) :
    ∃ r, Recognizer.run ⟨.operand, []⟩ (tokens.map Token.terminal) = some r ∧
      r.Follows item below := by
  generalize hitems : item :: below = items at h
  induction h generalizing item below with
  | start =>
    cases hitems
    exact ⟨⟨.operand, []⟩, rfl, .head _, rfl⟩
  | shift t hviable hshift ih =>
    cases hitems
    obtain ⟨r, hrun, hr⟩ := ih rfl
    obtain ⟨r', hstep, hr'⟩ := hviable.exists_step hr hshift
    refine ⟨r', ?_, hr'⟩
    rw [List.map_append, Recognizer.run_append, hrun]
    exact Recognizer.run_cons_of_step hstep []
  | @operand place next below' _ _ e a hviable before he ih =>
    cases hitems
    obtain ⟨r, hrun, hr⟩ := ih rfl
    have expects := Item.isSome_afterOperand? before
    obtain ⟨r', hrun', hr', hopened⟩ := (hr.expects expects).run_phrase he
    refine ⟨r', ?_, ?_, ?_⟩
    · rw [List.map_append, Recognizer.run_append, hrun]
      exact hrun'
    · rw [Item.positions_of_beforeOperand? (by rw [before]; rfl)]
      simpa [Recognizer.Complete] using hr'
    · rw [hopened, hr.opened, openedBy_of_beforeOperand? before]

end Viable

/-! ## What the automaton refuses -/

namespace Terminal

variable {t : Terminal}

theorem eq_of_isFollow (h : t.isFollow = true) (hop : t.binaryOp? = none) (ht : t ≠ .finish) :
    t = .punctuation .rightParen ∨ t = .punctuation .comma := by
  unfold isFollow at h
  split at h
  · exact absurd rfl ht
  · exact .inl rfl
  · exact .inr rfl
  · rw [hop] at h
    cases h

end Terminal

namespace Item

variable {t : Terminal}

theorem isFollow_of_completeAction {p : Production} (h : completeAction p t = .fail) :
    t.isFollow = false := by
  unfold completeAction at h
  split at h
  · cases h
  · next hf => exact Bool.eq_false_iff.2 hf

theorem isFollow_of_tightAction {pending : Pending} {p : Production}
    (h : tightAction pending p t = .fail) : t.isFollow = false := by
  unfold tightAction at h
  split at h
  · split at h
    · cases h
    · exact isFollow_of_completeAction h
  · exact isFollow_of_completeAction h

theorem of_looseAction_fail {otherwise : Terminal → Action} (h : looseAction otherwise t = .fail) :
    t.binaryOp? = none ∧ otherwise t = .fail := by
  unfold looseAction at h
  split at h
  · cases h
  · next hop => exact ⟨hop, h⟩

theorem eq_of_looseAction_fail {otherwise : Terminal → Action} (h : looseAction otherwise t = .fail)
    (hf : t.isFollow = true) (ht : t ≠ .finish) :
    t = .punctuation .rightParen ∨ t = .punctuation .comma := by
  obtain ⟨hop, _⟩ := of_looseAction_fail h
  exact Terminal.eq_of_isFollow hf hop ht

end Item

namespace Recognizer

variable {t : Terminal}

theorem begin_eq_none (h : Item.operandAction t = .fail) (opened : List Bracket) :
    begin opened t = none := by
  cases t with
  | punctuation p => cases p <;> first | rfl | cases h
  | number => cases h
  | identifier => cases h
  | finish => rfl
  | invalid => rfl

theorem extend_eq_none (h : t.isFollow = false) (opened : List Bracket) :
    extend opened t = none := by
  cases t with
  | punctuation p => cases p <;> first | rfl | cases h
  | finish => rfl
  | number => rfl
  | identifier => rfl
  | invalid => rfl

theorem Complete.step_eq_of_isFollow {r : Recognizer} (hr : r.Complete) (h : t.isFollow = true) :
    r.step t = extend r.opened t := by
  refine hr.step_eq ?_ ?_
  · rintro rfl
    cases h
  · rintro rfl
    cases h

end Recognizer

namespace Viable

variable {below : List Item} {operands : List (Operand T)} {tokens : List (Token T)}
  {r : Recognizer} {item : Item} {t : Terminal}

/-- What the automaton refuses, the recognizer cannot read. -/
theorem step_eq_none (h : Viable (item :: below) operands tokens) (hr : r.Follows item below)
    (hfollow : item.beforeOperand?.isSome → t.isFollow = true) (ht : t ≠ .finish)
    (hfail : item.action t = .fail) : r.step t = none := by
  have hopened := hr.opened
  cases item with
  | start | unaryAfterOp _ | binaryAfterOp _ | afterBracket | assignAfterIdent
  | callAfterComma =>
    obtain ⟨position, opened⟩ := r
    cases List.mem_singleton.1 hr.position
    exact Recognizer.begin_eq_none hfail opened
  | callAfterIdent =>
    obtain ⟨position, opened⟩ := r
    cases List.mem_singleton.1 hr.position
    have hparen : t ≠ .punctuation .rightParen := by
      rintro rfl
      cases hfail
    rw [Item.action_callAfterIdent hparen] at hfail
    exact (if_neg hparen).trans (Recognizer.begin_eq_none hfail opened)
  | afterIdent =>
    obtain ⟨position, opened⟩ := r
    cases List.mem_singleton.1 hr.position
    have hequals : t ≠ .punctuation .equals := by
      rintro rfl
      cases hfail
    have hparen : t ≠ .punctuation .leftParen := by
      rintro rfl
      cases hfail
    rw [Item.action_afterIdent hequals hparen] at hfail
    refine (if_neg hequals).trans ((if_neg hparen).trans ?_)
    exact Recognizer.extend_eq_none (Item.isFollow_of_completeAction hfail) opened
  | afterNumber | afterBracketExpr | afterCall0 | afterCall1 | afterCall2 =>
    obtain ⟨position, opened⟩ := r
    cases List.mem_singleton.1 hr.position
    exact Recognizer.extend_eq_none (Item.isFollow_of_completeAction hfail) opened
  | afterUnary _ | afterBinary _ =>
    have hnot := Item.isFollow_of_tightAction hfail
    rw [hfollow rfl] at hnot
    cases hnot
  | afterAssign =>
    have hnot := Item.isFollow_of_completeAction (Item.of_looseAction_fail hfail).2
    rw [hfollow rfl] at hnot
    cases hnot
  | afterExpr =>
    obtain ⟨outer, _, _, _, _, rfl, _, _, _, hstart⟩ := h.of_operand rfl
    rw [hstart.eq_nil_of_start] at hopened
    rw [(hr.complete rfl).step_eq_of_isFollow (hfollow rfl), hopened]
    rw [Item.action] at hfail
    rcases Item.eq_of_looseAction_fail hfail (hfollow rfl) ht with rfl | rfl <;> rfl
  | bracketAfterExpr | callAfterArg2 =>
    obtain ⟨outer, _, _, _, _, rfl, _⟩ := h.of_operand rfl
    rw [(hr.complete rfl).step_eq_of_isFollow (hfollow rfl), hopened]
    rw [Item.action] at hfail
    rcases Item.eq_of_looseAction_fail hfail (hfollow rfl) ht with rfl | rfl
    · cases hfail
    · rfl
  | callAfterArg =>
    rw [Item.action] at hfail
    rcases Item.eq_of_looseAction_fail hfail (hfollow rfl) ht with rfl | rfl
    · cases hfail
    · cases hfail

/-- Where the automaton refuses the end, the recognizer is not done. -/
theorem not_done (h : Viable (item :: below) operands tokens) (hr : r.Follows item below)
    (hfail : item.action .finish = .fail) (hcomplete : r.Complete) : r.opened ≠ [] := by
  rw [hr.opened]
  cases item with
  | start | unaryAfterOp _ | binaryAfterOp _ | afterBracket | assignAfterIdent
  | callAfterComma | callAfterIdent =>
    have hposition := List.mem_singleton.1 hr.position
    rcases hcomplete with h | h <;> rw [h] at hposition <;> cases hposition
  | bracketAfterExpr | callAfterArg | callAfterArg2 =>
    obtain ⟨outer, _, _, _, _, rfl, _⟩ := h.of_operand rfl
    exact nofun
  | _ => cases hfail

end Viable

/-! ## Sentences -/

theorem Cursor.Ends.exists_token {type : NumericType σ T} {c : Cursor} {ts : List (Token T)}
    (h : c.Ends type ts) : ∃ t, (c.next type).token = .ok t := by
  cases ts with
  | nil =>
    obtain ⟨t, hread, _⟩ := h
    exact ⟨t, hread⟩
  | cons t ts => exact ⟨t, h.1⟩

namespace Config.Valid

variable {setup : Setup σ T} {c : Config σ T} {tokens rest : List (Token T)} {item : Item}

/-- With a terminal behind it that the automaton refuses, what it has read starts no phrase; and
where it refuses the end, what it has read is none. -/
theorem not_phrase_of_fail (h : c.Valid tokens) (control : c.control = .enter item)
    (hfail : item.action c.ahead.terminal = .fail) :
    (c.ahead.terminal ≠ .finish →
      ∀ rest, ¬ Phrase (tokens.map Token.terminal ++ c.ahead.terminal :: rest)) ∧
    (c.ahead.terminal = .finish → ¬ Phrase (tokens.map Token.terminal)) := by
  obtain ⟨_, _, viable, follow⟩ := h.viable_of_enter control
  obtain ⟨r, hrun, hr⟩ := viable.exists_follows
  refine ⟨fun hfinish rest phrase => ?_, fun hfinish phrase => ?_⟩
  · obtain ⟨r', hrun', _⟩ := Recognizer.run_phrase phrase []
    rw [Recognizer.run_append, hrun, Option.bind_some, Recognizer.run,
      viable.step_eq_none hr follow hfinish hfail] at hrun'
    cases hrun'
  · obtain ⟨r', hrun', hcomplete, hopened⟩ := Recognizer.run_phrase phrase []
    rw [hrun] at hrun'
    cases hrun'
    rw [hfinish] at hfail
    exact viable.not_done hr hfail hcomplete hopened

/-- No item refuses what is ahead in a phrase. -/
theorem action_ne_fail (h : c.Valid tokens) (control : c.control = .enter item)
    (hfaces : c.Faces setup rest) (phrase : Phrase ((tokens ++ rest).map Token.terminal)) :
    item.action c.ahead.terminal ≠ .fail := by
  intro hfail
  obtain ⟨hnext, hfinish⟩ := h.not_phrase_of_fail control hfail
  cases rest with
  | nil =>
    rw [List.append_nil] at phrase
    exact hfinish hfaces phrase
  | cons t rest =>
    obtain ⟨rfl, hlast, _⟩ := hfaces
    rw [List.map_append, List.map_cons] at phrase
    refine hnext (fun ht => ?_) _ phrase
    rw [Token.isLast, ht] at hlast
    cases hlast

/-- Behind what is read there is a token. -/
theorem exists_token (hfaces : c.Faces setup rest) {next : Item}
    (action : item.action c.ahead.terminal = .shift next) :
    ∃ t, (c.cursor.next setup.type).token = .ok t := by
  cases rest with
  | nil => exact absurd (hfaces ▸ action) (Item.action_finish_ne_shift item next)
  | cons t rest => exact hfaces.2.2.exists_token

/-- How a run ends that faces the rest of a phrase. -/
theorem result_of_phrase (h : c.Valid tokens) {P : Fault → Prop}
    (hP : setup.type.Raises setup.generator P) (hfaces : c.Faces setup rest)
    (phrase : Phrase ((tokens ++ rest).map Token.terminal)) {o : Outcome σ T}
    (hhalt : c.Halt setup o) :
    (∃ a, o.result = .ok a) ∨ ∃ f, o.result = .error f ∧ (f.IsSemantic ∨ P f) := by
  cases hhalt with
  | unreadable control action read =>
    obtain ⟨t, ht⟩ := exists_token hfaces action
    rw [ht] at read
    cases read
  | @failed item p f store control action evaluate =>
    refine .inr ⟨f, rfl, ?_⟩
    rcases h.raises_of_reduce hP control action evaluate with hraised | hunknown
    · exact .inr hraised
    · exact .inl hunknown.isSemantic
  | refused control action => exact absurd action (h.action_ne_fail control hfaces phrase)
  | finished control frames => exact .inl (h.finish setup control frames).1

/-- A run that ends with a value has read a phrase and has come to the end. -/
theorem phrase_of_result (h : c.Valid tokens) {o : Outcome σ T} (hhalt : c.Halt setup o) {a : T}
    (ha : o.result = .ok a) :
    Phrase (tokens.map Token.terminal) ∧ c.ahead.terminal = .finish := by
  cases hhalt with
  | unreadable => cases ha
  | failed => cases ha
  | refused => cases ha
  | finished control frames => exact (h.finish setup control frames).2

end Config.Valid

theorem isSentence_iff_ends {type : NumericType σ T} {input : Text} :
    IsSentence type input ↔
      ∃ tokens, (Cursor.start input).Ends type tokens ∧ Phrase (tokens.map Token.terminal) := by
  constructor
  · rintro ⟨tokens, last, htokens, hlast, phrase⟩
    exact ⟨tokens, Cursor.ends_iff_tokenize.2 ⟨last, htokens, hlast⟩, phrase⟩
  · rintro ⟨tokens, hends, phrase⟩
    obtain ⟨last, htokens, hlast⟩ := Cursor.ends_iff_tokenize.1 hends
    exact ⟨tokens, last, htokens, hlast, phrase⟩

namespace Setup

/-- A run that ends with a value has read a phrase up to the end. -/
theorem exists_ends_of_ok {setup : Setup σ T} {store : Store σ T} {a : T}
    (ha : (setup.run store).result = .ok a) :
    ∃ read, (Cursor.start setup.input).Ends setup.type read ∧
      Phrase (read.map Token.terminal) := by
  rcases exists_halt_of_run setup store with ⟨f, _, hresult⟩ | ⟨read, c, hreaches, hhalt⟩
  · rw [hresult] at ha
    cases ha
  · obtain ⟨phrase, hfinish⟩ := hreaches.valid.phrase_of_result hhalt ha
    exact ⟨read, (hreaches.ends_iff read).2 ⟨[], (List.append_nil read).symm, hfinish⟩, phrase⟩

/-- **The automaton accepts its grammar.** If the operations of the type fail only with faults in
`P`, a sentence has a value, or it fails with a semantic error or a fault in `P`: it is refused
neither by the grammar nor in reading. And what has a value is a sentence. Floats raise no fault,
and integers no more than evaluation errors and the failures of their random source. -/
theorem run_accepts_sentences :
    (∀ (g : Generator σ) (P : Fault → Prop), (float64 : NumericType σ Float).Raises g P) ∧
    (∀ g : Generator σ, (int64 : NumericType σ Int).Raises g
      fun f => f.IsArithmetic ∨ f.IsSourceFailure) ∧
    ∀ (setup : Setup σ T) (store : Store σ T),
      (∀ P, setup.type.Raises setup.generator P → IsSentence setup.type setup.input →
        (∃ a, (setup.run store).result = .ok a) ∨
          ∃ f, (setup.run store).result = .error f ∧ (f.IsSemantic ∨ P f)) ∧
      ∀ a, (setup.run store).result = .ok a → IsSentence setup.type setup.input := by
  refine ⟨float64_raises, int64_raises, fun setup store => ⟨?_, ?_⟩⟩
  · intro P hP hsentence
    obtain ⟨tokens, hends, phrase⟩ := isSentence_iff_ends.1 hsentence
    rcases exists_halt_of_run setup store with ⟨f, hread, _⟩ | ⟨read, c, hreaches, hhalt⟩
    · obtain ⟨t, ht⟩ := hends.exists_token
      rw [ht] at hread
      cases hread
    · obtain ⟨rest, rfl, hfaces⟩ := (hreaches.ends_iff tokens).1 hends
      exact hreaches.valid.result_of_phrase hP hfaces phrase hhalt
  · intro a ha
    obtain ⟨read, hends, phrase⟩ := exists_ends_of_ok ha
    exact isSentence_iff_ends.2 ⟨read, hends, phrase⟩

/-- A sign and a variable, over integers. -/
theorem run_accepts_negated_variable :
    IsSentence (int64 : NumericType RandomSource Int) (Text.ofString "-x") ∧
    ((∃ a, (Setup.run ⟨int64, RandomSource.generator, Text.ofString "-x"⟩
        ⟨.empty, .seeded 1⟩).result = .ok a) ∨
      ∃ f, (Setup.run ⟨int64, RandomSource.generator, Text.ofString "-x"⟩
        ⟨.empty, .seeded 1⟩).result = .error f ∧
          (f.IsSemantic ∨ f.IsArithmetic ∨ f.IsSourceFailure)) := by
  have hsentence : IsSentence (int64 : NumericType RandomSource Int) (Text.ofString "-x") :=
    ⟨[⟨.punctuation .minus, 0⟩, ⟨.identifier (Text.ofString "x"), 1⟩], ⟨.finish, 2⟩, rfl, rfl,
      .sign .minus .identifier⟩
  exact ⟨hsentence, (run_accepts_sentences.2.2 _ _).1 _ (int64_raises _) hsentence⟩

end Setup

end Calculator
