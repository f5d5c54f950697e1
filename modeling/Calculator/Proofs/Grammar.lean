import Calculator.Automaton.Item

/-!
# The grammar and a recognizer for it

`Phrase` is the language of the grammar of `E` without regard to precedence. A `Recognizer` reads it
from left to right; it knows only whether an operand is expected and which brackets are open.

* `Phrase`: the sequences of terminals that `E` derives.
* `Recognizer.step`: how the recognizer reads one terminal.
* `Recognizer.run_phrase`: the recognizer reads every phrase, within any open brackets.

The grammar is ambiguous and the recognizer is deterministic: a phrase of several derivations is
read in one way.
-/

namespace Calculator

/-! ## The grammar -/

/-- The sequences of terminals that the grammar derives from `E`. -/
inductive Phrase : List Terminal → Prop
  | number : Phrase [.number]
  | identifier : Phrase [.identifier]
  | sign (s : Sign) {e : List Terminal} : Phrase e → Phrase (.punctuation s.punctuation :: e)
  | binary (op : BinaryOp) {l r : List Terminal} :
    Phrase l → Phrase r → Phrase (l ++ .punctuation op.punctuation :: r)
  | bracket {e : List Terminal} :
    Phrase e → Phrase (.punctuation .leftParen :: e ++ [.punctuation .rightParen])
  | assign {e : List Terminal} : Phrase e → Phrase (.identifier :: .punctuation .equals :: e)
  | call0 : Phrase [.identifier, .punctuation .leftParen, .punctuation .rightParen]
  | call1 {e : List Terminal} :
    Phrase e →
      Phrase (.identifier :: .punctuation .leftParen :: e ++ [.punctuation .rightParen])
  | call2 {l r : List Terminal} :
    Phrase l → Phrase r →
      Phrase (.identifier :: .punctuation .leftParen :: l ++ .punctuation .comma :: r ++
        [.punctuation .rightParen])

/-- No phrase starts with a closing parenthesis. -/
theorem Phrase.exists_cons {e : List Terminal} (h : Phrase e) :
    ∃ t rest, e = t :: rest ∧ t ≠ .punctuation .rightParen := by
  induction h with
  | sign s _ _ => exact ⟨_, _, rfl, by cases s <;> decide⟩
  | binary op _ _ ihl _ =>
    obtain ⟨t, rest, rfl, ht⟩ := ihl
    exact ⟨t, _, rfl, ht⟩
  | _ => exact ⟨_, _, rfl, by decide⟩

/-! ## The recognizer -/

/-- What is open and has to be closed. -/
inductive Bracket
  | group
  /-- A call whose first argument is being read. -/
  | argument
  /-- A call whose second argument is being read. -/
  | second
  deriving DecidableEq, Repr

/-- Where in a phrase a reader stands. -/
inductive Position
  | operand
  /-- Behind the opening parenthesis of a call. -/
  | arguments
  /-- Behind an identifier. -/
  | name
  /-- Behind any other operand. -/
  | behind
  deriving DecidableEq, Repr

/-- A reader of phrases. -/
structure Recognizer where
  position : Position
  /-- The open brackets, innermost first. -/
  opened : List Bracket
  deriving DecidableEq, Repr

namespace Recognizer

/-- Reads a terminal where an operand is expected. -/
def begin (opened : List Bracket) : Terminal → Option Recognizer
  | .number => some ⟨.behind, opened⟩
  | .identifier => some ⟨.name, opened⟩
  | .punctuation .plus | .punctuation .minus => some ⟨.operand, opened⟩
  | .punctuation .leftParen => some ⟨.operand, .group :: opened⟩
  | _ => none

/-- Reads a terminal behind an operand. -/
def extend (opened : List Bracket) (t : Terminal) : Option Recognizer :=
  match t.binaryOp?, t, opened with
  | some _, _, _ => some ⟨.operand, opened⟩
  | none, .punctuation .rightParen, _ :: outer => some ⟨.behind, outer⟩
  | none, .punctuation .comma, .argument :: outer => some ⟨.operand, .second :: outer⟩
  | _, _, _ => none

/-- Reads a terminal. -/
def step (r : Recognizer) (t : Terminal) : Option Recognizer :=
  match r.position with
  | .operand => begin r.opened t
  | .arguments =>
    if t = .punctuation .rightParen then some ⟨.behind, r.opened.tail⟩ else begin r.opened t
  | .name =>
    if t = .punctuation .equals then some ⟨.operand, r.opened⟩
    else if t = .punctuation .leftParen then some ⟨.arguments, .argument :: r.opened⟩
    else extend r.opened t
  | .behind => extend r.opened t

/-- Reads terminals one after the other. -/
def run (r : Recognizer) : List Terminal → Option Recognizer
  | [] => some r
  | t :: ts => (r.step t).bind (run · ts)

/-- Whether an operand has just been read. -/
def Complete (r : Recognizer) : Prop := r.position = .name ∨ r.position = .behind

theorem run_append (r : Recognizer) (ts us : List Terminal) :
    r.run (ts ++ us) = (r.run ts).bind (run · us) := by
  induction ts generalizing r with
  | nil => rfl
  | cons t ts ih =>
    rw [List.cons_append, run, run, Option.bind_assoc]
    exact congrArg (Option.bind _) (funext ih)

theorem run_cons_of_step {r r' : Recognizer} {t : Terminal} (h : r.step t = some r')
    (ts : List Terminal) : r.run (t :: ts) = r'.run ts := by
  rw [run, h, Option.bind_some]

/-- Terminals that extend an operand are read alike behind any operand. -/
theorem Complete.step_eq {r : Recognizer} {t : Terminal} (hr : r.Complete)
    (h₁ : t ≠ .punctuation .equals) (h₂ : t ≠ .punctuation .leftParen) :
    r.step t = extend r.opened t := by
  obtain ⟨position, opened⟩ := r
  rcases hr with h | h <;> cases h
  · exact (if_neg h₁).trans (if_neg h₂)
  · rfl

theorem Complete.step_operator {r : Recognizer} (hr : r.Complete) (op : BinaryOp) :
    r.step (.punctuation op.punctuation) = some ⟨.operand, r.opened⟩ := by
  rw [hr.step_eq (by cases op <;> decide) (by cases op <;> decide)]
  cases op <;> rfl

theorem Complete.step_rightParen {r : Recognizer} {b : Bracket} {outer : List Bracket}
    (hr : r.Complete) (ho : r.opened = b :: outer) :
    r.step (.punctuation .rightParen) = some ⟨.behind, outer⟩ := by
  rw [hr.step_eq (by decide) (by decide), ho]
  rfl

theorem Complete.step_comma {r : Recognizer} {outer : List Bracket}
    (hr : r.Complete) (ho : r.opened = .argument :: outer) :
    r.step (.punctuation .comma) = some ⟨.operand, .second :: outer⟩ := by
  rw [hr.step_eq (by decide) (by decide), ho]
  rfl

/-- The first argument of a call is read like any other operand. -/
theorem run_arguments {e : List Terminal} (h : Phrase e) (opened : List Bracket) :
    run ⟨.arguments, opened⟩ e = run ⟨.operand, opened⟩ e := by
  obtain ⟨t, rest, rfl, ht⟩ := h.exists_cons
  exact congrArg (Option.bind · (run · rest)) (if_neg ht)

/-- **The recognizer reads every phrase.** It ends behind an operand, with the brackets open that
were open before. -/
theorem run_phrase {e : List Terminal} (h : Phrase e) (opened : List Bracket) :
    ∃ r, run ⟨.operand, opened⟩ e = some r ∧ r.Complete ∧ r.opened = opened := by
  induction h generalizing opened with
  | number => exact ⟨⟨.behind, opened⟩, rfl, .inr rfl, rfl⟩
  | identifier => exact ⟨⟨.name, opened⟩, rfl, .inl rfl, rfl⟩
  | sign s _ ih =>
    have hstep : step ⟨.operand, opened⟩ (.punctuation s.punctuation)
        = some ⟨.operand, opened⟩ := by
      cases s <;> rfl
    rw [run_cons_of_step hstep]
    exact ih opened
  | binary op _ _ ihl ihr =>
    obtain ⟨r, hrun, hr, ho⟩ := ihl opened
    rw [run_append, hrun, Option.bind_some, run_cons_of_step (hr.step_operator op), ho]
    exact ihr opened
  | bracket _ ih =>
    obtain ⟨r, hrun, hr, ho⟩ := ih (.group :: opened)
    refine ⟨⟨.behind, opened⟩, ?_, .inr rfl, rfl⟩
    change run ⟨.operand, .group :: opened⟩ (_ ++ _) = _
    rw [run_append, hrun]
    exact run_cons_of_step (hr.step_rightParen ho) []
  | assign _ ih => exact ih opened
  | call0 => exact ⟨⟨.behind, opened⟩, rfl, .inr rfl, rfl⟩
  | call1 he ih =>
    obtain ⟨r, hrun, hr, ho⟩ := ih (.argument :: opened)
    refine ⟨⟨.behind, opened⟩, ?_, .inr rfl, rfl⟩
    change run ⟨.arguments, .argument :: opened⟩ (_ ++ _) = _
    rw [run_append, run_arguments he, hrun]
    exact run_cons_of_step (hr.step_rightParen ho) []
  | @call2 l r hl _ ihl ihr =>
    obtain ⟨r₁, hrun₁, hr₁, ho₁⟩ := ihl (.argument :: opened)
    obtain ⟨r₂, hrun₂, hr₂, ho₂⟩ := ihr (.second :: opened)
    refine ⟨⟨.behind, opened⟩, ?_, .inr rfl, rfl⟩
    change run ⟨.arguments, .argument :: opened⟩ (l ++ .punctuation .comma :: r ++ _) = _
    rw [run_append, run_append, run_arguments hl, hrun₁, Option.bind_some,
      run_cons_of_step (hr₁.step_comma ho₁), hrun₂]
    exact run_cons_of_step (hr₂.step_rightParen ho₂) []

end Recognizer

end Calculator
