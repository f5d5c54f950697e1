import Calculator.Automaton.Config

/-!
# Running the automaton

Every transition reads a token, or else lowers a weight that depends on the number of items that
have not been left. So each run ends.

* `Cursor.rest_length_next`: reading a token shortens the input unless that is at its end.
* `Config.step_descends`: each transition lowers the measure.
* `Config.run`: transitions up to the end of the run.
* `Setup.run`: the evaluation of a whole text.
-/

namespace Calculator

variable {σ T : Type}

/-! ## Reading shortens the input -/

namespace Cursor

theorem rest_length_advance (c : Cursor) (n : Nat) :
    (c.advance n).rest.length = c.rest.length - n := by
  simp [advance]

theorem rest_length_skipBlanks_le (c : Cursor) : c.skipBlanks.rest.length ≤ c.rest.length := by
  simp [skipBlanks, advance]

theorem rest_length_munch_lt (type : NumericType σ T) (c : Cursor) (h : c.rest ≠ []) :
    (c.munch type).cursor.rest.length < c.rest.length := by
  have hpos : 0 < c.rest.length := List.length_pos_iff.2 h
  unfold munch
  dsimp only
  split
  · next heq _ =>
    rw [heq]
    simp only [rest_length_advance, List.length_cons]
    omega
  · simp only [rest_length_advance]
    omega

/-- Reading a token shortens the input, or finds the end of the input. -/
theorem rest_length_next (type : NumericType σ T) (c : Cursor) :
    (c.next type).cursor.rest.length < c.rest.length ∨
      (c.next type).cursor.rest = [] ∧
        (c.next type).token = .ok ⟨.finish, (c.next type).cursor.position⟩ := by
  have hle := rest_length_skipBlanks_le c
  unfold next
  dsimp only
  split
  · next h => exact .inr ⟨h, rfl⟩
  · next u rest h =>
    left
    have hne : c.skipBlanks.rest ≠ [] := by simp [h]
    have hpos : 0 < c.skipBlanks.rest.length := List.length_pos_iff.2 hne
    split
    · simp only [rest_length_advance]
      omega
    · exact Nat.lt_of_lt_of_le (rest_length_munch_lt type c.skipBlanks hne) hle

/-- A token that others may follow takes up some of the input. -/
theorem rest_length_next_lt {type : NumericType σ T} {c : Cursor} {t : Token T}
    (hread : (c.next type).token = .ok t) (hlast : t.isLast = false) :
    (c.next type).cursor.rest.length < c.rest.length := by
  rcases rest_length_next type c with hlt | ⟨_, hfinish⟩
  · exact hlt
  · rw [hread] at hfinish
    cases hfinish
    cases hlast

end Cursor

/-! ## The measure of a run -/

namespace Config

/-- Bounds how many tokens can still be read: the input left over, and the token ahead unless that
is an end. -/
def unread (c : Config σ T) : Nat :=
  2 * c.cursor.rest.length + if c.ahead.terminal = .finish then 0 else 1

/-- Falls with each transition that reads no token. -/
def weight (c : Config σ T) : Nat :=
  3 * c.frames.length +
    match c.control with
    | .enter item => if item.isSingle then 3 else 1
    | .resume => if c.unwind = 0 ∧ c.accepted = false then 2 else 0

/-- The order in which transitions descend. -/
def Descends (c' c : Config σ T) : Prop :=
  Prod.Lex (· < ·) (· < ·) (c'.unread, c'.weight) (c.unread, c.weight)

theorem descends_wf : WellFounded (Descends (σ := σ) (T := T)) :=
  InvImage.wf (fun c : Config σ T => (c.unread, c.weight))
    (Prod.lex ⟨(· < ·), Nat.lt_wfRel.wf⟩ ⟨(· < ·), Nat.lt_wfRel.wf⟩).wf

theorem descends_of_unread {c' c : Config σ T} (h : c'.unread < c.unread) : Descends c' c :=
  .left _ _ h

theorem descends_of_weight {c' c : Config σ T} (h : c'.unread = c.unread)
    (hw : c'.weight < c.weight) : Descends c' c := by
  unfold Descends
  rw [h]
  exact .right _ hw

theorem unread_lt_of_fetch {setup : Setup σ T} {c c' : Config σ T}
    (h : c.fetch setup = .next c') (hf : c.ahead.terminal ≠ .finish) : c'.unread < c.unread := by
  have hlen := Cursor.rest_length_next setup.type c.cursor
  unfold fetch at h
  dsimp only at h
  split at h
  · cases h
  · next token htok =>
    cases h
    simp only [unread, if_neg hf]
    rcases hlen with hlt | ⟨hnil, htoken⟩
    · split <;> omega
    · rw [htok] at htoken
      cases htoken
      simp [hnil, Token.terminal, Lexeme.terminal]

theorem enter_descends {setup : Setup σ T} {c c' : Config σ T} {item : Item}
    (hc : c.control = .enter item) (h : c.enter setup item = .next c') : Descends c' c := by
  unfold enter at h
  split at h
  · next next ha =>
    refine descends_of_unread (unread_lt_of_fetch (c := { c with
      control := .enter next, frames := item :: c.frames, operands := c.pushAhead }) h ?_)
    intro hf
    exact Item.action_finish_ne_shift item next (hf ▸ ha)
  · next p ha =>
    unfold reduce at h
    dsimp only at h
    split at h
    · cases h
    · cases h
      refine descends_of_weight rfl ?_
      cases hs : item.isSingle with
      | true => simp only [weight, hc, hs]; split <;> simp
      | false =>
        have hp := Item.one_lt_length_of_action ha hs
        simp only [weight, hc, hs]
        rw [if_neg (by omega)]
        simp
  · cases h
    refine descends_of_weight rfl ?_
    simp only [weight, hc]
    rw [if_neg (by simp)]
    split <;> omega
  · cases h

theorem resume_descends {setup : Setup σ T} {c c' : Config σ T}
    (hc : c.control = .resume) (h : c.resume setup = .next c') : Descends c' c := by
  unfold resume at h
  split at h
  · cases h
  · next item below hframes =>
    split at h
    · next next hn hcont =>
      cases h
      refine descends_of_weight rfl ?_
      simp only [continues, Bool.and_eq_true, beq_iff_eq, Bool.not_eq_true'] at hcont
      simp [weight, hc, hcont, Item.isSingle_of_afterOperand? hn]
    · cases h
      refine descends_of_weight rfl ?_
      simp only [weight, hc, hframes, List.length_cons]
      split <;> split <;> omega

/-- Every transition descends. -/
theorem step_descends {setup : Setup σ T} {c c' : Config σ T} (h : c.step setup = .next c') :
    Descends c' c := by
  unfold step at h
  split at h
  · next item hc => exact enter_descends hc h
  · next hc => exact resume_descends hc h

/-! ## Runs -/

/-- Transitions up to the end of the run. -/
def run (setup : Setup σ T) (c : Config σ T) : Outcome σ T :=
  match _h : c.step setup with
  | .next c' => run setup c'
  | .halt o => o
termination_by descends_wf.wrap c
decreasing_by exact step_descends ‹_›

theorem run_of_step_next {setup : Setup σ T} {c c' : Config σ T} (h : c.step setup = .next c') :
    c.run setup = c'.run setup := by
  rw [run]
  split
  · next h' => rw [h] at h'; cases h'; rfl
  · next h' => rw [h] at h'; cases h'

theorem run_of_step_halt {setup : Setup σ T} {c : Config σ T} {o : Outcome σ T}
    (h : c.step setup = .halt o) : c.run setup = o := by
  rw [run]
  split
  · next h' => rw [h] at h'; cases h'
  · next h' => rw [h] at h'; cases h'; rfl

/-- The start of an evaluation, with the end ahead until the first token has been read. -/
def initial (setup : Setup σ T) (store : Store σ T) : Config σ T where
  control := .enter .start
  frames := []
  operands := []
  unwind := 0
  accepted := false
  ahead := ⟨.finish, 0⟩
  cursor := .start setup.input
  store := store
  warnings := []

end Config

/-- Evaluates the whole input from a store. -/
def Setup.run (setup : Setup σ T) (store : Store σ T) : Outcome σ T :=
  match (Config.initial setup store).fetch setup with
  | .next c => c.run setup
  | .halt o => o

end Calculator
