import Calculator.Proofs.Reading
import Calculator.Proofs.Trail
import Calculator.Proofs.Viable
import Calculator.Random.Source

/-!
# Evaluation is online

`Setup.run_online`: what an evaluation has done is decided by what it has read. Two texts that give
the same readings, for as many as the evaluation of the first one takes, are evaluated alike, with
the same configurations on the way; only the place in the text, and the text that a grammar error
quotes, may differ.

* `Cursor.readings`: what reading a number of tokens gives.
* `Setup.fetchCount`: how many tokens an evaluation asks for.
* `Config.AlikeFor`: the same configuration at a cursor from which the same readings follow.

Proof. A transition looks at the input only where it reads a token, and it reads at most one. So if
two configurations are alike for what the transition reads and some readings more, what it leads to
is alike for these (`Config.Valid.step_alike`). The rest is `Setup.run_related`.
-/

namespace Calculator

variable {σ T : Type}

/-! ## Readings -/

namespace Cursor

/-- What reading the next tokens gives, one reading after the other. -/
def readings (type : NumericType σ T) : Nat → Cursor → List (Except (Fault × Text × Nat) (Token T))
  | 0, _ => []
  | n + 1, c => c.reading type :: readings type n (c.next type).cursor

end Cursor

/-! ## Configurations alike -/

/-- The fault without the input that a grammar error quotes. -/
def Fault.withoutInput : Fault → Fault
  | .error (.grammar state token _) => .error (.grammar state token [])
  | f => f

/-- The same outcome but for the input that a grammar error quotes. -/
structure Outcome.SameButInput (o o' : Outcome σ T) : Prop where
  result : o'.result.mapError Fault.withoutInput = o.result.mapError Fault.withoutInput
  store : o'.store = o.store
  warnings : o'.warnings = o.warnings

namespace Config

/-- The configuration at another cursor. -/
def withCursor (c : Config σ T) (cursor : Cursor) : Config σ T := { c with cursor }

/-- The same configuration but for the cursor, from which the same readings follow. -/
def AlikeFor (type : NumericType σ T) (n : Nat) (c c' : Config σ T) : Prop :=
  ∃ cursor, cursor.readings type n = c.cursor.readings type n ∧ c' = c.withCursor cursor

end Config

/-- The reduction of a handle does not look at the input. -/
theorem Production.Handle.evaluate_input {p : Production} {popped : List (Operand T)}
    {handle : List (Token T)} (h : p.Handle popped handle) (setup : Setup σ T) (input : Text)
    (rest : List (Operand T)) :
    p.evaluate { setup with input } (popped ++ rest) = p.evaluate setup (popped ++ rest) := by
  cases h <;> rfl

namespace Config

variable {setup : Setup σ T} {c c' : Config σ T} {tokens : List (Token T)} {cursor : Cursor}
  {n : Nat}

theorem fetch_alike (setup : Setup σ T) (input : Text) (c : Config σ T)
    (h : cursor.readings setup.type (n + 1) = c.cursor.readings setup.type (n + 1)) :
    (c.fetch setup).Related (AlikeFor setup.type n) Outcome.SameButInput
      ((c.withCursor cursor).fetch { setup with input }) := by
  obtain ⟨hreading, hrest⟩ := List.cons.inj h
  have hwarning := Cursor.warning_eq_of_reading hreading
  simp only [fetch, withCursor, hwarning]
  rcases Cursor.eq_of_reading hreading with ⟨t, ht, ht'⟩ | ⟨f, hf, hf', _⟩
  · rw [ht, ht']
    exact .next ⟨_, hrest, rfl⟩
  · rw [hf, hf']
    exact .halt ⟨rfl, rfl, rfl⟩

theorem Valid.reduce_alike (h : c.Valid tokens) {item : Item} {p : Production}
    (control : c.control = .enter item) (action : item.action c.ahead.terminal = .reduce p)
    (input : Text) (hreadings : cursor.readings setup.type n = c.cursor.readings setup.type n) :
    (c.reduce setup p).Related (AlikeFor setup.type n) Outcome.SameButInput
      ((c.withCursor cursor).reduce { setup with input } p) := by
  obtain ⟨popped, rest, _, _, hoperands, _, hhandle⟩ := h.exists_handle control action
  simp only [reduce, withCursor, hoperands, hhandle.evaluate_input]
  rcases p.evaluate setup (popped ++ rest) c.store with ⟨f | operands, store⟩
  · exact .halt ⟨rfl, rfl, rfl⟩
  · exact .next ⟨cursor, hreadings, rfl⟩

theorem refusal_withoutInput (setup : Setup σ T) (input : Text) (c : Config σ T) (cursor : Cursor)
    (item : Item) :
    Fault.withoutInput (.error ((c.withCursor cursor).refusal { setup with input } item))
      = Fault.withoutInput (.error (c.refusal setup item)) := by
  simp only [refusal, withCursor]
  split <;> rfl

/-- A transition looks at the input only for the token that it reads. -/
theorem Valid.step_alike (h : c.Valid tokens) (input : Text)
    (halike : c.AlikeFor setup.type (c.shifted.length + n) c') :
    (c.step setup).Related (AlikeFor setup.type n) Outcome.SameButInput
      (c'.step { setup with input }) := by
  obtain ⟨cursor, hreadings, rfl⟩ := halike
  cases control : c.control with
  | resume =>
    have control' : (c.withCursor cursor).control = .resume := control
    rw [shifted_of_resume control, List.length_nil, Nat.zero_add] at hreadings
    cases frames : c.frames with
    | nil =>
      obtain ⟨accepted, ⟨a, operands⟩, _⟩ := h.accepted_of_frames control frames
      rw [step_of_finish control frames, step_of_finish control' frames,
        finish_eq setup accepted operands,
        finish_eq (c := c.withCursor cursor) { setup with input } accepted operands]
      exact .halt ⟨rfl, rfl, rfl⟩
    | cons item below =>
      rcases goOn_or_leave c item with ⟨next, after, continues⟩ | stops
      · rw [step_of_goOn control frames after continues,
          step_of_goOn control' frames after continues]
        exact .next ⟨cursor, hreadings, rfl⟩
      · rw [step_of_leave control frames stops, step_of_leave control' frames stops]
        exact .next ⟨cursor, hreadings, rfl⟩
  | enter item =>
    have control' : (c.withCursor cursor).control = .enter item := control
    have unread (hne : ∀ next, item.action c.ahead.terminal ≠ .shift next) :
        cursor.readings setup.type n = c.cursor.readings setup.type n := by
      rwa [shifted_of_ne_shift control hne, List.length_nil, Nat.zero_add] at hreadings
    cases action : item.action c.ahead.terminal with
    | shift next =>
      -- One reading is used up, and `n` are left over.
      rw [shifted_of_shift control action, List.length_singleton, Nat.add_comm] at hreadings
      rw [step_of_shift control action, step_of_shift control' action]
      exact fetch_alike setup input _ hreadings
    | reduce p =>
      rw [step_of_reduce control action, step_of_reduce control' action]
      exact h.reduce_alike control action input (unread (by simp [action]))
    | accept =>
      rw [step_of_accept control action, step_of_accept control' action]
      exact .next ⟨cursor, unread (by simp [action]), rfl⟩
    | fail =>
      rw [step_of_fail control action, step_of_fail control' action]
      have hrefusal := refusal_withoutInput setup input c cursor item
      exact .halt ⟨congrArg Except.error hrefusal, rfl, rfl⟩

/-- How many tokens a run reads from the given configuration on. -/
def shiftCount (setup : Setup σ T) (c : Config σ T) : Nat :=
  ((c.trail setup).flatMap shifted).length

theorem shiftCount_of_step_next {d : Config σ T} (h : c.step setup = .next d) :
    c.shiftCount setup = c.shifted.length + d.shiftCount setup := by
  rw [shiftCount, trail_of_step_next h, List.flatMap_cons, List.length_append]
  rfl

theorem shiftCount_of_step_halt {o : Outcome σ T} (h : c.step setup = .halt o) :
    c.shiftCount setup = c.shifted.length := by
  rw [shiftCount, trail_of_step_halt h, List.flatMap_singleton]

end Config

/-! ## Runs -/

namespace Setup

variable {setup : Setup σ T} {store : Store σ T} {tokens : List (Token T)} {c c' : Config σ T}

/-- How many tokens an evaluation asks for: the first one, and the next one whenever it has read
one. -/
def fetchCount (setup : Setup σ T) (store : Store σ T) : Nat :=
  ((setup.trail store).flatMap Config.shifted).length + 1

/-- The start of an evaluation is the same but for the cursor. -/
theorem initial_withCursor (setup : Setup σ T) (store : Store σ T) (input : Text) :
    Config.initial { setup with input } store
      = (Config.initial setup store).withCursor (.start input) := rfl

/-- A configuration is decided by the tokens that have been fetched to get there. -/
theorem Reaches.exists_alike (h : setup.Reaches store tokens c) {input : Text} {n : Nat}
    (hreadings : (Cursor.start input).readings setup.type (tokens.length + 1 + n)
      = (Cursor.start setup.input).readings setup.type (tokens.length + 1 + n)) :
    ∃ c', Reaches { setup with input } store tokens c' ∧ c.AlikeFor setup.type n c' := by
  induction h generalizing n with
  | @start c hfetch =>
    rw [List.length_nil, Nat.zero_add, Nat.add_comm] at hreadings
    have hrelated := Config.fetch_alike setup input (Config.initial setup store) hreadings
    rw [hfetch, ← initial_withCursor] at hrelated
    obtain ⟨c', hfetch', halike⟩ := hrelated.exists_next
    exact ⟨c', .start hfetch', halike⟩
  | @step tokens c d hreaches hstep ih =>
    rw [List.length_append, Nat.add_right_comm _ _ 1, Nat.add_assoc _ _ n] at hreadings
    obtain ⟨c', hreaches', halike⟩ := ih hreadings
    have hrelated := hreaches.valid.step_alike input halike
    rw [hstep] at hrelated
    obtain ⟨d', hstep', hd⟩ := hrelated.exists_next
    have hshifted : c'.shifted = c.shifted := by
      obtain ⟨cursor, _, rfl⟩ := halike
      rfl
    exact ⟨d', hshifted ▸ hreaches'.step hstep', hd⟩

/-- Transitions of configurations that are alike for the whole rest of the run are related by the
same. -/
theorem Reaches.step_alike (h : setup.Reaches store tokens c) (input : Text)
    (halike : c.AlikeFor setup.type (c.shiftCount setup) c') :
    (c.step setup).Related (fun c c' => c.AlikeFor setup.type (c.shiftCount setup) c')
      Outcome.SameButInput (c'.step { setup with input }) := by
  cases hstep : c.step setup with
  | next d =>
    rw [Config.shiftCount_of_step_next hstep] at halike
    have hrelated := h.valid.step_alike input halike
    rw [hstep] at hrelated
    refine hrelated.mono fun c c' hc h => ?_
    cases hc
    exact h
  | halt o =>
    rw [Config.shiftCount_of_step_halt hstep] at halike
    have hrelated := h.valid.step_alike (n := 0) input halike
    rw [hstep] at hrelated
    exact hrelated.mono fun c c' hc _ => by cases hc

/-- The first tokens are fetched alike. -/
theorem start_alike (setup : Setup σ T) (store : Store σ T) {input : Text}
    (hreadings : (Cursor.start input).readings setup.type (setup.fetchCount store)
      = (Cursor.start setup.input).readings setup.type (setup.fetchCount store)) :
    ((Config.initial setup store).fetch setup).Related
      (fun c c' => c.AlikeFor setup.type (c.shiftCount setup) c') Outcome.SameButInput
      ((Config.initial { setup with input } store).fetch { setup with input }) := by
  have hrelated := Config.fetch_alike setup input (Config.initial setup store) hreadings
  refine hrelated.mono fun c c' hc halike => ?_
  have htrail : setup.trail store = c.trail setup := by rw [trail, hc]
  rwa [htrail] at halike

/-- **Evaluation is online.** An evaluation comes to the same configurations, but for the cursor, on
every text that gives the readings which it has taken. So it ends with the same result, or with the
same error but for the input that is quoted, with the same variables, draws and warnings, and it
asks for as many tokens, on every text that gives the same readings for all the tokens that it asks
for. What stands further right has no effect. -/
theorem run_online (setup : Setup σ T) (store : Store σ T) (input : Text) :
    let other : Setup σ T := { setup with input }
    let Agree (n : Nat) : Prop := (Cursor.start input).readings setup.type n
      = (Cursor.start setup.input).readings setup.type n
    (∀ tokens c, setup.Reaches store tokens c → Agree (tokens.length + 1) →
      ∃ cursor, other.Reaches store tokens (c.withCursor cursor)) ∧
    (Agree (setup.fetchCount store) →
      (setup.run store).SameButInput (other.run store) ∧
      other.fetchCount store = setup.fetchCount store ∧
      List.Forall₂ (fun c c' => ∃ cursor, c' = c.withCursor cursor)
        (setup.trail store) (other.trail store)) := by
  intro other Agree
  refine ⟨fun tokens c hreaches hreadings => ?_, fun hreadings => ?_⟩
  · obtain ⟨_, hreaches', cursor, _, rfl⟩ := hreaches.exists_alike (n := 0) hreadings
    exact ⟨cursor, hreaches'⟩
  · obtain ⟨hrun, htrail⟩ := run_related (start_alike setup store hreadings)
      fun _ _ _ hreaches halike => hreaches.step_alike input halike
    have hshifted : (setup.trail store).flatMap Config.shifted
        = (other.trail store).flatMap Config.shifted := by
      refine flatMap_eq_of_related (fun c c' halike => ?_) htrail
      obtain ⟨cursor, _, rfl⟩ := halike
      rfl
    refine ⟨hrun, ?_, htrail.imp fun c c' ⟨cursor, _, hc⟩ => ⟨cursor, hc⟩⟩
    rw [fetchCount, fetchCount, hshifted]

/-- An unknown variable is found when the operator behind it has been fetched, whatever follows. -/
theorem run_online_unknown_variable :
    let setup : Setup RandomSource Int := ⟨int64, RandomSource.generator, Text.ofString "y + 1"⟩
    let other : Setup RandomSource Int := ⟨int64, RandomSource.generator, Text.ofString "y + )"⟩
    let store : Store RandomSource Int := ⟨.empty, .seeded 1⟩
    setup.fetchCount store = 2 ∧ (setup.run store).SameButInput (other.run store) := by
  intro setup other store
  let start : Config RandomSource Int :=
    { Config.initial setup store with
      ahead := ⟨.identifier (Text.ofString "y"), 0⟩, cursor := ⟨1, Text.ofString " + 1"⟩ }
  let after : Config RandomSource Int :=
    { start with
      control := .enter .afterIdent, frames := [.start]
      operands := [.identifier (Text.ofString "y")]
      ahead := ⟨.punctuation .plus, 2⟩, cursor := ⟨3, Text.ofString " 1"⟩ }
  have hfetch : (Config.initial setup store).fetch setup = .next start := rfl
  have hshift : start.step setup = .next after := rfl
  have hunknown : after.step setup
      = .halt ⟨.error (.error (.unknownVariable (Text.ofString "y"))), store, []⟩ := rfl
  have hcount : setup.fetchCount store = 2 := by
    rw [fetchCount, trail, hfetch]
    dsimp only
    rw [Config.trail_of_step_next hshift, Config.trail_of_step_halt hunknown]
    rfl
  have hagree : (Cursor.start other.input).readings setup.type 2
      = (Cursor.start setup.input).readings setup.type 2 := by
    have hy : (Cursor.start setup.input).next setup.type
        = ⟨.ok start.ahead, none, start.cursor⟩ := rfl
    have hplus : start.cursor.next setup.type = ⟨.ok after.ahead, none, after.cursor⟩ := rfl
    have hy' : (Cursor.start other.input).next setup.type
        = ⟨.ok start.ahead, none, ⟨1, Text.ofString " + )"⟩⟩ := rfl
    have hplus' : (Cursor.mk 1 (Text.ofString " + )")).next setup.type
        = ⟨.ok after.ahead, none, ⟨3, Text.ofString " )"⟩⟩ := rfl
    simp only [Cursor.readings, Cursor.reading, hy, hplus, hy', hplus', Except.mapError]
  refine ⟨hcount, ((run_online setup store other.input).2 ?_).1⟩
  rw [hcount]
  exact hagree

end Setup

end Calculator
