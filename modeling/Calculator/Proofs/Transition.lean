import Calculator.Automaton.Run
import Calculator.Proofs.Reduction

/-!
# Transitions and runs

* `Config.Move`, `Config.Halt`: the transitions by cases, with all that each case checks.
* `Config.run_induction`: induction along runs.
* `Setup.Reaches`: the configurations of a run, with the tokens read so far.
* `Setup.exists_halt_of_run`: where a run ends.
* `Cursor.Ends`: the tokens from a cursor up to the end, which are those of `tokenize`
  (`Cursor.ends_iff_tokenize`).
* `Setup.Reaches.ends_iff`: what is ahead in a configuration of a run.
-/

namespace Calculator

variable {σ T : Type}

/-! ## Transitions by cases -/

namespace Config

section step

variable {setup : Setup σ T} {c : Config σ T} {item : Item}

theorem step_of_resume (control : c.control = .resume) : c.step setup = c.resume setup := by
  simp only [step, control]

theorem step_of_shift {next : Item} (control : c.control = .enter item)
    (action : item.action c.ahead.terminal = .shift next) :
    c.step setup = c.shift setup item next := by
  simp only [step, enter, control, action]

theorem step_of_reduce {p : Production} (control : c.control = .enter item)
    (action : item.action c.ahead.terminal = .reduce p) : c.step setup = c.reduce setup p := by
  simp only [step, enter, control, action]

theorem step_of_accept (control : c.control = .enter item)
    (action : item.action c.ahead.terminal = .accept) :
    c.step setup = .next { c with control := .resume, accepted := true, unwind := c.unwind - 1 } := by
  simp only [step, enter, control, action]

theorem step_of_fail (control : c.control = .enter item)
    (action : item.action c.ahead.terminal = .fail) :
    c.step setup = c.fault (.error (c.refusal setup item)) := by
  simp only [step, enter, control, action]

theorem step_of_finish (control : c.control = .resume) (frames : c.frames = []) :
    c.step setup = .halt (c.finish setup) := by
  simp only [step_of_resume control, resume, frames]

theorem step_of_goOn {next : Item} {below : List Item} (control : c.control = .resume)
    (frames : c.frames = item :: below) (after : item.afterOperand? = some next)
    (continues : c.continues = true) : c.step setup = .next { c with control := .enter next } := by
  simp only [step_of_resume control, resume, frames, after, continues]

theorem step_of_leave {below : List Item} (control : c.control = .resume)
    (frames : c.frames = item :: below) (stops : item.afterOperand? = none ∨ c.continues = false) :
    c.step setup = .next { c with frames := below, unwind := c.unwind - 1 } := by
  rw [step_of_resume control, resume, frames]
  rcases stops with after | continues
  · simp only [after]
  · rw [continues]
    dsimp only
    cases item.afterOperand? <;> rfl

end step

/-- The innermost item goes on or is left. -/
theorem goOn_or_leave (c : Config σ T) (item : Item) :
    (∃ next, item.afterOperand? = some next ∧ c.continues = true) ∨
      (item.afterOperand? = none ∨ c.continues = false) := by
  cases item.afterOperand? with
  | none => exact .inr (.inl rfl)
  | some next =>
    cases c.continues with
    | true => exact .inl ⟨next, rfl, rfl⟩
    | false => exact .inr (.inr rfl)

/-- The transitions that go on. -/
inductive Move (setup : Setup σ T) (c : Config σ T) : Config σ T → Prop
  /-- The token ahead is read. -/
  | shift {item next : Item} {token : Token T} (control : c.control = .enter item)
    (action : item.action c.ahead.terminal = .shift next)
    (read : (c.cursor.next setup.type).token = .ok token) :
    Move setup c
      { c with
        control := .enter next, frames := item :: c.frames
        operands := c.ahead.operands ++ c.operands
        ahead := token, cursor := (c.cursor.next setup.type).cursor
        warnings := c.warnings ++ (c.cursor.next setup.type).warning.toList }
  | reduce {item : Item} {p : Production} {operands : List (Operand T)} {store : Store σ T}
    (control : c.control = .enter item) (action : item.action c.ahead.terminal = .reduce p)
    (evaluate : p.evaluate setup c.operands c.store = (.ok operands, store)) :
    Move setup c { c with control := .resume, operands, store, unwind := p.length - 1 }
  | accept {item : Item} (control : c.control = .enter item)
    (action : item.action c.ahead.terminal = .accept) :
    Move setup c { c with control := .resume, accepted := true, unwind := c.unwind - 1 }
  /-- The innermost item goes on behind its operand. -/
  | goOn {item next : Item} {below : List Item} (control : c.control = .resume)
    (frames : c.frames = item :: below) (after : item.afterOperand? = some next)
    (continues : c.continues = true) :
    Move setup c { c with control := .enter next }
  /-- The innermost item is left. -/
  | leave {item : Item} {below : List Item} (control : c.control = .resume)
    (frames : c.frames = item :: below)
    (stops : item.afterOperand? = none ∨ c.continues = false) :
    Move setup c { c with frames := below, unwind := c.unwind - 1 }

/-- The transitions that end a run. -/
inductive Halt (setup : Setup σ T) (c : Config σ T) : Outcome σ T → Prop
  /-- The token behind the one ahead cannot be read. -/
  | unreadable {item next : Item} {f : Fault} (control : c.control = .enter item)
    (action : item.action c.ahead.terminal = .shift next)
    (read : (c.cursor.next setup.type).token = .error f) :
    Halt setup c ⟨.error f, c.store, c.warnings ++ (c.cursor.next setup.type).warning.toList⟩
  | failed {item : Item} {p : Production} {f : Fault} {store : Store σ T}
    (control : c.control = .enter item) (action : item.action c.ahead.terminal = .reduce p)
    (evaluate : p.evaluate setup c.operands c.store = (.error f, store)) :
    Halt setup c ⟨.error f, store, c.warnings⟩
  | refused {item : Item} (control : c.control = .enter item)
    (action : item.action c.ahead.terminal = .fail) :
    Halt setup c ⟨.error (.error (c.refusal setup item)), c.store, c.warnings⟩
  | finished (control : c.control = .resume) (frames : c.frames = []) :
    Halt setup c (c.finish setup)

theorem move_or_halt (setup : Setup σ T) (c : Config σ T) :
    (∃ c', c.step setup = .next c' ∧ Move setup c c') ∨
      ∃ o, c.step setup = .halt o ∧ Halt setup c o := by
  cases hcontrol : c.control with
  | enter item =>
    cases haction : item.action c.ahead.terminal with
    | shift next =>
      rw [step_of_shift hcontrol haction]
      dsimp only [shift, fetch]
      rw [pushAhead_eq]
      cases hread : (c.cursor.next setup.type).token with
      | ok token => exact .inl ⟨_, rfl, .shift hcontrol haction hread⟩
      | error f => exact .inr ⟨_, rfl, .unreadable hcontrol haction hread⟩
    | reduce p =>
      rw [step_of_reduce hcontrol haction]
      dsimp only [reduce]
      rcases hevaluate : p.evaluate setup c.operands c.store with ⟨f | operands, store⟩
      · exact .inr ⟨_, rfl, .failed hcontrol haction hevaluate⟩
      · exact .inl ⟨_, rfl, .reduce hcontrol haction hevaluate⟩
    | accept => exact .inl ⟨_, step_of_accept hcontrol haction, .accept hcontrol haction⟩
    | fail => exact .inr ⟨_, step_of_fail hcontrol haction, .refused hcontrol haction⟩
  | resume =>
    cases hframes : c.frames with
    | nil => exact .inr ⟨_, step_of_finish hcontrol hframes, .finished hcontrol hframes⟩
    | cons item below =>
      rcases goOn_or_leave c item with ⟨next, hafter, hcontinues⟩ | hstops
      · exact .inl ⟨_, step_of_goOn hcontrol hframes hafter hcontinues,
          .goOn hcontrol hframes hafter hcontinues⟩
      · exact .inl ⟨_, step_of_leave hcontrol hframes hstops, .leave hcontrol hframes hstops⟩

theorem move_of_step {setup : Setup σ T} {c c' : Config σ T} (h : c.step setup = .next c') :
    Move setup c c' := by
  rcases move_or_halt setup c with ⟨c₁, h₁, hmove⟩ | ⟨o, h₁, _⟩
  · rw [h] at h₁
    cases h₁
    exact hmove
  · rw [h] at h₁
    cases h₁

theorem halt_of_step {setup : Setup σ T} {c : Config σ T} {o : Outcome σ T}
    (h : c.step setup = .halt o) : Halt setup c o := by
  rcases move_or_halt setup c with ⟨c₁, h₁, _⟩ | ⟨o', h₁, hhalt⟩
  · rw [h] at h₁
    cases h₁
  · rw [h] at h₁
    cases h₁
    exact hhalt

/-- The tokens that a transition reads: the one ahead, or none. -/
def shifted (c : Config σ T) : List (Token T) :=
  match c.control with
  | .enter item =>
    match item.action c.ahead.terminal with
    | .shift _ => [c.ahead]
    | _ => []
  | .resume => []

theorem shifted_of_shift {c : Config σ T} {item next : Item} (control : c.control = .enter item)
    (action : item.action c.ahead.terminal = .shift next) : c.shifted = [c.ahead] := by
  simp only [shifted, control, action]

theorem shifted_of_ne_shift {c : Config σ T} {item : Item} (control : c.control = .enter item)
    (action : ∀ next, item.action c.ahead.terminal ≠ .shift next) : c.shifted = [] := by
  simp only [shifted, control]

theorem shifted_of_resume {c : Config σ T} (control : c.control = .resume) : c.shifted = [] := by
  simp only [shifted, control]

end Config

/-! ## Runs -/

/-- Induction along runs, from their ends. -/
theorem Config.run_induction (setup : Setup σ T) {motive : Config σ T → Prop}
    (halt : ∀ c o, c.step setup = .halt o → motive c)
    (next : ∀ c c', c.step setup = .next c' → motive c' → motive c) (c : Config σ T) :
    motive c := by
  induction c using descends_wf.induction with
  | _ c ih =>
    cases hstep : c.step setup with
    | next c' => exact next c c' hstep (ih c' (step_descends hstep))
    | halt o => exact halt c o hstep

/-- The run from a store comes to a configuration when it has read the given tokens. -/
inductive Setup.Reaches (setup : Setup σ T) (store : Store σ T) :
    List (Token T) → Config σ T → Prop
  | start {c : Config σ T} :
    (Config.initial setup store).fetch setup = .next c → Reaches setup store [] c
  | step {tokens : List (Token T)} {c c' : Config σ T} :
    Reaches setup store tokens c → c.step setup = .next c' →
      Reaches setup store (tokens ++ c.shifted) c'

namespace Setup

variable {setup : Setup σ T} {store : Store σ T}

theorem Reaches.exists_halt {tokens : List (Token T)} {c : Config σ T}
    (h : setup.Reaches store tokens c) :
    ∃ tokens' c', setup.Reaches store tokens' c' ∧ c'.Halt setup (c.run setup) := by
  induction c using Config.run_induction setup generalizing tokens with
  | next c c' hstep ih =>
    rw [Config.run_of_step_next hstep]
    exact ih (h.step hstep)
  | halt c o hstep =>
    rw [Config.run_of_step_halt hstep]
    exact ⟨tokens, c, h, Config.halt_of_step hstep⟩

/-- The outcome of a run is that of any of its configurations. -/
theorem Reaches.run_eq {tokens : List (Token T)} {c : Config σ T}
    (h : setup.Reaches store tokens c) : setup.run store = c.run setup := by
  induction h with
  | start hfetch => rw [run, hfetch]
  | step _ hstep ih => rw [ih, Config.run_of_step_next hstep]

theorem fetch_initial {f : Fault}
    (h : ((Cursor.start setup.input).next setup.type).token = .error f) :
    (Config.initial setup store).fetch setup
      = .halt ⟨.error f, store, ((Cursor.start setup.input).next setup.type).warning.toList⟩ := by
  simp [Config.fetch, Config.initial, h, Config.fault]

/-- A run starts with the first token ahead. -/
theorem exists_of_fetch_initial {c : Config σ T}
    (h : (Config.initial setup store).fetch setup = .next c) :
    ∃ token, ((Cursor.start setup.input).next setup.type).token = .ok token ∧
      c = { Config.initial setup store with
        ahead := token, cursor := ((Cursor.start setup.input).next setup.type).cursor
        warnings := ((Cursor.start setup.input).next setup.type).warning.toList } := by
  unfold Config.fetch at h
  dsimp only at h
  split at h
  · cases h
  · next token htoken =>
    cases h
    exact ⟨token, htoken, rfl⟩

/-- A run ends because the first token cannot be read, or else in a configuration of the run. -/
theorem exists_halt_of_run (setup : Setup σ T) (store : Store σ T) :
    (∃ f, ((Cursor.start setup.input).next setup.type).token = .error f ∧
      (setup.run store).result = .error f) ∨
    ∃ tokens c, setup.Reaches store tokens c ∧ c.Halt setup (setup.run store) := by
  cases hread : ((Cursor.start setup.input).next setup.type).token with
  | error f => exact .inl ⟨f, rfl, by rw [run, fetch_initial hread]⟩
  | ok token =>
    right
    rw [run]
    cases hfetch : (Config.initial setup store).fetch setup with
    | next c => exact (Reaches.start hfetch).exists_halt
    | halt o => simp [Config.fetch, Config.initial, hread] at hfetch

end Setup

/-! ## Tokens up to the end -/

/-- The tokens from the cursor on, up to an end that is not among them. -/
def Cursor.Ends (type : NumericType σ T) (c : Cursor) : List (Token T) → Prop
  | [] => ∃ t, (c.next type).token = .ok t ∧ t.terminal = .finish
  | t :: ts =>
    (c.next type).token = .ok t ∧ t.isLast = false ∧ Ends type (c.next type).cursor ts

namespace Cursor

variable {type : NumericType σ T} {c : Cursor} {ts : List (Token T)}

theorem Ends.length_le (h : c.Ends type ts) : ts.length ≤ c.rest.length := by
  induction ts generalizing c with
  | nil => exact Nat.zero_le _
  | cons t ts ih =>
    obtain ⟨hread, hlast, hends⟩ := h
    have hle := ih hends
    have hlt := rest_length_next_lt hread hlast
    rw [List.length_cons]
    omega

theorem Ends.take_eq (h : c.Ends type ts) {count : Nat} (hcount : ts.length < count) :
    ∃ last, (c.take type count).tokens = ts ++ [last] ∧ last.terminal = .finish := by
  induction ts generalizing c count with
  | nil =>
    obtain ⟨last, hread, hlast⟩ := h
    obtain ⟨count, rfl⟩ : ∃ n, count = n + 1 := ⟨count - 1, by simp at hcount; omega⟩
    have hisLast : last.isLast = true := by rw [Token.isLast, hlast]; rfl
    exact ⟨last, by simp [take, hread, hisLast], hlast⟩
  | cons t ts ih =>
    obtain ⟨hread, hisLast, hends⟩ := h
    rw [List.length_cons] at hcount
    obtain ⟨count, rfl⟩ : ∃ n, count = n + 1 := ⟨count - 1, by omega⟩
    obtain ⟨last, htake, hlast⟩ := ih hends (Nat.lt_of_succ_lt_succ hcount)
    exact ⟨last, by simp [take, hread, hisLast, htake], hlast⟩

theorem ends_of_take {count : Nat} {last : Token T}
    (h : (c.take type count).tokens = ts ++ [last]) (hlast : last.terminal = .finish) :
    c.Ends type ts := by
  induction count generalizing c ts with
  | zero => simp [take] at h
  | succ count ih =>
    unfold take at h
    dsimp only at h
    split at h
    · simp at h
    · next t hread =>
      cases ts with
      | nil =>
        have ht : t = last := by simpa using (List.cons.inj h).1
        exact ⟨t, hread, ht ▸ hlast⟩
      | cons t' ts =>
        obtain ⟨rfl, hrest⟩ := List.cons.inj h
        cases hisLast : t.isLast with
        | true => simp [hisLast] at hrest
        | false =>
          rw [hisLast] at hrest
          exact ⟨hread, hisLast, ih hrest⟩

/-- The tokens of a text up to its end are those that reading one at a time finds. -/
theorem ends_iff_tokenize {input : Text} :
    (start input).Ends type ts ↔
      ∃ last, (tokenize type input).tokens = ts ++ [last] ∧ last.terminal = .finish := by
  constructor
  · intro h
    have hle : ts.length ≤ input.length := h.length_le
    exact h.take_eq (by omega)
  · rintro ⟨last, htokens, hlast⟩
    exact ends_of_take htokens hlast

end Cursor

/-- The tokens from the one ahead on, up to an end that is not among them. -/
def Config.Faces (setup : Setup σ T) (c : Config σ T) : List (Token T) → Prop
  | [] => c.ahead.terminal = .finish
  | t :: ts => c.ahead = t ∧ t.isLast = false ∧ c.cursor.Ends setup.type ts

theorem Cursor.ends_iff_faces {setup : Setup σ T} {cursor : Cursor} {c : Config σ T}
    (hread : (cursor.next setup.type).token = .ok c.ahead)
    (hcursor : c.cursor = (cursor.next setup.type).cursor) (ts : List (Token T)) :
    cursor.Ends setup.type ts ↔ c.Faces setup ts := by
  cases ts with
  | nil => simp [Ends, Config.Faces, hread]
  | cons t ts => simp [Ends, Config.Faces, hread, hcursor]

theorem Token.isLast_eq_false_of_shift {item next : Item} {t : Token T}
    (h : item.action t.terminal = .shift next) : t.isLast = false := by
  cases ht : t.terminal with
  | finish => exact absurd (ht ▸ h) (Item.action_finish_ne_shift item next)
  | invalid =>
    rw [ht] at h
    cases item <;>
      simp [Item.action, Item.operandAction, Item.looseAction, Item.tightAction,
        Item.completeAction, Terminal.binaryOp?, Terminal.isFollow] at h
  | _ => rw [isLast, ht]; rfl

/-- What a configuration of a run holds of the input changes only when a token is read: the one ahead
is no longer ahead then, and the next one is. -/
theorem Setup.Reaches.fetch_induction {setup : Setup σ T} {store : Store σ T}
    {motive : List (Token T) → Token T → Cursor → List Ambiguity → Prop}
    (first : ∀ token, ((Cursor.start setup.input).next setup.type).token = .ok token →
      motive [] token ((Cursor.start setup.input).next setup.type).cursor
        ((Cursor.start setup.input).next setup.type).warning.toList)
    (next : ∀ tokens ahead cursor warnings token, motive tokens ahead cursor warnings →
      ahead.isLast = false → (cursor.next setup.type).token = .ok token →
        motive (tokens ++ [ahead]) token (cursor.next setup.type).cursor
          (warnings ++ (cursor.next setup.type).warning.toList))
    {tokens : List (Token T)} {c : Config σ T} (h : setup.Reaches store tokens c) :
    motive tokens c.ahead c.cursor c.warnings := by
  induction h with
  | start hfetch =>
    obtain ⟨token, htoken, rfl⟩ := exists_of_fetch_initial hfetch
    exact first token htoken
  | @step tokens c c' _ hstep ih =>
    cases Config.move_of_step hstep with
    | shift control action read =>
      rw [Config.shifted_of_shift control action]
      exact next _ _ _ _ _ ih (Token.isLast_eq_false_of_shift action) read
    | reduce control action _ | accept control action =>
      rw [Config.shifted_of_ne_shift control (by simp [action]), List.append_nil]
      exact ih
    | goOn control | leave control =>
      rw [Config.shifted_of_resume control, List.append_nil]
      exact ih

/-- A configuration of a run faces the tokens of the text that have not been read. -/
theorem Setup.Reaches.ends_iff {setup : Setup σ T} {store : Store σ T} {tokens : List (Token T)}
    {c : Config σ T} (h : setup.Reaches store tokens c) (ts : List (Token T)) :
    (Cursor.start setup.input).Ends setup.type ts ↔
      ∃ rest, ts = tokens ++ rest ∧ c.Faces setup rest := by
  induction h with
  | @start c hfetch =>
    have hread : ((Cursor.start setup.input).next setup.type).token = .ok c.ahead ∧
        c.cursor = ((Cursor.start setup.input).next setup.type).cursor := by
      obtain ⟨token, htoken, rfl⟩ := exists_of_fetch_initial hfetch
      exact ⟨htoken, rfl⟩
    rw [Cursor.ends_iff_faces hread.1 hread.2]
    simp
  | @step tokens c c' _ hstep ih =>
    rw [ih]
    cases Config.move_of_step hstep with
    | shift control action read =>
      rw [Config.shifted_of_shift control action]
      constructor
      · rintro ⟨rest, rfl, hfaces⟩
        cases rest with
        | nil => exact absurd (hfaces ▸ action) (Item.action_finish_ne_shift _ _)
        | cons t rest =>
          obtain ⟨rfl, _, hends⟩ := hfaces
          exact ⟨rest, by simp, (Cursor.ends_iff_faces read rfl rest).1 hends⟩
      · rintro ⟨rest, rfl, hfaces⟩
        exact ⟨c.ahead :: rest, by simp, rfl, Token.isLast_eq_false_of_shift action,
          (Cursor.ends_iff_faces read rfl rest).2 hfaces⟩
    | reduce control action _ =>
      rw [Config.shifted_of_ne_shift control (by simp [action]), List.append_nil]
      rfl
    | accept control action =>
      rw [Config.shifted_of_ne_shift control (by simp [action]), List.append_nil]
      rfl
    | goOn control =>
      rw [Config.shifted_of_resume control, List.append_nil]
      rfl
    | leave control =>
      rw [Config.shifted_of_resume control, List.append_nil]
      rfl

end Calculator
