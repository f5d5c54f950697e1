import Calculator.Proofs.Range
import Calculator.Proofs.Refusal

/-!
# Parsing terminates

`Setup.run_terminates`: a run is a finite chain of transitions whose last one halts, with a number
of configurations that is linear in the number of tokens read. Every pass of the loop behind an
operand reads a token, or reduces past the loop, or accepts, or throws. Each token is read at most
once, and at no time have there been more reductions than tokens read. If the operations of the type
give back a result wherever the run applies them, so does the run.

* `Config.reductions`: what a transition reduces, as `Config.shifted` is what it reads.
* `Config.Pass`: what a pass of a loop begins with.
* `Setup.Completes`: a run as a finite chain of transitions.
* `Setup.Responds`: what the type does in the course of a run comes to an end.
* `Generator.DrawsTo`: the states that a random source comes to by drawing words.

Proof. Each item that is on the stack because a token was read is worth one reduction
(`Config.pending`). Reading adds at most one such item, a reduction takes one off at least, and
nothing else adds any. The transitions that neither read nor reduce are paid for as well
(`Config.allowance`): every item is left once, and only behind a reduction does a loop go on. Both
accounts hold for one transition (`Config.Valid.accounts`) and then for all of a trail.
-/

namespace Calculator

variable {σ T : Type}

/-! ## What transitions reduce -/

/-- The items that are entered when a token has been read. -/
def Item.isShifted (item : Item) : Bool := item != .start && item.beforeOperand?.isNone

/-- Among the last two items of a right-hand side, one was entered by reading a token. -/
theorem Item.Completes.isShifted {item : Item} {p : Production} (h : item.Completes p) :
    item.isShifted = true ∨
      ∃ place, item.beforeOperand? = some place ∧ place.isShifted = true ∧ 1 < p.length := by
  cases h with
  | sign s => exact .inr ⟨.unaryAfterOp s, rfl, rfl, by simp [Production.length]⟩
  | binary op => exact .inr ⟨.binaryAfterOp op, rfl, rfl, by simp [Production.length]⟩
  | assign => exact .inr ⟨.assignAfterIdent, rfl, rfl, by simp [Production.length]⟩
  | number | identifier | bracket | call0 | call1 | call2 => exact .inl rfl

namespace Config

/-- The production that a transition reduces, or none. It counts even if its operation fails. -/
def reductions (c : Config σ T) : List Production :=
  match c.control with
  | .enter item =>
    match item.action c.ahead.terminal with
    | .reduce p => [p]
    | _ => []
  | .resume => []

section reductions

variable {c : Config σ T} {item : Item}

theorem reductions_of_reduce {p : Production} (control : c.control = .enter item)
    (action : item.action c.ahead.terminal = .reduce p) : c.reductions = [p] := by
  simp only [reductions, control, action]

theorem reductions_of_ne_reduce (control : c.control = .enter item)
    (action : ∀ p, item.action c.ahead.terminal ≠ .reduce p) : c.reductions = [] := by
  simp only [reductions, control]

theorem reductions_of_resume (control : c.control = .resume) : c.reductions = [] := by
  simp only [reductions, control]

end reductions

/-! ## Accounts -/

/-- How many items are on the stack because a token was read, not counting those that are about to
be left. -/
def pending (c : Config σ T) : Nat :=
  match c.control with
  | .enter item => (item :: c.frames).countP Item.isShifted
  | .resume => (c.frames.drop c.unwind).countP Item.isShifted

theorem pending_of_enter {c : Config σ T} {item : Item} (control : c.control = .enter item) :
    c.pending = (item :: c.frames).countP Item.isShifted := by
  simp only [pending, control]

theorem pending_of_resume {c : Config σ T} (control : c.control = .resume) :
    c.pending = (c.frames.drop c.unwind).countP Item.isShifted := by
  simp only [pending, control]

/-- Bounds how many configurations there still can be if no further token is read. -/
def allowance (c : Config σ T) : Nat :=
  c.frames.length +
    match c.control with
    | .enter _ => 2 * c.pending + 2
    | .resume => if c.accepted = true then 1 else 2 * c.pending + 3

theorem allowance_of_enter {c : Config σ T} {item : Item} (control : c.control = .enter item) :
    c.allowance = c.frames.length + (2 * c.pending + 2) := by
  simp only [allowance, control]

theorem allowance_of_resume {c : Config σ T} (control : c.control = .resume) :
    c.allowance = c.frames.length + if c.accepted = true then 1 else 2 * c.pending + 3 := by
  simp only [allowance, control]

theorem allowance_pos (c : Config σ T) : 0 < c.allowance := by
  unfold allowance
  split
  · omega
  · split <;> omega

namespace Valid

variable {setup : Setup σ T} {c c' : Config σ T} {tokens : List (Token T)}

/-- A reduction takes off an item that was entered by reading a token. -/
theorem pending_of_reduce (h : c.Valid tokens) {item : Item} {p : Production}
    (control : c.control = .enter item) (action : item.action c.ahead.terminal = .reduce p) :
    (c.frames.drop (p.length - 1)).countP Item.isShifted + 1 ≤ c.pending := by
  obtain ⟨-, -, viable, -⟩ := h.viable_of_enter control
  rw [pending_of_enter control]
  rcases (Item.completes_of_action action).1.isShifted with
    hitem | ⟨place, before, hplace, hlength⟩
  · have hle := (List.drop_sublist (p.length - 1) c.frames).countP_le (p := Item.isShifted)
    rw [List.countP_cons_of_pos hitem]
    omega
  · obtain ⟨outer, _, _, _, _, hframes, -⟩ := viable.of_operand before
    obtain ⟨n, hn⟩ : ∃ n, p.length - 1 = n + 1 := ⟨p.length - 2, by omega⟩
    have hle := (List.drop_sublist n outer).countP_le (p := Item.isShifted)
    rw [hframes, hn, List.drop_succ_cons, List.countP_cons, List.countP_cons_of_pos hplace]
    omega

theorem length_reductions_le (h : c.Valid tokens) : c.reductions.length ≤ c.pending := by
  unfold reductions
  split
  · next item control =>
    split
    · next p action =>
      have hpending := h.pending_of_reduce control action
      simp only [List.length_singleton]
      omega
    · exact Nat.zero_le _
  · exact Nat.zero_le _

/-- **The accounts of one transition.** What is reduced is paid for by what is taken off the stack,
and reading a token pays for four transitions. -/
theorem accounts (h : c.Valid tokens) (hmove : Move setup c c') :
    c.reductions.length + c'.pending ≤ c.shifted.length + c.pending ∧
      c'.allowance + 1 ≤ 4 * c.shifted.length + c.allowance := by
  cases hmove with
  | @shift item next token control action read =>
    rw [reductions_of_ne_reduce control (by simp [action]), shifted_of_shift control action,
      allowance_of_enter control, List.length_nil, List.length_singleton]
    have hpending : (next :: item :: c.frames).countP Item.isShifted ≤ c.pending + 1 := by
      rw [pending_of_enter control, List.countP_cons]
      split <;> omega
    constructor
    · show 0 + (next :: item :: c.frames).countP Item.isShifted ≤ 1 + c.pending
      omega
    · show c.frames.length + 1 + (2 * (next :: item :: c.frames).countP Item.isShifted + 2) + 1
        ≤ 4 * 1 + (c.frames.length + (2 * c.pending + 2))
      omega
  | @reduce item p operands store control action evaluate =>
    obtain ⟨-, accepted, -⟩ := h.viable_of_enter control
    have hpending := h.pending_of_reduce control action
    rw [reductions_of_reduce control action, shifted_of_ne_shift control (by simp [action]),
      allowance_of_enter control, allowance_of_resume rfl, if_neg (by simp [accepted]),
      List.length_nil, List.length_singleton]
    constructor
    · show 1 + (c.frames.drop (p.length - 1)).countP Item.isShifted ≤ 0 + c.pending
      omega
    · show c.frames.length + (2 * (c.frames.drop (p.length - 1)).countP Item.isShifted + 3) + 1
        ≤ 4 * 0 + (c.frames.length + (2 * c.pending + 2))
      omega
  | @accept item control action =>
    have hpending : (c.frames.drop (c.unwind - 1)).countP Item.isShifted ≤ c.pending := by
      rw [pending_of_enter control]
      exact ((List.drop_sublist _ _).trans (List.sublist_cons_self _ _)).countP_le
    rw [reductions_of_ne_reduce control (by simp [action]),
      shifted_of_ne_shift control (by simp [action]), allowance_of_enter control,
      List.length_nil]
    constructor
    · show 0 + (c.frames.drop (c.unwind - 1)).countP Item.isShifted ≤ 0 + c.pending
      omega
    · show c.frames.length + 1 + 1 ≤ 4 * 0 + (c.frames.length + (2 * c.pending + 2))
      omega
  | @goOn item next below control frames after continues =>
    simp only [Config.continues, Bool.and_eq_true, beq_iff_eq, Bool.not_eq_true'] at continues
    obtain ⟨⟨unwind, -⟩, accepted⟩ := continues
    have hnext : next.isShifted = false := by
      simp [Item.isShifted, Item.afterOperand?_eq_some_iff.1 after]
    have hpending : (next :: c.frames).countP Item.isShifted = c.pending := by
      rw [pending_of_resume control, unwind, List.drop_zero,
        List.countP_cons_of_neg (by simp [hnext])]
    rw [reductions_of_resume control, shifted_of_resume control, allowance_of_resume control,
      if_neg (by simp [accepted]), List.length_nil]
    constructor
    · show 0 + (next :: c.frames).countP Item.isShifted ≤ 0 + c.pending
      omega
    · show c.frames.length + (2 * (next :: c.frames).countP Item.isShifted + 2) + 1
        ≤ 4 * 0 + (c.frames.length + (2 * c.pending + 3))
      omega
  | @leave item below control frames stops =>
    have hpending : (below.drop (c.unwind - 1)).countP Item.isShifted ≤ c.pending := by
      rw [pending_of_resume control, frames]
      cases c.unwind with
      | zero => exact (List.sublist_cons_self item below).countP_le
      | succ n => exact Nat.le_refl _
    let left : Config σ T := { c with frames := below, unwind := c.unwind - 1 }
    have hleft : left.pending = (below.drop (c.unwind - 1)).countP Item.isShifted :=
      pending_of_resume (c := left) control
    rw [reductions_of_resume control, shifted_of_resume control, allowance_of_resume control,
      allowance_of_resume (c := left) control, hleft, frames, List.length_cons, List.length_nil]
    constructor
    · omega
    · show below.length + (if c.accepted = true then 1 else _) + 1 ≤ _
      split <;> omega

end Valid

/-! ## Passes of loops -/

/-- What a pass of a loop begins with. The items `outer` stand around the item whose loop it is. -/
inductive Pass (setup : Setup σ T) (outer : List Item) (c : Config σ T) : Prop
  /-- The token ahead is read. -/
  | shifts {c' : Config σ T} (step : c.step setup = .next c') (shifted : c.shifted = [c.ahead])
  /-- A production is reduced, and next the item whose loop it is is left. -/
  | unwinds {p : Production} {c' c'' : Config σ T} (step : c.step setup = .next c')
    (reductions : c.reductions = [p]) (left : c'.step setup = .next c'')
    (frames : c''.frames = outer)
  | accepts {c' : Config σ T} (step : c.step setup = .next c') (accepted : c'.accepted = true)
  | throws {o : Outcome σ T} {f : Fault} (step : c.step setup = .halt o)
    (result : o.result = .error f)

/-- An item behind an operand makes a pass of the loop that has entered it. -/
theorem pass_of_enter {setup : Setup σ T} {c : Config σ T} {place next : Item} {outer : List Item}
    (control : c.control = .enter next) (frames : c.frames = place :: outer)
    (after : place.afterOperand? = some next) : c.Pass setup outer := by
  rcases move_or_halt setup c with ⟨c', step, hmove⟩ | ⟨o, step, hhalt⟩
  · cases hmove with
    | @shift item _ _ control' action _ => exact .shifts step (shifted_of_shift control' action)
    | @reduce item p operands store control' action evaluate =>
      obtain rfl : next = item := by
        rw [control] at control'
        exact Control.enter.inj control'
      -- More than one symbol is replaced, so that the counter is not back at zero.
      have hlength := Item.one_lt_length_of_action action (Item.isSingle_of_afterOperand? after)
      let reduced : Config σ T :=
        { c with control := .resume, operands, store, unwind := p.length - 1 }
      have hstops : reduced.continues = false := by
        have hunwind : (p.length - 1 == 0) = false := by
          rw [beq_eq_false_iff_ne]
          omega
        show (p.length - 1 == 0 && _ && _) = false
        rw [hunwind, Bool.false_and, Bool.false_and]
      exact .unwinds step (reductions_of_reduce control action)
        (step_of_leave (c := reduced) rfl frames (.inr hstops)) rfl
    | accept => exact .accepts step rfl
    | goOn control' | leave control' => rw [control] at control'; cases control'
  · cases hhalt with
    | unreadable | failed | refused => exact .throws step rfl
    | finished control' => rw [control] at control'; cases control'

end Config

/-! ## Whole runs -/

/-- A run is a finite chain of transitions, from the first token ahead on, and the last of them
gives its outcome. There is no transition if the first token cannot be read. -/
inductive Setup.Completes (setup : Setup σ T) (store : Store σ T) : Prop
  | unreadable {f : Fault} (read : ((Cursor.start setup.input).next setup.type).token = .error f)
    (trail : setup.trail store = []) (result : (setup.run store).result = .error f)
  | halts {first last : Config σ T} (start : (Config.initial setup store).fetch setup = .next first)
    (head : (setup.trail store).head? = some first)
    (chain : (setup.trail store).IsChain fun c c' => c.step setup = .next c')
    (final : (setup.trail store).getLast? = some last)
    (halt : last.step setup = .halt (setup.run store))

/-- What the type does in the course of a run comes to an end. -/
structure Setup.Responds (setup : Setup σ T) (store : Store σ T) : Prop where
  readRaises : setup.type.ReadRaises (· ≠ .starved)
  operations : ∀ tokens c, setup.Reaches store tokens c →
    ¬ setup.type.Fails setup.generator c.store.source .starved

namespace Setup

variable {setup : Setup σ T} {store : Store σ T}

theorem completes (setup : Setup σ T) (store : Store σ T) : setup.Completes store := by
  cases hread : ((Cursor.start setup.input).next setup.type).token with
  | error f =>
    have hfetch : (Config.initial setup store).fetch setup = .halt _ := fetch_initial hread
    exact .unreadable hread (by rw [trail, hfetch]) (by rw [run, hfetch])
  | ok token =>
    cases hfetch : (Config.initial setup store).fetch setup with
    | next c =>
      have htrail : setup.trail store = c.trail setup := by rw [trail, hfetch]
      have hrun : setup.run store = c.run setup := by rw [run, hfetch]
      obtain ⟨last, hlast, hhalt⟩ := c.exists_getLast?_trail setup
      refine .halts hfetch ?_ (htrail ▸ c.isChain_trail setup) (htrail ▸ hlast) (hrun ▸ hhalt)
      rw [htrail, Config.trail]
      rfl
    | halt o => simp [Config.fetch, Config.initial, hread] at hfetch

/-- Whenever a run is broken off, what has been reduced is paid for. -/
theorem Reaches.length_reductions_le {tokens : List (Token T)} {c : Config σ T}
    (h : setup.Reaches store tokens c) {init : List (Config σ T)} (hinit : init <+: c.trail setup) :
    (init.flatMap Config.reductions).length ≤ (init.flatMap Config.shifted).length + c.pending := by
  induction c using Config.run_induction setup generalizing tokens init with
  | halt c o hstep =>
    rw [Config.trail_of_step_halt hstep, List.prefix_cons_iff] at hinit
    rcases hinit with rfl | ⟨init, rfl, hinit⟩
    · exact Nat.zero_le _
    · have hreductions := h.valid.length_reductions_le
      rw [List.prefix_nil.1 hinit, List.flatMap_singleton, List.flatMap_singleton]
      omega
  | next c c' hstep ih =>
    rw [Config.trail_of_step_next hstep, List.prefix_cons_iff] at hinit
    rcases hinit with rfl | ⟨init, rfl, hinit⟩
    · exact Nat.zero_le _
    · have hfirst := (h.valid.accounts (Config.move_of_step hstep)).1
      have hrest := ih (h.step hstep) hinit
      rw [List.flatMap_cons, List.flatMap_cons, List.length_append, List.length_append]
      omega

theorem Reaches.length_trail_le {tokens : List (Token T)} {c : Config σ T}
    (h : setup.Reaches store tokens c) :
    (c.trail setup).length
      ≤ 4 * ((c.trail setup).flatMap Config.shifted).length + c.allowance := by
  induction c using Config.run_induction setup generalizing tokens with
  | halt c o hstep =>
    have hallowance := c.allowance_pos
    rw [Config.trail_of_step_halt hstep, List.length_singleton]
    omega
  | next c c' hstep ih =>
    have hfirst := (h.valid.accounts (Config.move_of_step hstep)).2
    have hrest := ih (h.step hstep)
    rw [Config.trail_of_step_next hstep, List.flatMap_cons, List.length_append, List.length_cons]
    omega

theorem run_accounts (setup : Setup σ T) (store : Store σ T) :
    (∀ init, init <+: setup.trail store →
      (init.flatMap Config.reductions).length ≤ (init.flatMap Config.shifted).length) ∧
    (setup.trail store).length
      ≤ 4 * ((setup.trail store).flatMap Config.shifted).length + 2 := by
  unfold trail
  split
  · next c hfetch =>
    have hreaches := Reaches.start hfetch
    -- At the start no item is on the stack but the first one.
    obtain ⟨token, -, rfl⟩ := exists_of_fetch_initial hfetch
    exact ⟨fun init hinit => hreaches.length_reductions_le hinit, hreaches.length_trail_le⟩
  · refine ⟨fun init hinit => ?_, by simp⟩
    rw [List.prefix_nil.1 hinit]
    exact Nat.le_refl _

theorem Responds.result_ne (h : setup.Responds store) :
    (setup.run store).result ≠ .error .starved := by
  intro hf
  rcases fails_or_refuses hf with ⟨text, htext⟩ | ⟨tokens, c, hreaches, hfails⟩ | hunknown |
    ⟨_, _, _, he, _⟩
  · exact h.readRaises text _ htext rfl
  · exact h.operations tokens c hreaches hfails
  · cases hunknown
  · cases he

end Setup

/-! ## Random sources that let draws return -/

namespace Generator

/-- Drawing words leads from one state to the other. -/
def DrawsTo (g : Generator σ) (s s' : σ) : Prop :=
  ∃ n, (fun s => (g.nextWord s).2)^[n] s = s'

variable {g : Generator σ} {s s' s'' : σ}

theorem DrawsTo.next (h : g.DrawsTo s s') {r : Except NonFinite Int}
    (hw : g.nextWord s' = (r, s'')) : g.DrawsTo s s'' := by
  obtain ⟨n, rfl⟩ := h
  exact ⟨n + 1, by rw [Function.iterate_succ_apply', hw]⟩

theorem DrawsTo.draw64 (h : g.DrawsTo s s') : g.DrawsTo s (g.draw64 s').2 := by
  unfold Generator.draw64
  split
  · next hhigh => exact h.next hhigh
  · next hhigh =>
    split
    · next hlow => exact (h.next hhigh).next hlow
    · next hlow => exact (h.next hhigh).next hlow

theorem DrawsTo.drawBelow (h : g.DrawsTo s s') (limit : Int) (tries : Nat) :
    g.DrawsTo s (g.drawBelow limit tries s').2 := by
  induction tries generalizing s' with
  | zero => exact h
  | succ tries ih =>
    have hdraw := h.draw64
    unfold Generator.drawBelow
    split
    · next heq =>
      rw [heq] at hdraw
      exact hdraw
    · next heq =>
      rw [heq] at hdraw
      split
      · exact hdraw
      · exact ih hdraw

end Generator

/-- The operations on integers change the random source by drawing words only. -/
theorem int64_keeps_drawsTo (g : Generator σ) (s : σ) :
    (int64 : NumericType σ Int).Keeps g (g.DrawsTo s) fun _ => True where
  literal _ _ _ _ := trivial
  apply _ _ _ _ _ _ _ := trivial
  negate _ _ _ _ := trivial
  fromNumber _ _ _ := trivial
  direct _ _ _ _ _ _ _ := trivial
  random s' hs := ⟨fun _ _ => trivial, hs.draw64⟩
  randomBetween a b s' _ _ hs := by
    refine ⟨fun _ _ => trivial, ?_⟩
    show g.DrawsTo s (Int64.randomBetween g a b s').2
    unfold Int64.randomBetween
    dsimp only
    split
    · exact hs.draw64
    · exact hs.drawBelow _ _

theorem float64_responds (g : Generator σ) (input : Text) (store : Store σ Float) :
    Setup.Responds ⟨float64, g, input⟩ store where
  readRaises := float64_readRaises _
  operations _ _ _ hfails := (float64_raises g fun _ => False).of_fails hfails

theorem int64_responds {g : Generator σ} {input : Text} {store : Store σ Int}
    (h : ∀ s, g.DrawsTo store.source s → ∀ a b, (Int64.randomBetween g a b s).1 ≠ .error .starved) :
    Setup.Responds ⟨int64, g, input⟩ store where
  readRaises := by
    intro text f hf
    obtain ⟨_, rfl | rfl⟩ := int64_readRaises text f hf <;> exact nofun
  operations := by
    intro tokens c hreaches hfails
    obtain ⟨a, b, hdraw⟩ := int64_fails_starved hfails
    have hkeeps := hreaches.keeps (int64_keeps_drawsTo g store.source)
      ⟨fun _ _ => trivial, 0, rfl⟩
    exact h c.store.source hkeeps.store.source a b hdraw

/-- A draw of zero is below each limit. -/
theorem Int64.randomBetween_ne_starved {g : Generator σ} {s s' : σ}
    (h : g.draw64 s = (.ok 0, s')) (a b : Int) :
    (randomBetween g a b s).1 ≠ .error .starved := by
  unfold randomBetween random
  dsimp only
  split
  · rw [h]
    exact nofun
  · next hspan =>
    have hpos : 0 < drawLimit (max a b - min a b + 1) := by
      have hlt := Int.emod_lt_of_pos count (show 0 < max a b - min a b + 1 by omega)
      rw [drawLimit]
      omega
    rw [Generator.drawBelow, h]
    dsimp only
    rw [if_pos hpos]
    exact nofun

namespace Setup

/-- **Parsing terminates.** A run is a finite chain of transitions whose last one halts. It gives back
a value or throws, if what the type does in its course comes to an end; that is so for floats, and
for integers if the random source lets the draws between two bounds return. A run has at most four
configurations for each token read and two more. Each pass of a loop reads a token, reduces past
the loop, accepts or throws. The tokens that are read are the first ones of the text, one after the
other, and at no time have there been more reductions than tokens read. -/
theorem run_terminates :
    (∀ (g : Generator σ) (input : Text) (store : Store σ Float),
      Responds ⟨float64, g, input⟩ store) ∧
    (∀ (g : Generator σ) (input : Text) (store : Store σ Int),
      (∀ s, g.DrawsTo store.source s →
        ∀ a b, (Int64.randomBetween g a b s).1 ≠ .error .starved) →
      Responds ⟨int64, g, input⟩ store) ∧
    ∀ (setup : Setup σ T) (store : Store σ T),
      setup.Completes store ∧
      (setup.Responds store → (setup.run store).result ≠ .error .starved) ∧
      (setup.trail store).length
        ≤ 4 * ((setup.trail store).flatMap Config.shifted).length + 2 ∧
      (∀ (c : Config σ T) (place next : Item) (outer : List Item), c.control = .resume →
        c.frames = place :: outer → place.afterOperand? = some next → c.continues = true →
        ∃ c', c.step setup = .next c' ∧ c'.control = .enter next ∧ c'.Pass setup outer) ∧
      (setup.trail store).flatMap Config.shifted <+: (tokenize setup.type setup.input).tokens ∧
      ∀ init, init <+: setup.trail store →
        (init.flatMap Config.reductions).length ≤ (init.flatMap Config.shifted).length := by
  refine ⟨float64_responds, fun g input store => int64_responds, fun setup store => ?_⟩
  obtain ⟨hreductions, hlength⟩ := setup.run_accounts store
  refine ⟨setup.completes store, Responds.result_ne, hlength, ?_,
    setup.flatMap_shifted_isPrefix store, hreductions⟩
  intro c place next outer control frames after continues
  exact ⟨_, Config.step_of_goOn control frames after continues, rfl,
    Config.pass_of_enter rfl frames after⟩

/-- Two dice, with a source that draws nothing but zeros. -/
theorem run_terminates_dice :
    let setup : Setup RandomSource Int :=
      ⟨int64, RandomSource.generator, Text.ofString "rand(1, 6) + rand(1, 6)"⟩
    let store : Store RandomSource Int := ⟨.empty, .listed ⟨[0]⟩ ⟨[]⟩⟩
    setup.Responds store ∧ setup.Completes store ∧ (setup.run store).result ≠ .error .starved ∧
      ((setup.trail store).flatMap Config.reductions).length
        ≤ ((setup.trail store).flatMap Config.shifted).length := by
  intro setup store
  have hdraw : setup.generator.draw64 store.source = (.ok 0, store.source) := rfl
  have hsource : ∀ s, setup.generator.DrawsTo store.source s → s = store.source := by
    rintro _ ⟨n, rfl⟩
    exact Function.iterate_fixed rfl n
  obtain ⟨-, hint64, hall⟩ := run_terminates (σ := RandomSource) (T := Int)
  have hresponds : setup.Responds store := by
    refine hint64 _ _ _ fun s hs a b => ?_
    rw [hsource s hs]
    exact Int64.randomBetween_ne_starved hdraw a b
  obtain ⟨hcompletes, hresult, -, -, -, hreductions⟩ := hall setup store
  exact ⟨hresponds, hcompletes, hresult hresponds, hreductions _ List.prefix_rfl⟩

end Setup

end Calculator
