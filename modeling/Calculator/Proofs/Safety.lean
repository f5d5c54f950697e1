import Calculator.Proofs.Refusal
import Calculator.Random.Source

/-!
# The automaton never goes wrong

`Setup.run_never_goes_wrong`: the errors of an operand stack that does not fit are never raised.
Each reduction finds the operands that its production replaces, with every identifier in its place
and under the name that was written, and what is accepted is one value with nothing left to unwind.

An identifier has its place in the target of an assignment, in the callee of a call and in the
variable that is read; all other operands that a reduction replaces are values.

The operands follow from the invariant of a run (`Setup.Reaches.valid`). Faults can come from the
numeric type, from an unknown name or from a refusal only (`Setup.raised_or_refuses`), and none of
these is internal.
-/

namespace Calculator

variable {σ T : Type}

theorem Fault.IsRefusal.not_isInternal {f : Fault} (h : f.IsRefusal) : ¬ f.IsInternal := by
  cases h <;> exact nofun

/-- The operations of the type do not raise the errors of the automaton. -/
structure NumericType.Behaves (type : NumericType σ T) (g : Generator σ) : Prop where
  raises : type.Raises g fun f => ¬ f.IsInternal
  readRaises : type.ReadRaises fun f => ¬ f.IsInternal

theorem float64_behaves (g : Generator σ) : (float64 : NumericType σ Float).Behaves g :=
  ⟨float64_raises g _, float64_readRaises _⟩

theorem int64_behaves (g : Generator σ) : (int64 : NumericType σ Int).Behaves g where
  raises := by
    refine (int64_raises g).mono fun f hf => ?_
    rcases hf with hf | hf
    · exact hf.not_isInternal
    · exact hf.not_isInternal
  readRaises text f h := by
    obtain ⟨_, rfl | rfl⟩ := int64_readRaises text f h
    · exact nofun
    · exact nofun

/-- What a configuration of a run keeps to that has read the given tokens. -/
structure Config.Safe (setup : Setup σ T) (c : Config σ T) (tokens : List (Token T)) : Prop where
  /-- A reduction replaces the operands of a handle and no others: an unresolved identifier for a
  variable that is read, for the target of an assignment and for a callee, under the name that was
  written there, and values for the rest. -/
  reduces : ∀ item p, c.control = .enter item → item.action c.ahead.terminal = .reduce p →
    ∃ popped rest read handle x, c.operands = popped ++ rest ∧ tokens = read ++ handle ∧
      p.Handle popped handle ∧ p.evaluate setup c.operands = Evaluation.onto rest x
  accepts : c.accepted = true → (∃ a, c.operands = [.value a]) ∧ c.unwind = 0

namespace Config.Valid

variable {setup : Setup σ T} {c : Config σ T} {tokens : List (Token T)}

theorem safe (h : c.Valid tokens) (setup : Setup σ T) : c.Safe setup tokens where
  reduces item p control action := by
    obtain ⟨popped, rest, read, handle, hoperands, htokens, hhandle⟩ :=
      h.exists_handle control action
    obtain ⟨x, hx, _⟩ := hhandle.exists_onto setup rest
    exact ⟨popped, rest, read, handle, x, hoperands, htokens, hhandle, hoperands ▸ hx⟩
  accepts haccepted := by
    cases h with
    | entered _ _ accepted => rw [haccepted] at accepted; cases accepted
    | reduced _ accepted => rw [haccepted] at accepted; cases accepted
    | @accepted a _ _ unwind operands => exact ⟨⟨a, operands⟩, unwind⟩

end Config.Valid

namespace Setup

/-- **The automaton never goes wrong.** With a numeric type whose operations do not raise them, no
evaluation raises the errors of the automaton; floats and integers are such types. With any type,
all configurations of a run are safe: the identifiers that a reduction replaces are assignment
targets, callees and, in the production that reads a variable, the variable itself, which is looked
up only then. -/
theorem run_never_goes_wrong :
    (∀ g : Generator σ, (float64 : NumericType σ Float).Behaves g) ∧
    (∀ g : Generator σ, (int64 : NumericType σ Int).Behaves g) ∧
    ∀ (setup : Setup σ T) (store : Store σ T),
      (setup.type.Behaves setup.generator →
        ∀ f, (setup.run store).result = .error f → ¬ f.IsInternal) ∧
      ∀ tokens c, setup.Reaches store tokens c → c.Safe setup tokens := by
  refine ⟨float64_behaves, int64_behaves, fun setup store => ⟨?_, ?_⟩⟩
  · intro hbehaves f hf
    rcases raised_or_refuses hf hbehaves.raises hbehaves.readRaises with
      hraised | hunknown | ⟨tokens, last, e, rfl, hrefuses⟩
    · exact hraised
    · exact hunknown.not_isInternal
    · obtain ⟨c, item, -, -, -, -, rfl⟩ := hrefuses
      exact (c.isRefusal_refusal setup item).not_isInternal
  · intro tokens c hreaches
    exact hreaches.valid.safe setup

/-- Integers with a seeded source. -/
theorem run_int64_never_goes_wrong :
    (int64 : NumericType RandomSource Int).Behaves RandomSource.generator ∧
    ∀ f, (Setup.run ⟨int64, RandomSource.generator, Text.ofString "f(x = 1) / 0"⟩
      ⟨.empty, .seeded 1⟩).result = .error f → ¬ f.IsInternal :=
  ⟨int64_behaves _, (run_never_goes_wrong.2.2 _ _).1 (int64_behaves _)⟩

/-- Assignments and calls are not the only productions that replace an identifier: the one that
reads a variable does so too. Were the variable a value by then, no name could be unknown, and the
product would be zero whatever the value is. -/
theorem run_pops_identifier :
    let setup : Setup RandomSource Int := ⟨int64, RandomSource.generator, Text.ofString "x * 0"⟩
    let store : Store RandomSource Int := ⟨.ofList [(Text.ofString "pi", 3)], .seeded 1⟩
    (¬ ∀ tokens c item p popped rest read handle, setup.Reaches store tokens c →
        c.control = .enter item → item.action c.ahead.terminal = .reduce p →
        c.operands = popped ++ rest → tokens = read ++ handle → p.Handle popped handle →
        ∀ o ∈ popped, (∃ a, o = .value a) ∨ p ∈ [.assign, .call0, .call1, .call2]) ∧
      (setup.run store).result = .error (.error (.unknownVariable (Text.ofString "x"))) := by
  intro setup store
  let x : Token Int := ⟨.identifier (Text.ofString "x"), 0⟩
  let start : Config RandomSource Int :=
    { Config.initial setup store with ahead := x, cursor := ⟨1, Text.ofString " * 0"⟩ }
  let behind : Config RandomSource Int :=
    { start with
      control := .enter .afterIdent, frames := [.start]
      operands := [.identifier (Text.ofString "x")]
      ahead := ⟨.punctuation .star, 2⟩, cursor := ⟨3, Text.ofString " 0"⟩ }
  have hstart : setup.Reaches store [] start := .start rfl
  have hbehind : setup.Reaches store [x] behind := hstart.step rfl
  have hstep : behind.step setup =
      .halt ⟨.error (.error (.unknownVariable (Text.ofString "x"))), store, []⟩ := rfl
  refine ⟨fun h => ?_, ?_⟩
  · rcases h _ behind .afterIdent .identifier [.identifier (Text.ofString "x")] [] [] [x]
        hbehind rfl rfl rfl rfl (.identifier _ _) _ List.mem_cons_self with ⟨a, ha⟩ | hp
    · cases ha
    · simp at hp
  · rw [hbehind.run_eq, Config.run_of_step_halt hstep]

end Setup

end Calculator
