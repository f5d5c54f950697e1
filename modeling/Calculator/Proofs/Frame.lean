import Calculator.Proofs.Trail
import Calculator.Proofs.Viable
import Calculator.Random.Source

/-!
# What an evaluation touches

`Setup.run_frame`: an evaluation changes the variables only by storing under names with an equals
sign behind them, and what it does depends only on the variables that it names with neither an
equals sign nor an opening parenthesis behind them.

* `Token.uses`: the identifiers of a row of tokens, by what stands behind them.
* `Footprint`, `Evaluation.Within`: what a computation reads, calls and stores, and that it does no
  more.
* `Production.footprint`: the footprint of a reduction (`Production.Handle.exists_within`), whose
  names stand among the tokens (`Setup.Reaches.occurs`).
* `Setup.stores`, `Setup.sources`: all that an evaluation stores, and the states of the source that
  it passes through, in order.

Proof. A reduction finds the operands of its production, and only the token behind an identifier
tells which production that is. So the footprint of a reduction is known from the tokens. Two
evaluations from tables that agree on the variables go hand in hand (`Setup.run_related`): where one
reduces, so does the other, with the same footprint and the same value.
-/

namespace Calculator

variable {σ T : Type}

/-! ## Uses of names -/

namespace Token

/-- The names of the identifiers, each with the terminal behind it. -/
def uses : List (Token T) → List (Text × Option Terminal)
  | [] => []
  | t :: ts =>
    match t.lexeme with
    | .identifier name => (name, ts.head?.map terminal) :: uses ts
    | _ => uses ts

/-- The names with an equals sign behind them. -/
def assignedNames (ts : List (Token T)) : List Text :=
  ((uses ts).filter (·.2 = some (.punctuation .equals))).map (·.1)

/-- The names with an opening parenthesis behind them. -/
def calledNames (ts : List (Token T)) : List Text :=
  ((uses ts).filter (·.2 = some (.punctuation .leftParen))).map (·.1)

/-- The names with anything else behind them. -/
def variableNames (ts : List (Token T)) : List Text :=
  ((uses ts).filter fun u =>
    u.2 ≠ some (.punctuation .equals) ∧ u.2 ≠ some (.punctuation .leftParen)).map (·.1)

theorem mem_uses (before after : List (Token T)) (name : Text) (position : Nat) :
    (name, after.head?.map terminal) ∈ uses (before ++ ⟨.identifier name, position⟩ :: after) := by
  induction before with
  | nil => exact List.mem_cons_self
  | cons t ts ih =>
    rw [List.cons_append, uses]
    split
    · exact List.mem_cons_of_mem _ ih
    · exact ih

theorem exists_of_mem_uses {ts : List (Token T)} {name : Text} {u : Terminal}
    (h : (name, some u) ∈ uses ts) : ∃ t ∈ ts, t.terminal = u := by
  induction ts with
  | nil => cases h
  | cons t ts ih =>
    have hrest : (name, some u) ∈ uses ts → ∃ t' ∈ t :: ts, t'.terminal = u := by
      intro h
      obtain ⟨t', ht', hu⟩ := ih h
      exact ⟨t', List.mem_cons_of_mem t ht', hu⟩
    rw [uses] at h
    split at h
    · rcases List.mem_cons.1 h with h | h
      · obtain ⟨t', ht', hu⟩ := Option.map_eq_some_iff.1 (Prod.mk.inj h).2.symm
        exact ⟨t', List.mem_cons_of_mem t (List.mem_of_mem_head? ht'), hu⟩
      · exact hrest h
    · exact hrest h

variable {ts before after : List (Token T)} {name : Text} {position : Nat} {t : Token T}

theorem mem_assignedNames (h : ts = before ++ ⟨.identifier name, position⟩ :: t :: after)
    (ht : t.terminal = .punctuation .equals) : name ∈ assignedNames ts := by
  have hmem := mem_uses before (t :: after) name position
  rw [List.head?_cons, Option.map_some, ht] at hmem
  rw [h]
  exact List.mem_map.2 ⟨_, List.mem_filter.2 ⟨hmem, decide_eq_true rfl⟩, rfl⟩

theorem mem_calledNames (h : ts = before ++ ⟨.identifier name, position⟩ :: t :: after)
    (ht : t.terminal = .punctuation .leftParen) : name ∈ calledNames ts := by
  have hmem := mem_uses before (t :: after) name position
  rw [List.head?_cons, Option.map_some, ht] at hmem
  rw [h]
  exact List.mem_map.2 ⟨_, List.mem_filter.2 ⟨hmem, decide_eq_true rfl⟩, rfl⟩

theorem mem_variableNames (h : ts = before ++ ⟨.identifier name, position⟩ :: t :: after)
    (ht : t.terminal.isFollow = true) : name ∈ variableNames ts := by
  have hmem := mem_uses before (t :: after) name position
  rw [List.head?_cons, Option.map_some] at hmem
  rw [h]
  refine List.mem_map.2 ⟨_, List.mem_filter.2 ⟨hmem, decide_eq_true ⟨?_, ?_⟩⟩, rfl⟩
  · intro heq
    rw [Option.some.inj heq] at ht
    cases ht
  · intro heq
    rw [Option.some.inj heq] at ht
    cases ht

/-- Without an equals sign there are no names in front of one. -/
theorem assignedNames_eq_nil (h : ∀ t ∈ ts, t.terminal ≠ .punctuation .equals) :
    assignedNames ts = [] := by
  refine List.map_eq_nil_iff.2 (List.filter_eq_nil_iff.2 fun u hu hequals => ?_)
  obtain ⟨name, follow⟩ := u
  obtain rfl : follow = some (.punctuation .equals) := of_decide_eq_true hequals
  obtain ⟨t, ht, hterminal⟩ := exists_of_mem_uses hu
  exact h t ht hterminal

end Token

/-! ## Footprints -/

/-- The names that a computation reads and calls, and what it stores. -/
structure Footprint (T : Type) where
  read : List Text := []
  called : List Text := []
  stored : List (Text × T) := []

/-- The tables have the same values, or none, under all of the names. -/
def SymbolTable.AgreeOn (names : List Text) (t t' : SymbolTable T) : Prop :=
  ∀ x ∈ names, t'.get? x = t.get? x

theorem SymbolTable.AgreeOn.insertAll {names : List Text} {t t' : SymbolTable T}
    (h : AgreeOn names t t') (pairs : List (Text × T)) :
    AgreeOn names (t.insertAll pairs) (t'.insertAll pairs) := by
  intro x hx
  rw [get?_insertAll, get?_insertAll, h x hx]

theorem SymbolTable.AgreeOn.read_eq {names : List Text} {t t' : SymbolTable T}
    (h : AgreeOn names t t') {x : Text} (hx : x ∈ names) : t'.read x = t.read x := by
  rw [read, read, h x hx]

/-- The computation stores what the footprint says; what it gives and what it draws depends on no
variable but those that are read; and it draws only if `rand` is called. -/
structure Evaluation.Within (x : Evaluation σ T T) (f : Footprint T) : Prop where
  symbols : ∀ s, (x s).2.symbols = s.symbols.insertAll f.stored
  agree : ∀ (s : Store σ T) (symbols : SymbolTable T),
    SymbolTable.AgreeOn f.read s.symbols symbols →
      (x ⟨symbols, s.source⟩).1 = (x s).1 ∧ (x ⟨symbols, s.source⟩).2.source = (x s).2.source
  source : randName ∉ f.called → ∀ s, (x s).2.source = s.source

namespace Evaluation

theorem within_pure (a : T) : (pure a : Evaluation σ T T).Within {} where
  symbols _ := rfl
  agree _ _ _ := ⟨rfl, rfl⟩
  source _ _ := rfl

theorem within_liftM (r : Except Fault T) (f : Footprint T) (h : f.stored = []) :
    (liftM r : Evaluation σ T T).Within f where
  symbols s := by rw [liftM_apply, h]; rfl
  agree s symbols _ := by simp
  source _ s := by rw [liftM_apply]

theorem within_resolve (name : Text) :
    (resolve (.identifier name) : Evaluation σ T T).Within { read := [name] } where
  symbols s := by rw [resolve_identifier_apply]; rfl
  agree s symbols h := by
    rw [resolve_identifier_apply, resolve_identifier_apply]
    exact ⟨h.read_eq (List.mem_singleton_self name), rfl⟩
  source _ s := by rw [resolve_identifier_apply]

theorem within_store (name : Text) (a : T) :
    (do Evaluation.store name a; return a : Evaluation σ T T).Within
      { stored := [(name, a)] } where
  symbols s := by rw [store_apply]; rfl
  agree s symbols _ := by simp
  source _ s := by rw [store_apply]

theorem within_draw {x : σ → Except Fault T × σ} {name : Text}
    (h : name ≠ randName → ∀ s, (x s).2 = s) :
    (draw x : Evaluation σ T T).Within { called := [name] } where
  symbols s := by rw [draw_apply]; rfl
  agree s symbols _ := by simp
  source hname s := by
    rw [draw_apply]
    exact h (fun heq => hname (List.mem_singleton.2 heq.symm)) s.source

end Evaluation

namespace NumericType

variable (type : NumericType σ T) (g : Generator σ) {name : Text}

/-- Only a call of `rand` looks at the source. -/
theorem call0_of_ne (h : name ≠ randName) (s s' : σ) :
    type.call0 g name s' = ((type.call0 g name s).1, s') := by
  rw [call0, call0, if_neg h, if_neg h]

theorem call0_source (h : name ≠ randName) (s : σ) : (type.call0 g name s).2 = s := by
  rw [type.call0_of_ne g h s s]

theorem call2_of_ne (h : name ≠ randName) (a b : T) (s s' : σ) :
    type.call2 g name a b s' = ((type.call2 g name a b s).1, s') := by
  unfold call2
  cases hname : BinaryFunction.ofName? name with
  | none => rfl
  | some f =>
    cases f with
    | pow | atan2 | mod => rfl
    | rand =>
      have hrand := List.find?_some hname
      exact absurd (eq_of_beq hrand).symm h

theorem call2_source (h : name ≠ randName) (a b : T) (s : σ) :
    (type.call2 g name a b s).2 = s := by
  rw [type.call2_of_ne g h a b s s]

end NumericType

namespace Production

/-- The footprint of a reduction of the operands. -/
def footprint : Production → List (Operand T) → Footprint T
  | .identifier, .identifier name :: _ => { read := [name] }
  | .assign, .value a :: .identifier name :: _ => { stored := [(name, a)] }
  | .call0, .identifier name :: _ => { called := [name] }
  | .call1, _ :: .identifier name :: _ => { called := [name] }
  | .call2, _ :: _ :: .identifier name :: _ => { called := [name] }
  | _, _ => {}

variable {p : Production} {popped : List (Operand T)} {handle : List (Token T)}

/-- The reduction of a handle keeps within its footprint. -/
theorem Handle.exists_within (h : p.Handle popped handle) (setup : Setup σ T)
    (rest : List (Operand T)) :
    ∃ x, p.evaluate setup (popped ++ rest) = Evaluation.onto rest x ∧
      x.Within (p.footprint (popped ++ rest)) := by
  cases h with
  | number a text position => exact ⟨_, evaluate_number .., Evaluation.within_pure a⟩
  | identifier name position => exact ⟨_, evaluate_identifier .., Evaluation.within_resolve name⟩
  | sign s a ht he => exact ⟨_, evaluate_sign .., Evaluation.within_liftM _ _ rfl⟩
  | binary op a b hl ht hr => exact ⟨_, evaluate_binary .., Evaluation.within_liftM _ _ rfl⟩
  | bracket a hl he hr => exact ⟨_, evaluate_bracket .., Evaluation.within_pure a⟩
  | assign name position a ht he => exact ⟨_, evaluate_assign .., Evaluation.within_store name a⟩
  | call0 name position hl hr =>
    exact ⟨_, evaluate_call0 .., Evaluation.within_draw (setup.type.call0_source _)⟩
  | call1 name position a hl he hr =>
    exact ⟨_, evaluate_call1 .., Evaluation.within_liftM _ _ rfl⟩
  | call2 name position a b hl hd hm he hr =>
    exact ⟨_, evaluate_call2 .., Evaluation.within_draw fun hname =>
      setup.type.call2_source _ hname a b⟩

end Production

/-- The names of the footprint occur among the tokens, each in its use. -/
structure Footprint.Occurs (f : Footprint T) (ts : List (Token T)) : Prop where
  read : f.read ⊆ Token.variableNames ts
  called : f.called ⊆ Token.calledNames ts
  stored : f.stored.map (·.1) ⊆ Token.assignedNames ts

theorem Footprint.occurs_empty (ts : List (Token T)) : ({} : Footprint T).Occurs ts :=
  ⟨List.nil_subset _, List.nil_subset _, List.nil_subset _⟩

theorem Footprint.occurs_called {ts before after : List (Token T)} {name : Text} {position : Nat}
    {t : Token T} (h : ts = before ++ ⟨.identifier name, position⟩ :: t :: after)
    (ht : t.terminal = .punctuation .leftParen) :
    ({ called := [name] } : Footprint T).Occurs ts :=
  ⟨List.nil_subset _, List.cons_subset.2 ⟨Token.mem_calledNames h ht, List.nil_subset _⟩,
    List.nil_subset _⟩

/-- What a handle reads, calls and stores, its tokens name, together with the one behind them. -/
theorem Production.Handle.occurs {p : Production} {popped : List (Operand T)}
    {handle : List (Token T)} (h : p.Handle popped handle) (rest : List (Operand T))
    {ts before after : List (Token T)} {ahead : Token T}
    (hts : ts = before ++ (handle ++ ahead :: after)) (hahead : ahead.terminal.isFollow = true) :
    (p.footprint (popped ++ rest)).Occurs ts := by
  cases h with
  | number a text position => exact Footprint.occurs_empty ts
  | identifier name position =>
    exact ⟨List.cons_subset.2 ⟨Token.mem_variableNames hts hahead, List.nil_subset _⟩,
      List.nil_subset _, List.nil_subset _⟩
  | sign s a ht he => exact Footprint.occurs_empty ts
  | binary op a b hl ht hr => exact Footprint.occurs_empty ts
  | bracket a hl he hr => exact Footprint.occurs_empty ts
  | assign name position a ht he =>
    exact ⟨List.nil_subset _, List.nil_subset _,
      List.cons_subset.2 ⟨Token.mem_assignedNames hts ht, List.nil_subset _⟩⟩
  | call0 name position hl hr => exact Footprint.occurs_called hts hl
  | call1 name position a hl he hr =>
    rw [List.append_assoc] at hts
    exact Footprint.occurs_called hts hl
  | call2 name position a b hl hd hm he hr =>
    rw [List.append_assoc, List.append_assoc] at hts
    exact Footprint.occurs_called hts hl

/-! ## Footprints of transitions -/

/-- The store after a transition. -/
def Transition.store : Transition σ T → Store σ T
  | next c => c.store
  | halt o => o.store

namespace Config

/-- The footprint of a transition. -/
def footprint (c : Config σ T) : Footprint T :=
  match c.control with
  | .enter item =>
    match item.action c.ahead.terminal with
    | .reduce p => p.footprint c.operands
    | _ => {}
  | .resume => {}

theorem footprint_of_reduce {c : Config σ T} {item : Item} {p : Production}
    (control : c.control = .enter item) (action : item.action c.ahead.terminal = .reduce p) :
    c.footprint = p.footprint c.operands := by
  simp only [footprint, control, action]

theorem store_fetch (setup : Setup σ T) (c : Config σ T) : (c.fetch setup).store = c.store := by
  unfold fetch
  dsimp only
  split <;> rfl

theorem store_finish (setup : Setup σ T) (c : Config σ T) : (c.finish setup).store = c.store := by
  unfold finish
  split
  · next top _ _ =>
    cases top with
    | value a => rfl
    | identifier name => exact congrArg Prod.snd (Evaluation.resolve_identifier_apply name c.store)
  · rfl

theorem store_resume (setup : Setup σ T) (c : Config σ T) : (c.resume setup).store = c.store := by
  unfold resume
  split
  · exact store_finish setup c
  · split <;> rfl

theorem store_reduce (setup : Setup σ T) (p : Production) (c : Config σ T) :
    (c.reduce setup p).store = (p.evaluate setup c.operands c.store).2 := by
  unfold reduce
  dsimp only
  split <;> rfl

/-- A transition reduces a production, or else it leaves the store as it is. -/
theorem reduces_or_idle (c : Config σ T) :
    (∃ item p, c.control = .enter item ∧ item.action c.ahead.terminal = .reduce p) ∨
    c.footprint = {} ∧ ∀ setup : Setup σ T, (c.step setup).store = c.store := by
  cases control : c.control with
  | resume =>
    refine .inr ⟨by simp only [footprint, control], fun setup => ?_⟩
    rw [step_of_resume control, store_resume]
  | enter item =>
    cases action : item.action c.ahead.terminal with
    | reduce p => exact .inl ⟨item, p, rfl, action⟩
    | shift next =>
      refine .inr ⟨by simp only [footprint, control, action], fun setup => ?_⟩
      rw [step_of_shift control action, shift, store_fetch]
    | accept =>
      refine .inr ⟨by simp only [footprint, control, action], fun setup => ?_⟩
      rw [step_of_accept control action]
      rfl
    | fail =>
      refine .inr ⟨by simp only [footprint, control, action], fun setup => ?_⟩
      rw [step_of_fail control action]
      rfl

variable {c : Config σ T} {tokens : List (Token T)}

/-- A transition stores what its footprint says, and draws only if that calls `rand`. -/
theorem Valid.store_step (h : c.Valid tokens) (setup : Setup σ T) :
    (c.step setup).store.symbols = c.store.symbols.insertAll c.footprint.stored ∧
      (randName ∉ c.footprint.called → (c.step setup).store.source = c.store.source) := by
  rcases c.reduces_or_idle with ⟨item, p, control, action⟩ | ⟨hfootprint, hstore⟩
  · obtain ⟨popped, rest, _, _, hoperands, _, hhandle⟩ := h.exists_handle control action
    obtain ⟨x, hx, hwithin⟩ := hhandle.exists_within setup rest
    have hstore : (c.step setup).store = (x c.store).2 := by
      rw [step_of_reduce control action, store_reduce, hoperands, hx, Evaluation.onto_apply]
      rcases x c.store with ⟨_ | _, _⟩ <;> rfl
    rw [hstore, footprint_of_reduce control action, hoperands]
    exact ⟨hwithin.symbols c.store, fun hname => hwithin.source hname c.store⟩
  · rw [hfootprint, hstore]
    exact ⟨rfl, fun _ => rfl⟩

end Config

namespace Setup

variable {setup : Setup σ T} {store : Store σ T} {tokens : List (Token T)} {c : Config σ T}

/-- A transition names what it reads, calls and stores. -/
theorem Reaches.occurs (h : setup.Reaches store tokens c) :
    c.footprint.Occurs (tokenize setup.type setup.input).tokens := by
  rcases c.reduces_or_idle with ⟨item, p, control, action⟩ | ⟨hfootprint, _⟩
  · obtain ⟨after, hafter⟩ := h.isPrefix_tokenize
    obtain ⟨popped, rest, read, handle, hoperands, htokens, hhandle⟩ :=
      h.valid.exists_handle control action
    have hts : (tokenize setup.type setup.input).tokens
        = read ++ (handle ++ c.ahead :: after) := by
      rw [← hafter, htokens]
      simp
    rw [Config.footprint_of_reduce control action, hoperands]
    exact hhandle.occurs rest hts (Item.completes_of_action action).2
  · rw [hfootprint]
    exact Footprint.occurs_empty _

end Setup

/-! ## What a run stores and draws -/

/-- All that an evaluation stores, in order. -/
def Setup.stores (setup : Setup σ T) (store : Store σ T) : List (Text × T) :=
  (setup.trail store).flatMap fun c => c.footprint.stored

/-- The states of the random source that an evaluation passes through. -/
def Setup.sources (setup : Setup σ T) (store : Store σ T) : List σ :=
  (setup.trail store).flatMap fun c => [c.store.source]

namespace Setup

variable {setup : Setup σ T} {store : Store σ T} {tokens : List (Token T)} {c : Config σ T}

theorem Reaches.store_run (h : setup.Reaches store tokens c) :
    (c.run setup).store.symbols
      = c.store.symbols.insertAll ((c.trail setup).flatMap fun c => c.footprint.stored) ∧
    (randName ∉ Token.calledNames (tokenize setup.type setup.input).tokens →
      (c.run setup).store.source = c.store.source) := by
  induction c using Config.descends_wf.induction generalizing tokens with
  | _ c ih =>
    obtain ⟨hsymbols, hsource⟩ := h.valid.store_step setup
    have hcalled := h.occurs.called
    cases hc : c.step setup with
    | next c' =>
      rw [hc] at hsymbols hsource
      obtain ⟨ihsymbols, ihsource⟩ := ih c' (Config.step_descends hc) (h.step hc)
      rw [Config.run_of_step_next hc, Config.trail_of_step_next hc, List.flatMap_cons,
        SymbolTable.insertAll_append, ← hsymbols]
      exact ⟨ihsymbols, fun hrand => (ihsource hrand).trans (hsource fun h => hrand (hcalled h))⟩
    | halt o =>
      rw [hc] at hsymbols hsource
      rw [Config.run_of_step_halt hc, Config.trail_of_step_halt hc, List.flatMap_singleton]
      exact ⟨hsymbols, fun hrand => hsource fun h => hrand (hcalled h)⟩

/-- The variables after an evaluation are those before it, with all that it stores; and it draws
only if `rand` is called. -/
theorem store_run (setup : Setup σ T) (store : Store σ T) :
    (setup.run store).store.symbols = store.symbols.insertAll (setup.stores store) ∧
    (randName ∉ Token.calledNames (tokenize setup.type setup.input).tokens →
      (setup.run store).store.source = store.source) := by
  have hstore := Config.store_fetch setup (Config.initial setup store)
  unfold run stores trail
  cases hfetch : (Config.initial setup store).fetch setup with
  | next c =>
    rw [hfetch] at hstore
    obtain rfl : c.store = store := hstore
    exact (Reaches.start hfetch).store_run
  | halt o =>
    rw [hfetch] at hstore
    obtain rfl : o.store = store := hstore
    exact ⟨rfl, fun _ => rfl⟩

/-- What is stored is stored under names with an equals sign behind them. -/
theorem stores_occur (setup : Setup σ T) (store : Store σ T) :
    (setup.stores store).map (·.1)
      ⊆ Token.assignedNames (tokenize setup.type setup.input).tokens := by
  intro x hx
  obtain ⟨p, hp, rfl⟩ := List.mem_map.1 hx
  obtain ⟨c, hc, hstored⟩ := List.mem_flatMap.1 hp
  obtain ⟨tokens, hreaches⟩ := reaches_of_mem_trail hc
  exact hreaches.occurs.stored (List.mem_map.2 ⟨p, hstored, rfl⟩)

end Setup

/-! ## Evaluations from two tables -/

namespace Config

variable {setup : Setup σ T} {c : Config σ T} {tokens : List (Token T)} {names : List Text}
  {symbols : SymbolTable T}

/-- The configuration with other variables. -/
def withSymbols (c : Config σ T) (symbols : SymbolTable T) : Config σ T :=
  { c with store := ⟨symbols, c.store.source⟩ }

/-- The same configuration but for the variables, which agree on the names. -/
def AgreesOn (names : List Text) (c c' : Config σ T) : Prop :=
  ∃ symbols, SymbolTable.AgreeOn names c.store.symbols symbols ∧ c' = c.withSymbols symbols

end Config

/-- The same outcome but for the variables. -/
def Outcome.Matches (o o' : Outcome σ T) : Prop :=
  o'.result = o.result ∧ o'.store.source = o.store.source ∧ o'.warnings = o.warnings

namespace Config

variable {setup : Setup σ T} {c : Config σ T} {tokens : List (Token T)} {names : List Text}
  {symbols : SymbolTable T}

theorem fetch_agrees (setup : Setup σ T) (c : Config σ T)
    (hagree : SymbolTable.AgreeOn names c.store.symbols symbols) :
    (c.fetch setup).Related (AgreesOn names) Outcome.Matches
      ((c.withSymbols symbols).fetch setup) := by
  simp only [fetch, withSymbols]
  cases (c.cursor.next setup.type).token with
  | ok token => exact .next ⟨symbols, hagree, rfl⟩
  | error f => exact .halt ⟨rfl, rfl, rfl⟩

theorem Valid.reduce_agrees (h : c.Valid tokens) {item : Item} {p : Production}
    (control : c.control = .enter item) (action : item.action c.ahead.terminal = .reduce p)
    (hread : (p.footprint c.operands).read ⊆ names)
    (hagree : SymbolTable.AgreeOn names c.store.symbols symbols) :
    (c.reduce setup p).Related (AgreesOn names) Outcome.Matches
      ((c.withSymbols symbols).reduce setup p) := by
  obtain ⟨popped, rest, _, _, hoperands, _, hhandle⟩ := h.exists_handle control action
  obtain ⟨x, hx, hwithin⟩ := hhandle.exists_within setup rest
  rw [hoperands] at hread
  obtain ⟨hresult, hsource⟩ := hwithin.agree c.store symbols fun n hn => hagree n (hread hn)
  have hsymbols := hwithin.symbols c.store
  have hsymbols' := hwithin.symbols ⟨symbols, c.store.source⟩
  -- Both tables get the same entries, so they go on agreeing.
  have hstored := hagree.insertAll (p.footprint (popped ++ rest)).stored
  rw [← hsymbols] at hstored
  dsimp only [reduce, withSymbols]
  rw [hoperands, hx, Evaluation.onto_apply, Evaluation.onto_apply]
  rcases hrun : x c.store with ⟨r, store⟩
  rcases hrun' : x ⟨symbols, c.store.source⟩ with ⟨r', symbols', source'⟩
  rw [hrun] at hresult hsource hstored
  rw [hrun'] at hresult hsource hsymbols'
  obtain rfl : r' = r := hresult
  obtain rfl : source' = store.source := hsource
  obtain rfl : symbols' = _ := hsymbols'
  cases r' with
  | ok a => exact .next ⟨_, hstored, rfl⟩
  | error f => exact .halt ⟨rfl, rfl, rfl⟩

theorem Valid.step_agrees_of_resume (h : c.Valid tokens) (control : c.control = .resume)
    (hagree : SymbolTable.AgreeOn names c.store.symbols symbols) :
    (c.step setup).Related (AgreesOn names) Outcome.Matches
      ((c.withSymbols symbols).step setup) := by
  have control' : (c.withSymbols symbols).control = .resume := control
  cases frames : c.frames with
  | nil =>
    obtain ⟨accepted, ⟨a, operands⟩, _⟩ := h.accepted_of_frames control frames
    rw [step_of_finish control frames, step_of_finish control' frames,
      finish_eq setup accepted operands,
      finish_eq (c := c.withSymbols symbols) setup accepted operands]
    exact .halt ⟨rfl, rfl, rfl⟩
  | cons item below =>
    rcases goOn_or_leave c item with ⟨next, after, continues⟩ | stops
    · rw [step_of_goOn control frames after continues,
        step_of_goOn control' frames after continues]
      exact .next ⟨symbols, hagree, rfl⟩
    · rw [step_of_leave control frames stops, step_of_leave control' frames stops]
      exact .next ⟨symbols, hagree, rfl⟩

/-- Transitions from configurations that agree on what is read go hand in hand. -/
theorem Valid.step_agrees (h : c.Valid tokens) {c' : Config σ T} (hread : c.footprint.read ⊆ names)
    (hagree : c.AgreesOn names c') :
    (c.step setup).Related (AgreesOn names) Outcome.Matches (c'.step setup) := by
  obtain ⟨symbols, hsymbols, rfl⟩ := hagree
  cases control : c.control with
  | resume => exact h.step_agrees_of_resume control hsymbols
  | enter item =>
    cases action : item.action c.ahead.terminal with
    | shift next =>
      rw [step_of_shift control action, step_of_shift (c := c.withSymbols symbols) control action]
      exact fetch_agrees setup _ hsymbols
    | reduce p =>
      rw [step_of_reduce control action, step_of_reduce (c := c.withSymbols symbols) control action]
      exact h.reduce_agrees control action (footprint_of_reduce control action ▸ hread) hsymbols
    | accept =>
      rw [step_of_accept control action, step_of_accept (c := c.withSymbols symbols) control action]
      exact .next ⟨symbols, hsymbols, rfl⟩
    | fail =>
      rw [step_of_fail control action, step_of_fail (c := c.withSymbols symbols) control action]
      exact .halt ⟨rfl, rfl, rfl⟩

end Config

namespace Setup

/-- Evaluations from tables that agree on the variables have the same outcome, store the same values
in the same order, and draw alike. -/
theorem run_matches {setup : Setup σ T} {store : Store σ T} {symbols : SymbolTable T}
    (h : SymbolTable.AgreeOn (Token.variableNames (tokenize setup.type setup.input).tokens)
      store.symbols symbols) :
    (setup.run store).Matches (setup.run ⟨symbols, store.source⟩) ∧
      setup.stores ⟨symbols, store.source⟩ = setup.stores store ∧
      setup.sources ⟨symbols, store.source⟩ = setup.sources store := by
  have hstart := Config.fetch_agrees setup (Config.initial setup store) h
  have hstep : ∀ tokens c c', setup.Reaches store tokens c →
      Config.AgreesOn (Token.variableNames (tokenize setup.type setup.input).tokens) c c' →
      (c.step setup).Related _ Outcome.Matches (c'.step setup) :=
    fun tokens c c' hreaches hagree => hreaches.valid.step_agrees hreaches.occurs.read hagree
  obtain ⟨hrun, htrail⟩ := run_related hstart hstep
  refine ⟨hrun, (flatMap_eq_of_related ?_ htrail).symm, (flatMap_eq_of_related ?_ htrail).symm⟩
  all_goals
    rintro c c' ⟨symbols, _, rfl⟩
    rfl

/-- **Frame and noninterference.** An evaluation stores under names with an equals sign behind them
and changes the variables in no other way: all other variables keep their values, names that were
present keep their places, and new ones follow in the order in which they are first stored. Its
result, what it stores, its draws and its warnings depend on no variables but those that are named
with neither an equals sign nor an opening parenthesis behind them. Without an equals sign it leaves
the variables as they are, and without a call of `rand` it draws nothing. -/
theorem run_frame (setup : Setup σ T) (store : Store σ T) :
    let tokens := (tokenize setup.type setup.input).tokens
    let stores := setup.stores store
    let outcome := setup.run store
    ((∀ p ∈ stores, p.1 ∈ Token.assignedNames tokens) ∧
      outcome.store.symbols = store.symbols.insertAll stores ∧
      (∀ x, x ∉ Token.assignedNames tokens →
        outcome.store.symbols.get? x = store.symbols.get? x) ∧
      outcome.store.symbols.names
        = store.symbols.names
          ++ ((stores.map (·.1)).filter (· ∉ store.symbols.names)).eraseDups) ∧
    (∀ symbols : SymbolTable T,
      (∀ x ∈ Token.variableNames tokens, symbols.get? x = store.symbols.get? x) →
      outcome.Matches (setup.run ⟨symbols, store.source⟩) ∧
        setup.stores ⟨symbols, store.source⟩ = stores ∧
        setup.sources ⟨symbols, store.source⟩ = setup.sources store) ∧
    ((∀ t ∈ tokens, t.terminal ≠ .punctuation .equals) →
      outcome.store.symbols = store.symbols) ∧
    (randName ∉ Token.calledNames tokens → outcome.store.source = store.source) := by
  intro tokens stores outcome
  have hoccur : ∀ p ∈ stores, p.1 ∈ Token.assignedNames tokens := fun p hp =>
    stores_occur setup store (List.mem_map.2 ⟨p, hp, rfl⟩)
  obtain ⟨hsymbols, hsource⟩ := store_run setup store
  refine ⟨⟨hoccur, hsymbols, fun x hx => ?_, ?_⟩, fun symbols h => run_matches h, fun h => ?_,
    hsource⟩
  · have hlookup : stores.reverse.lookup x = none := by
      refine List.lookup_eq_none_iff.2 fun p hp => bne_iff_ne.2 ?_
      rintro rfl
      exact hx (hoccur p (List.mem_reverse.1 hp))
    rw [hsymbols, SymbolTable.get?_insertAll, hlookup, Option.none_or]
  · rw [← SymbolTable.names_insertAll, ← hsymbols]
  · have hnil : stores = [] := by
      refine List.eq_nil_iff_forall_not_mem.2 fun p hp => ?_
      have hp := hoccur p hp
      rw [Token.assignedNames_eq_nil h] at hp
      cases hp
    exact hsymbols.trans (congrArg store.symbols.insertAll hnil)

/-- The magnitude of a variable: neither a variable that has the name of the function nor the former
value of the target has an effect. -/
theorem run_frame_magnitude :
    let setup (input : String) : Setup RandomSource Int :=
      ⟨int64, RandomSource.generator, Text.ofString input⟩
    let table (name : String) : SymbolTable Int :=
      .ofList [(Text.ofString "x", -3), (Text.ofString name, 7)]
    let source : RandomSource := .seeded 1
    (((setup "y = abs(x)").run ⟨table "abs", source⟩).Matches
        ((setup "y = abs(x)").run ⟨table "y", source⟩) ∧
      ((setup "y = abs(x)").run ⟨table "abs", source⟩).store.source = source) ∧
    ((setup "abs(x) + z").run ⟨table "z", source⟩).store.symbols = table "z" := by
  intro setup table source
  have hassign := run_frame (setup "y = abs(x)") ⟨table "abs", source⟩
  have hread := run_frame (setup "abs(x) + z") ⟨table "z", source⟩
  exact ⟨⟨(hassign.2.1 (table "y") (by decide +kernel)).1, hassign.2.2.2 (by decide +kernel)⟩,
    hread.2.2.1 (by decide +kernel)⟩

end Setup

end Calculator
