import Calculator.Proofs.Reading
import Calculator.Proofs.Viable
import Calculator.Session

/-!
# What all values of a session keep to

If the operations of a type keep to a property of values, all values that an evaluation meets have
it: the operands, the variables and the result, also where the evaluation fails midway. The same then
holds of whole sessions.

* `NumericType.Keeps`: the operations of the type keep to a property of values; drawing may need a
  property of the random source.
* `Evaluation.Keeps`: the same for a computation, with one lemma for each computation that a
  reduction does.
* `Setup.run_keeps`: evaluations keep to the property.
* `Session.executeAll_keeps`: so do sessions, with all that they answer.
-/

namespace Calculator

variable {σ T : Type} {I : σ → Prop} {P : T → Prop}

/-! ## Tables -/

namespace SymbolTable

/-- All values of the table have the property. -/
def All (P : T → Prop) (t : SymbolTable T) : Prop := ∀ p ∈ t.entries, P p.2

variable {t : SymbolTable T} {x : Text} {a : T}

theorem all_empty : (empty : SymbolTable T).All P := nofun

theorem All.of_get? (h : t.All P) (hx : t.get? x = some a) : P a :=
  h (x, a) ((t.mem_entries_iff x a).2 hx)

theorem All.of_read (h : t.All P) (hx : t.read x = .ok a) : P a :=
  h.of_get? ((t.read_eq_ok_iff x a).1 hx)

theorem mem_put {entries : List (Text × T)} {p : Text × T} (h : p ∈ put x a entries) :
    p = (x, a) ∨ p ∈ entries := by
  induction entries with
  | nil => exact .inl (List.mem_singleton.1 h)
  | cons q rest ih =>
    obtain ⟨y, b⟩ := q
    rw [put] at h
    split at h
    · rcases List.mem_cons.1 h with h | h
      · exact .inl h
      · exact .inr (List.mem_cons_of_mem _ h)
    · rcases List.mem_cons.1 h with rfl | h
      · exact .inr List.mem_cons_self
      · exact (ih h).imp_right (List.mem_cons_of_mem _)

theorem All.insert (h : t.All P) (x : Text) (ha : P a) : (t.insert x a).All P := by
  intro p hp
  rcases mem_put hp with rfl | hp
  · exact ha
  · exact h p hp

theorem All.erase (h : t.All P) (x : Text) : (t.erase x).All P := fun p hp =>
  h p (List.mem_filter.1 hp).1

theorem All.insertAll (h : t.All P) {pairs : List (Text × T)} (hpairs : ∀ p ∈ pairs, P p.2) :
    (t.insertAll pairs).All P := by
  induction pairs generalizing t with
  | nil => exact h
  | cons p rest ih =>
    exact ih (h.insert p.1 (hpairs p List.mem_cons_self)) fun q hq =>
      hpairs q (List.mem_cons_of_mem p hq)

theorem all_ofList {pairs : List (Text × T)} (h : ∀ p ∈ pairs, P p.2) :
    (ofList pairs).All P := all_empty.insertAll h

end SymbolTable

/-! ## Operations -/

/-- The operations of the type lead from values with the property to values with the property, and
drawing also from a state of the source to one of the same kind. -/
structure NumericType.Keeps (type : NumericType σ T) (g : Generator σ) (I : σ → Prop)
    (P : T → Prop) : Prop where
  literal : ∀ text a, type.literal text = true → type.parseLiteral text = .ok a → P a
  apply : ∀ op a b c, P a → P b → type.apply op a b = .ok c → P c
  negate : ∀ a c, P a → type.negate a = .ok c → P c
  fromNumber : ∀ x c, type.fromNumber x = .ok c → P c
  direct : ∀ name own, type.direct.lookup name = some own → ∀ a c, P a → own a = .ok c → P c
  random : ∀ s, I s → (∀ c, (type.random g s).1 = .ok c → P c) ∧ I (type.random g s).2
  randomBetween : ∀ a b s, P a → P b → I s →
    (∀ c, (type.randomBetween g a b s).1 = .ok c → P c) ∧ I (type.randomBetween g a b s).2

namespace NumericType.Keeps

variable {type : NumericType σ T} {g : Generator σ} {name : Text} {a b c : T} {s : σ}

theorem applySign (h : type.Keeps g I P) {sign : Sign} (ha : P a)
    (hc : type.applySign sign a = .ok c) : P c := by
  cases sign with
  | plus => cases hc; exact ha
  | minus => exact h.negate a c ha hc

theorem call0 (h : type.Keeps g I P) (hs : I s) :
    (∀ c, (type.call0 g name s).1 = .ok c → P c) ∧ I (type.call0 g name s).2 := by
  unfold NumericType.call0
  split
  · exact h.random s hs
  · exact ⟨nofun, hs⟩

theorem call1 (h : type.Keeps g I P) (ha : P a) (hc : type.call1 name a = .ok c) : P c := by
  unfold NumericType.call1 at hc
  split at hc
  · cases hc
  · split at hc
    · next own hown => exact h.direct name own hown a c ha hc
    · exact h.fromNumber _ c hc

theorem call2 (h : type.Keeps g I P) (ha : P a) (hb : P b) (hs : I s) :
    (∀ c, (type.call2 g name a b s).1 = .ok c → P c) ∧ I (type.call2 g name a b s).2 := by
  unfold NumericType.call2
  split
  · exact ⟨nofun, hs⟩
  · exact ⟨fun c hc => h.apply .pow a b c ha hb hc, hs⟩
  · exact ⟨fun c hc => h.fromNumber _ c hc, hs⟩
  · exact h.randomBetween a b s ha hb hs
  · exact ⟨fun c hc => h.apply .rem a b c ha hb hc, hs⟩

end NumericType.Keeps

/-! ## Computations -/

/-- The variables have the property, and the source is of the kind. -/
structure Store.Keeps (I : σ → Prop) (P : T → Prop) (s : Store σ T) : Prop where
  symbols : s.symbols.All P
  source : I s.source

/-- The computation keeps the store as it should be, and its value has the property. -/
def Evaluation.Keeps (I : σ → Prop) (P : T → Prop) (x : Evaluation σ T T) : Prop :=
  ∀ s : Store σ T, s.Keeps I P → (∀ a, (x s).1 = .ok a → P a) ∧ (x s).2.Keeps I P

namespace Evaluation

theorem keeps_pure {a : T} (ha : P a) : (pure a : Evaluation σ T T).Keeps I P := by
  intro s hs
  refine ⟨fun b hb => ?_, hs⟩
  cases hb
  exact ha

theorem keeps_liftM {r : Except Fault T} (h : ∀ a, r = .ok a → P a) :
    (liftM r : Evaluation σ T T).Keeps I P := by
  intro s hs
  rw [liftM_apply]
  exact ⟨h, hs⟩

theorem keeps_resolve (name : Text) :
    (resolve (.identifier name) : Evaluation σ T T).Keeps I P := by
  intro s hs
  rw [resolve_identifier_apply]
  exact ⟨fun a ha => hs.symbols.of_read ha, hs⟩

theorem keeps_store (name : Text) {a : T} (ha : P a) :
    (do Evaluation.store name a; return a : Evaluation σ T T).Keeps I P := by
  intro s hs
  rw [store_apply]
  refine ⟨fun b hb => ?_, hs.symbols.insert name ha, hs.source⟩
  cases hb
  exact ha

theorem keeps_draw {x : σ → Except Fault T × σ}
    (h : ∀ s, I s → (∀ a, (x s).1 = .ok a → P a) ∧ I (x s).2) :
    (draw x : Evaluation σ T T).Keeps I P := by
  intro s hs
  rw [draw_apply]
  obtain ⟨hvalue, hsource⟩ := h s.source hs.source
  exact ⟨hvalue, hs.symbols, hsource⟩

end Evaluation

/-- All values among the operands have the property. -/
def Operand.AllKeep (P : T → Prop) (operands : List (Operand T)) : Prop :=
  ∀ a, .value a ∈ operands → P a

/-- The reduction of a handle keeps to the property. -/
theorem Production.Handle.exists_keeps {p : Production} {popped : List (Operand T)}
    {handle : List (Token T)} (h : p.Handle popped handle) {setup : Setup σ T}
    (htype : setup.type.Keeps setup.generator I P) (hpopped : Operand.AllKeep P popped)
    (rest : List (Operand T)) :
    ∃ x, p.evaluate setup (popped ++ rest) = Evaluation.onto rest x ∧ x.Keeps I P := by
  cases h with
  | number a text position =>
    exact ⟨_, evaluate_number .., Evaluation.keeps_pure (hpopped a (by simp))⟩
  | identifier name position => exact ⟨_, evaluate_identifier .., Evaluation.keeps_resolve name⟩
  | sign s a ht he =>
    exact ⟨_, evaluate_sign .., Evaluation.keeps_liftM fun _ =>
      htype.applySign (hpopped a (by simp))⟩
  | binary op a b hl ht hr =>
    exact ⟨_, evaluate_binary .., Evaluation.keeps_liftM fun c =>
      htype.apply op a b c (hpopped a (by simp)) (hpopped b (by simp))⟩
  | bracket a hl he hr =>
    exact ⟨_, evaluate_bracket .., Evaluation.keeps_pure (hpopped a (by simp))⟩
  | assign name position a ht he =>
    exact ⟨_, evaluate_assign .., Evaluation.keeps_store name (hpopped a (by simp))⟩
  | call0 name position hl hr =>
    exact ⟨_, evaluate_call0 .., Evaluation.keeps_draw fun _ => htype.call0⟩
  | call1 name position a hl he hr =>
    exact ⟨_, evaluate_call1 .., Evaluation.keeps_liftM fun _ =>
      htype.call1 (hpopped a (by simp))⟩
  | call2 name position a b hl hd hm he hr =>
    exact ⟨_, evaluate_call2 .., Evaluation.keeps_draw fun _ =>
      htype.call2 (hpopped a (by simp)) (hpopped b (by simp))⟩

/-! ## Evaluations -/

/-- All values of the configuration have the property. -/
structure Config.Keeps (I : σ → Prop) (P : T → Prop) (c : Config σ T) : Prop where
  operands : Operand.AllKeep P c.operands
  ahead : Operand.AllKeep P c.ahead.operands
  store : c.store.Keeps I P

/-- The value of the outcome has the property, and so have the variables. -/
structure Outcome.Keeps (I : σ → Prop) (P : T → Prop) (o : Outcome σ T) : Prop where
  result : ∀ a, o.result = .ok a → P a
  store : o.store.Keeps I P

theorem Operand.AllKeep.append {l r : List (Operand T)} (hl : AllKeep P l) (hr : AllKeep P r) :
    AllKeep P (l ++ r) := fun a ha => (List.mem_append.1 ha).elim (hl a) (hr a)

/-- A number that is read is the value of a literal. -/
theorem Cursor.operands_keep {type : NumericType σ T} {g : Generator σ} (h : type.Keeps g I P)
    {c : Cursor} {t : Token T} (ht : (c.next type).token = .ok t) :
    Operand.AllKeep P t.operands := by
  intro a ha
  have hreads := c.next_reads type
  rw [ht] at hreads
  obtain ⟨lexeme, position⟩ := t
  cases lexeme with
  | number b text =>
    obtain ⟨hliteral, hparse⟩ := hreads.literal_of_number
    cases List.mem_singleton.1 ha
    exact h.literal text _ hliteral hparse
  | identifier name => cases List.mem_singleton.1 ha
  | punctuation | finish | invalid => cases ha

namespace Config

variable {setup : Setup σ T} {c c' : Config σ T} {tokens : List (Token T)}

theorem Valid.reduce_keeps (h : c.Valid tokens) (hkeeps : c.Keeps I P)
    (htype : setup.type.Keeps setup.generator I P) {item : Item} {p : Production}
    (control : c.control = .enter item) (action : item.action c.ahead.terminal = .reduce p) :
    (∀ operands, (p.evaluate setup c.operands c.store).1 = .ok operands →
      Operand.AllKeep P operands) ∧
    (p.evaluate setup c.operands c.store).2.Keeps I P := by
  obtain ⟨popped, rest, _, _, hoperands, _, hhandle⟩ := h.exists_handle control action
  have hall := hkeeps.operands
  rw [hoperands] at hall
  obtain ⟨x, hx, hxkeeps⟩ := hhandle.exists_keeps htype
    (fun a ha => hall a (List.mem_append_left rest ha)) rest
  obtain ⟨hvalue, hstore⟩ := hxkeeps c.store hkeeps.store
  rw [hoperands, hx, Evaluation.onto_apply]
  rcases hrun : x c.store with ⟨f | a, store⟩
  · rw [hrun] at hstore
    exact ⟨nofun, hstore⟩
  · rw [hrun] at hvalue hstore
    refine ⟨fun operands hok => ?_, hstore⟩
    cases hok
    intro b hb
    rcases List.mem_cons.1 hb with hb | hb
    · cases hb
      exact hvalue a rfl
    · exact hall b (List.mem_append_right popped hb)

/-- Transitions keep to the property. -/
theorem Keeps.move (hkeeps : c.Keeps I P) (h : c.Valid tokens)
    (htype : setup.type.Keeps setup.generator I P) (hmove : Move setup c c') : c'.Keeps I P := by
  cases hmove with
  | shift control action read =>
    exact ⟨hkeeps.ahead.append hkeeps.operands, Cursor.operands_keep htype read, hkeeps.store⟩
  | reduce control action evaluate =>
    have hreduce := h.reduce_keeps hkeeps htype control action
    rw [evaluate] at hreduce
    exact ⟨hreduce.1 _ rfl, hkeeps.ahead, hreduce.2⟩
  | accept | goOn | leave => exact ⟨hkeeps.operands, hkeeps.ahead, hkeeps.store⟩

/-- What ends a run keeps to the property. -/
theorem Keeps.halt (hkeeps : c.Keeps I P) (h : c.Valid tokens)
    (htype : setup.type.Keeps setup.generator I P) {o : Outcome σ T} (hhalt : c.Halt setup o) :
    o.Keeps I P := by
  cases hhalt with
  | unreadable | refused => exact ⟨nofun, hkeeps.store⟩
  | failed control action evaluate =>
    have hreduce := h.reduce_keeps hkeeps htype control action
    rw [evaluate] at hreduce
    exact ⟨nofun, hreduce.2⟩
  | finished control frames =>
    obtain ⟨accepted, ⟨a, operands⟩, _⟩ := h.accepted_of_frames control frames
    rw [finish_eq setup accepted operands]
    refine ⟨fun b hb => ?_, hkeeps.store⟩
    cases hb
    exact hkeeps.operands a (by simp [operands])

end Config

namespace Setup

variable {setup : Setup σ T} {store : Store σ T} {tokens : List (Token T)} {c : Config σ T}

theorem Reaches.keeps (h : setup.Reaches store tokens c)
    (htype : setup.type.Keeps setup.generator I P) (hstore : store.Keeps I P) : c.Keeps I P := by
  induction h with
  | start hfetch =>
    obtain ⟨token, htoken, rfl⟩ := exists_of_fetch_initial hfetch
    exact ⟨nofun, Cursor.operands_keep htype htoken, hstore⟩
  | step hreaches hstep ih => exact ih.move hreaches.valid htype (Config.move_of_step hstep)

/-- **Evaluations keep to a property of values** that the operations of the type keep to. -/
theorem run_keeps (htype : setup.type.Keeps setup.generator I P) (hstore : store.Keeps I P) :
    (setup.run store).Keeps I P := by
  rcases exists_halt_of_run setup store with ⟨f, hread, _⟩ | ⟨tokens, c, hreaches, hhalt⟩
  · rw [run, fetch_initial hread]
    refine ⟨fun a ha => ?_, hstore⟩
    cases ha
  · exact (hreaches.keeps htype hstore).halt hreaches.valid htype hhalt

end Setup

/-! ## Evaluators -/

theorem Setting.mem_of_mem_members? {members : List (Text × Setting)} {m : Text × Setting}
    (h : m ∈ ((Setting.object members).members?).getD []) : m ∈ members := by
  unfold members? at h
  dsimp only at h
  split at h
  · cases h
  · exact h

namespace Evaluator

variable {type : NumericType σ T} {g : Generator σ} {e copy : Evaluator σ T}

/-- A new evaluator has the constants that its options give, and no other variables. -/
theorem of_create {constants : Setting} (h : create type g constants = .ok e) :
    e.type = type ∧ e.generator = g ∧ e.symbols = e.initial ∧
      ∃ options, Options.resolve (settings type constants) = .ok options ∧
        e.constants = decode type options.constants := by
  unfold create at h
  split at h
  · cases h
  · next options hresolve =>
    dsimp only at h
    split at h
    · cases h
    · cases h
      exact ⟨rfl, rfl, rfl, options, hresolve, rfl⟩

/-- A copy is made anew from the same type and constants, and gets the variables. -/
theorem of_clone (h : e.clone = .ok copy) :
    copy.type = e.type ∧ copy.generator = e.generator ∧ copy.symbols = e.symbols ∧
      ∀ c ∈ copy.constants, c ∈ e.constants := by
  unfold clone at h
  cases hcreate : create e.type e.generator e.constantsSetting with
  | error f => rw [hcreate] at h; cases h
  | ok made =>
    rw [hcreate] at h
    cases h
    obtain ⟨htype, hgenerator, _, options, hresolve, hconstants⟩ := of_create hcreate
    refine ⟨htype, hgenerator, rfl, fun c hc => ?_⟩
    have hoptions : options.constants = (e.constantsSetting.members?).getD [] :=
      Options.constants_of_resolve hresolve
    change c ∈ made.constants at hc
    rw [hconstants, decode, List.mem_filterMap, hoptions] at hc
    -- What the copy decodes is what the evaluator has encoded.
    obtain ⟨m, hm, hdecode⟩ := hc
    obtain ⟨d, hd, rfl⟩ := List.mem_map.1 (Setting.mem_of_mem_members? hm)
    rw [e.type.representation.decode?_encode] at hdecode
    cases hdecode
    exact hd

theorem initial_all (htype : e.type.Keeps g I P) (hconstants : ∀ c ∈ e.constants, P c.2) :
    e.initial.All P := by
  have hinitial := e.initialSymbols_eq
  unfold NumericType.initialSymbols at hinitial
  cases hpi : e.type.fromNumber ErrorFunction.pi with
  | error f => rw [hpi] at hinitial; cases hinitial
  | ok pi =>
    rw [hpi] at hinitial
    rw [← Except.ok.inj hinitial]
    refine SymbolTable.all_ofList fun p hp => ?_
    rcases List.mem_cons.1 hp with rfl | hp
    · exact htype.fromNumber _ pi hpi
    · exact hconstants p hp

/-- The evaluator computes with the type and the generator, and its values have the property. -/
structure Keeps (type : NumericType σ T) (g : Generator σ) (P : T → Prop) (e : Evaluator σ T) :
    Prop where
  type_eq : e.type = type
  generator_eq : e.generator = g
  constants : ∀ c ∈ e.constants, P c.2
  symbols : e.symbols.All P

theorem keeps_of_create {constants : Setting} (htype : type.Keeps g I P)
    (h : create type g constants = .ok e) (hconstants : ∀ c ∈ e.constants, P c.2) :
    e.Keeps type g P := by
  obtain ⟨rfl, rfl, hsymbols, _⟩ := of_create h
  exact ⟨rfl, rfl, hconstants, hsymbols ▸ initial_all htype hconstants⟩

namespace Keeps

theorem clone (h : e.Keeps type g P) (hcopy : e.clone = .ok copy) : copy.Keeps type g P := by
  obtain ⟨htype, hgenerator, hsymbols, hconstants⟩ := of_clone hcopy
  exact ⟨htype.trans h.type_eq, hgenerator.trans h.generator_eq,
    fun c hc => h.constants c (hconstants c hc), hsymbols ▸ h.symbols⟩

theorem evaluate (h : e.Keeps type g P) (htype : type.Keeps g I P) (input : Text) {source : σ}
    (hsource : I source) : (e.evaluate input source).Keeps I P := by
  obtain ⟨rfl, rfl, _, hsymbols⟩ := h
  exact Setup.run_keeps htype ⟨hsymbols, hsource⟩

theorem with_symbols (h : e.Keeps type g P) {symbols : SymbolTable T} (hsymbols : symbols.All P) :
    Keeps type g P { e with symbols } :=
  ⟨h.type_eq, h.generator_eq, h.constants, hsymbols⟩

end Keeps

end Evaluator

/-! ## Sessions -/

/-- The values that a command brings along. -/
def Command.values : Command T → List T
  | .set _ value => [value]
  | _ => []

/-- The values in an answer. -/
def Reply.values : Reply T → List T
  | .result (.ok a) | .tried (.ok (.ok a)) => [a]
  | .symbols table => table.entries.map (·.2)
  | _ => []

theorem Reply.values_result {r : Except Fault T} (h : ∀ a, r = .ok a → P a) :
    ∀ a ∈ (Reply.result r).values, P a := by
  intro a ha
  cases r with
  | ok b => exact h a (congrArg Except.ok (List.mem_singleton.1 ha).symm)
  | error f => cases ha

theorem Reply.values_tried {r : Except Fault T} (h : ∀ a, r = .ok a → P a) :
    ∀ a ∈ (Reply.tried (Fault.catchErrors r)).values, P a := by
  intro a ha
  cases r with
  | ok b => exact h a (congrArg Except.ok (List.mem_singleton.1 ha).symm)
  | error f => cases f <;> cases ha

theorem Reply.values_symbols {t : SymbolTable T} (h : t.All P) :
    ∀ a ∈ (Reply.symbols t).values, P a := by
  intro a ha
  obtain ⟨p, hp, rfl⟩ := List.mem_map.1 ha
  exact h p hp

namespace Session

variable {type : NumericType σ T} {g : Generator σ} {s : Session σ T}

/-- All values in the session have the property. -/
structure Keeps (type : NumericType σ T) (g : Generator σ) (I : σ → Prop) (P : T → Prop)
    (s : Session σ T) : Prop where
  evaluators : ∀ e ∈ s.evaluators, e.Keeps type g P
  snapshots : ∀ t ∈ s.snapshots, t.All P
  source : I s.source

theorem Keeps.update (h : s.Keeps type g I P) (index : Nat) {e : Evaluator σ T}
    (he : e.Keeps type g P) : (s.update index e).Keeps type g I P where
  evaluators d hd := by
    rcases List.mem_or_eq_of_mem_set hd with hd | rfl
    · exact h.evaluators d hd
    · exact he
  snapshots := h.snapshots
  source := h.source

theorem Keeps.after (h : s.Keeps type g I P) (index : Nat) {e : Evaluator σ T}
    (he : e.Keeps type g P) {o : Outcome σ T} (ho : o.Keeps I P) :
    (s.after index e o).Keeps type g I P where
  evaluators := (h.update index (he.with_symbols ho.store.symbols)).evaluators
  snapshots := h.snapshots
  source := ho.store.source

/-- A command keeps to the property if the values that it brings along have it. -/
theorem executeOn_keeps (htype : type.Keeps g I P) (h : s.Keeps type g I P) (index : Nat)
    {e : Evaluator σ T} (he : e.Keeps type g P) {command : Command T}
    (hcommand : ∀ a ∈ command.values, P a) :
    (∀ a ∈ (s.executeOn index e command).1.values, P a) ∧
      (s.executeOn index e command).2.Keeps type g I P := by
  cases command with
  | evaluate input =>
    have ho := he.evaluate htype input h.source
    exact ⟨Reply.values_result ho.result, h.after index he ho⟩
  | tryEvaluate input =>
    have ho := he.evaluate htype input h.source
    exact ⟨Reply.values_tried ho.result, h.after index he ho⟩
  | get name => exact ⟨Reply.values_result fun a => he.symbols.of_read, h⟩
  | set name value =>
    have hvalue := hcommand value (List.mem_singleton_self value)
    exact ⟨hcommand, h.update index (he.with_symbols (he.symbols.insert name hvalue))⟩
  | erase name => exact ⟨nofun, h.update index (he.with_symbols (he.symbols.erase name))⟩
  | clear => exact ⟨nofun, h.update index (he.with_symbols SymbolTable.all_empty)⟩
  | reset =>
    have hinitial := Evaluator.initial_all (he.type_eq ▸ htype) he.constants
    exact ⟨nofun, h.update index (he.with_symbols hinitial)⟩
  | symbols => exact ⟨Reply.values_symbols he.symbols, h⟩
  | snapshot =>
    refine ⟨nofun, h.evaluators, fun t ht => ?_, h.source⟩
    rcases List.mem_append.1 ht with ht | ht
    · exact h.snapshots t ht
    · rw [List.mem_singleton.1 ht]
      exact he.symbols
  | view snapshot =>
    unfold executeOn
    dsimp only
    split
    · next table htable =>
      exact ⟨Reply.values_symbols (h.snapshots table (List.mem_of_getElem? htable)), h⟩
    · exact ⟨nofun, h⟩
  | clone =>
    unfold executeOn
    dsimp only
    split
    · next copy hcopy =>
      refine ⟨nofun, fun d hd => ?_, h.snapshots, h.source⟩
      rcases List.mem_append.1 hd with hd | hd
      · exact h.evaluators d hd
      · rw [List.mem_singleton.1 hd]
        exact he.clone hcopy
    · exact ⟨nofun, h⟩
  | has | functions | typeName => exact ⟨nofun, h⟩

theorem execute_keeps (htype : type.Keeps g I P) (h : s.Keeps type g I P) (index : Nat)
    {command : Command T} (hcommand : ∀ a ∈ command.values, P a) :
    (∀ a ∈ (s.execute index command).1.values, P a) ∧
      (s.execute index command).2.Keeps type g I P := by
  unfold execute
  split
  · next e he =>
    exact executeOn_keeps htype h index (h.evaluators e (List.mem_of_getElem? he)) hcommand
  · exact ⟨nofun, h⟩

/-- **Sessions keep to a property of values** that the operations of the type keep to. -/
theorem executeAll_keeps (htype : type.Keeps g I P) (h : s.Keeps type g I P)
    {commands : List (Nat × Command T)} (hcommands : ∀ c ∈ commands, ∀ a ∈ c.2.values, P a) :
    (∀ r ∈ (s.executeAll commands).1, ∀ a ∈ r.values, P a) ∧
      (s.executeAll commands).2.Keeps type g I P := by
  induction commands generalizing s with
  | nil => exact ⟨nofun, h⟩
  | cons c rest ih =>
    obtain ⟨index, command⟩ := c
    obtain ⟨hreply, hsession⟩ :=
      execute_keeps htype h index (hcommands (index, command) List.mem_cons_self)
    obtain ⟨hreplies, hfinal⟩ := ih hsession fun c hc => hcommands c (List.mem_cons_of_mem _ hc)
    refine ⟨fun r hr => ?_, hfinal⟩
    rcases List.mem_cons.1 hr with rfl | hr
    · exact hreply
    · exact hreplies r hr

end Session

end Calculator
