import Calculator.Proofs.Frame
import Calculator.Proofs.History
import Mathlib.Logic.Equiv.Basic

/-!
# Copies stand for their originals and do not disturb them

* `Session.Exchanged`: two sessions that differ in the numbers of their evaluators.
* `Session.executeAll_exchanged`: commands under exchanged numbers get the same answers.
* `Command.answer`: what an evaluator answers by itself; `Session.executeAll_alone`: in a session
  that draws nothing, each evaluator answers as it would by itself.
* `Workshop.copies_faithful_isolated`: copies are never refused, nothing tells a copy from its
  original, and no evaluator sees what is done to others.

Proof. A copy is equal to its original, so the session with the numbers of both exchanged is the
same session, and the exchange is kept by each command. As for isolation, an evaluator is changed
only by commands of its own, a text that does not call `rand` leaves the source as it is, and
snapshots are only ever added. So each answer is a function of the evaluator and of the command
alone.
-/

namespace Calculator

variable {σ T : Type}

/-! ## Exchanged numbers -/

namespace Session

variable {s s' : Session σ T}

/-- Sessions that differ in nothing but the numbers of their evaluators. Numbers that are not given
yet are the same in both. -/
structure Exchanged (f : Equiv.Perm Nat) (s s' : Session σ T) : Prop where
  evaluators : ∀ k, s'.evaluators[f k]? = s.evaluators[k]?
  length : s'.evaluators.length = s.evaluators.length
  fixed : ∀ k, s.evaluators.length ≤ k → f k = k
  snapshots : s'.snapshots = s.snapshots
  source : s'.source = s.source
  warnings : s'.warnings = s.warnings

namespace Exchanged

variable {f : Equiv.Perm Nat}

theorem lt_iff (h : s.Exchanged f s') (k : Nat) :
    f k < s'.evaluators.length ↔ k < s.evaluators.length := by
  have hk := h.evaluators k
  constructor
  · intro hlt
    rw [List.getElem?_eq_getElem hlt] at hk
    exact (List.getElem?_eq_some_iff.1 hk.symm).1
  · intro hlt
    rw [List.getElem?_eq_getElem hlt] at hk
    exact (List.getElem?_eq_some_iff.1 hk).1

theorem changed (h : s.Exchanged f s') (index : Nat) (e : Evaluator σ T) (source : σ)
    (command : Command T) (k : Nat) :
    (Session.changed s'.evaluators (f index) e source command)[f k]? =
      (Session.changed s.evaluators index e source command)[k]? := by
  unfold Session.changed
  split
  · by_cases hk : k < s.evaluators.length
    · rw [List.getElem?_append_left hk, List.getElem?_append_left ((h.lt_iff k).2 hk),
        h.evaluators]
    · -- The copy comes last in both sessions, under a number that is not exchanged.
      have hle := Nat.le_of_not_lt hk
      rw [h.fixed k hle, List.getElem?_append_right hle,
        List.getElem?_append_right (h.length ▸ hle), h.length]
  · rw [List.getElem?_set, List.getElem?_set, h.evaluators]
    simp only [f.apply_eq_iff_eq, h.lt_iff]

theorem length_changed (h : s.Exchanged f s') (index : Nat) (e : Evaluator σ T) (source : σ)
    (command : Command T) :
    (Session.changed s'.evaluators (f index) e source command).length =
      (Session.changed s.evaluators index e source command).length := by
  unfold Session.changed
  split <;> simp [h.length]

end Exchanged

/-- The number of an evaluator is not part of any answer. -/
theorem executeOn_congr (index index' : Nat) (e : Evaluator σ T)
    (hlength : s'.evaluators.length = s.evaluators.length) (hsnapshots : s'.snapshots = s.snapshots)
    (hsource : s'.source = s.source) (hwarnings : s'.warnings = s.warnings) (command : Command T) :
    (s'.executeOn index' e command).1 = (s.executeOn index e command).1 ∧
      (s'.executeOn index' e command).2.snapshots = (s.executeOn index e command).2.snapshots ∧
      (s'.executeOn index' e command).2.source = (s.executeOn index e command).2.source ∧
      (s'.executeOn index' e command).2.warnings = (s.executeOn index e command).2.warnings := by
  obtain ⟨evaluators, snapshots, source, warnings⟩ := s
  obtain ⟨evaluators', snapshots', source', warnings'⟩ := s'
  dsimp only at hlength hsnapshots hsource hwarnings
  subst hsnapshots hsource hwarnings
  cases command with
  | clone =>
    rw [executeOn_clone, executeOn_clone]
    exact ⟨congrArg Reply.evaluator hlength, rfl, rfl, rfl⟩
  | view snapshot =>
    unfold executeOn
    dsimp only
    split
    · exact ⟨rfl, rfl, rfl, rfl⟩
    · exact ⟨rfl, rfl, rfl, rfl⟩
  | _ => exact ⟨rfl, rfl, rfl, rfl⟩

theorem execute_exchanged {f : Equiv.Perm Nat} (h : s.Exchanged f s') (index : Nat)
    (command : Command T) :
    (s'.execute (f index) command).1 = (s.execute index command).1 ∧
      (s.execute index command).2.Exchanged f (s'.execute (f index) command).2 := by
  unfold execute
  rw [h.evaluators]
  cases he : s.evaluators[index]? with
  | none => exact ⟨rfl, h⟩
  | some e =>
    have he' : s'.evaluators[f index]? = some e := (h.evaluators index).trans he
    dsimp only
    obtain ⟨hreply, hsnapshots, hsource, hwarnings⟩ :=
      executeOn_congr index (f index) e h.length h.snapshots h.source h.warnings command
    have hevaluators := executeOn_evaluators he command
    have hevaluators' := executeOn_evaluators he' command
    rw [h.source] at hevaluators'
    have hlength := s.length_le_execute index command
    unfold execute at hlength
    rw [he] at hlength
    dsimp only at hlength
    refine ⟨hreply, fun k => ?_, ?_, fun k hk => h.fixed k (Nat.le_trans hlength hk), hsnapshots,
      hsource, hwarnings⟩
    · rw [hevaluators, hevaluators']
      exact h.changed index e s.source command k
    · rw [hevaluators, hevaluators']
      exact h.length_changed index e s.source command

theorem executeAll_exchanged {f : Equiv.Perm Nat} (h : s.Exchanged f s')
    (commands : List (Nat × Command T)) :
    (s'.executeAll (commands.map fun c => (f c.1, c.2))).1 = (s.executeAll commands).1 ∧
      (s.executeAll commands).2.Exchanged f
        (s'.executeAll (commands.map fun c => (f c.1, c.2))).2 := by
  induction commands generalizing s s' with
  | nil => exact ⟨rfl, h⟩
  | cons c rest ih =>
    obtain ⟨hreply, hnext⟩ := execute_exchanged h c.1 c.2
    obtain ⟨hreplies, hfinal⟩ := ih hnext
    rw [List.map_cons, executeAll_cons, executeAll_cons]
    exact ⟨by rw [hreply, hreplies], hfinal⟩

end Session

/-! ## What an evaluator answers by itself -/

namespace Command

/-- Whether the command looks at a kept snapshot, which belongs to no evaluator. -/
def isView : Command T → Bool
  | .view _ => true
  | _ => false

/-- Whether the command evaluates a text in which `rand` is called. -/
def CallsRand (type : NumericType σ T) : Command T → Prop
  | .evaluate input | .tryEvaluate input =>
    randName ∈ Token.calledNames (tokenize type input).tokens
  | _ => False

/-- The answer of an evaluator, where a snapshot stands for the number under which it is kept and a
copy goes without its number. -/
def answer (e : Evaluator σ T) (source : σ) : Command T → Reply T
  | .evaluate input => .result (e.evaluate input source).result
  | .tryEvaluate input => .tried (e.tryEvaluate input source)
  | .get name => .result (e.symbols.read name)
  | .set _ value => .result (.ok value)
  | .has name | .erase name => .flag (e.symbols.contains name)
  | .clear | .reset | .clone => .done
  | .symbols | .snapshot => .symbols e.symbols
  | .view _ => .missing
  | .functions => .functions builtins
  | .typeName => .typeName e.type.name

end Command

/-- An answer with the snapshot of a number in the place of that number, and without the number of a
copy. -/
def Reply.seen (snapshots : List (SymbolTable T)) : Reply T → Reply T
  | .snapshot k =>
    match snapshots[k]? with
    | some table => .symbols table
    | none => .missing
  | .evaluator _ => .done
  | r => r

namespace Evaluator

/-- The answers of an evaluator to commands in a row, while nothing is drawn. -/
def answers (e : Evaluator σ T) (source : σ) : List (Command T) → List (Reply T)
  | [] => []
  | command :: rest => command.answer e source :: (e.obey source command).answers source rest

/-- The evaluator after commands in a row, while nothing is drawn. -/
def obeyAll (e : Evaluator σ T) (source : σ) (commands : List (Command T)) : Evaluator σ T :=
  commands.foldl (fun e command => e.obey source command) e

end Evaluator

/-! ## Interleaved commands -/

namespace Command

/-- Whether the command is one on the evaluator of the number. -/
def isOwn (index : Nat) (c : Nat × Command T) : Bool := c.1 == index && !c.2.isView

/-- The commands on one evaluator. -/
def own (index : Nat) (commands : List (Nat × Command T)) : List (Nat × Command T) :=
  commands.filter (isOwn index)

/-- The answers to the commands on one evaluator. -/
def heard (index : Nat) (commands : List (Nat × Command T)) (replies : List (Reply T)) :
    List (Reply T) :=
  ((commands.zip replies).filter fun c => isOwn index c.1).map (·.2)

variable {index : Nat} {c : Nat × Command T} {rest : List (Nat × Command T)}

theorem own_cons_of_isOwn (h : isOwn index c = true) :
    own index (c :: rest) = c :: own index rest :=
  List.filter_cons_of_pos h

theorem own_cons_of_not_isOwn (h : isOwn index c = false) :
    own index (c :: rest) = own index rest :=
  List.filter_cons_of_neg (by rw [h]; exact Bool.false_ne_true)

theorem heard_cons_of_isOwn (h : isOwn index c = true) (r : Reply T) (replies : List (Reply T)) :
    heard index (c :: rest) (r :: replies) = r :: heard index rest replies := by
  simp [heard, h]

theorem heard_cons_of_not_isOwn (h : isOwn index c = false) (r : Reply T)
    (replies : List (Reply T)) :
    heard index (c :: rest) (r :: replies) = heard index rest replies := by
  simp [heard, h]

end Command

namespace Session

variable {s : Session σ T} {index : Nat} {d e : Evaluator σ T}

theorem executeOn_source (s : Session σ T) (index : Nat) (d : Evaluator σ T) {command : Command T}
    (hquiet : ¬ command.CallsRand d.type) : (s.executeOn index d command).2.source = s.source := by
  cases command with
  | evaluate input =>
    exact (Setup.store_run ⟨d.type, d.generator, input⟩ ⟨d.symbols, s.source⟩).2 hquiet
  | tryEvaluate input =>
    exact (Setup.store_run ⟨d.type, d.generator, input⟩ ⟨d.symbols, s.source⟩).2 hquiet
  | clone => rw [executeOn_clone]
  | view snapshot =>
    unfold executeOn
    dsimp only
    split <;> rfl
  | _ => rfl

theorem executeOn_snapshots (s : Session σ T) (index : Nat) (d : Evaluator σ T)
    (command : Command T) : s.snapshots <+: (s.executeOn index d command).2.snapshots := by
  cases command with
  | snapshot => exact List.prefix_append _ _
  | clone =>
    have hsame : (s.executeOn index d .clone).2.snapshots = s.snapshots := by
      rw [executeOn_clone]
    exact ⟨[], (List.append_nil _).trans hsame.symm⟩
  | view snapshot =>
    unfold executeOn
    dsimp only
    split <;> exact List.prefix_rfl
  | _ => exact List.prefix_rfl

theorem executeOn_reply (s : Session σ T) (index : Nat) (d : Evaluator σ T) {command : Command T}
    (hview : command.isView = false) {snapshots : List (SymbolTable T)}
    (hsnapshots : (s.executeOn index d command).2.snapshots <+: snapshots) :
    (s.executeOn index d command).1.seen snapshots = command.answer d s.source := by
  cases command with
  | snapshot =>
    have hkept : snapshots[s.snapshots.length]? = some d.symbols := by
      change s.snapshots ++ [d.symbols] <+: snapshots at hsnapshots
      obtain ⟨rest, rfl⟩ := hsnapshots
      rw [List.append_assoc, List.getElem?_append_right (Nat.le_refl _), Nat.sub_self]
      rfl
    change Reply.seen snapshots (.snapshot s.snapshots.length) = .symbols d.symbols
    rw [Reply.seen, hkept]
  | clone =>
    rw [executeOn_clone]
    rfl
  | view snapshot => cases hview
  | _ => rfl

/-- An evaluator is changed by commands of its own only. -/
theorem executeOn_getElem? {j : Nat} (hj : s.evaluators[j]? = some e)
    (hd : s.evaluators[index]? = some d) (command : Command T) :
    (s.executeOn j e command).2.evaluators[index]? =
      some (if j = index then d.obey s.source command else d) := by
  have hlt := (List.getElem?_eq_some_iff.1 hd).1
  rw [executeOn_evaluators hj]
  unfold changed
  split
  · rw [List.getElem?_append_left hlt, hd]
    split <;> rfl
  · rw [List.getElem?_set]
    split
    · next h =>
      subst h
      rw [if_pos hlt, Option.some.inj (hj.symm.trans hd)]
    · exact hd

theorem execute_snapshots (s : Session σ T) (j : Nat) (command : Command T) :
    s.snapshots <+: (s.execute j command).2.snapshots := by
  unfold execute
  split
  · exact s.executeOn_snapshots _ _ _
  · exact List.prefix_rfl

/-- Snapshots are only ever added. -/
theorem executeAll_snapshots (s : Session σ T) (commands : List (Nat × Command T)) :
    s.snapshots <+: (s.executeAll commands).2.snapshots := by
  induction commands generalizing s with
  | nil => exact List.prefix_rfl
  | cons c rest ih => exact (s.execute_snapshots c.1 c.2).trans (ih _)

/-- What one command of a session that draws nothing does to an evaluator, its own or another one.
-/
theorem execute_quiet (hkin : s.Kin e) (hd : s.evaluators[index]? = some d) (j : Nat)
    {command : Command T} (hquiet : ¬ command.CallsRand e.type) :
    (s.execute j command).2.source = s.source ∧
      (s.execute j command).2.evaluators[index]? =
        some (if j = index then d.obey s.source command else d) := by
  unfold execute
  cases hj : s.evaluators[j]? with
  | none =>
    -- There is no evaluator of that number, so it is not this one.
    have hne : j ≠ index := by
      rintro rfl
      rw [hj] at hd
      cases hd
    exact ⟨rfl, by rw [if_neg hne]; exact hd⟩
  | some e' =>
    have htype : e'.type = e.type := by rw [hkin e' (List.mem_of_getElem? hj)]
    exact ⟨s.executeOn_source j e' (htype ▸ hquiet), executeOn_getElem? hj hd command⟩

theorem execute_reply (hd : s.evaluators[index]? = some d) {command : Command T}
    (hview : command.isView = false) {snapshots : List (SymbolTable T)}
    (hsnapshots : (s.execute index command).2.snapshots <+: snapshots) :
    (s.execute index command).1.seen snapshots = command.answer d s.source := by
  unfold execute at hsnapshots ⊢
  rw [hd] at hsnapshots ⊢
  exact s.executeOn_reply index d hview hsnapshots

/-- The commands on one evaluator get the answers that it gives by itself, whatever is done to the
other evaluators of the session in between. -/
theorem executeAll_alone (hkin : s.Kin e) (hd : s.evaluators[index]? = some d)
    {commands : List (Nat × Command T)} (hquiet : ∀ c ∈ commands, ¬ c.2.CallsRand e.type)
    {snapshots : List (SymbolTable T)}
    (hsnapshots : (s.executeAll commands).2.snapshots <+: snapshots) :
    (Command.heard index commands (s.executeAll commands).1).map (Reply.seen snapshots) =
        d.answers s.source ((Command.own index commands).map (·.2)) ∧
      (s.executeAll commands).2.evaluators[index]? =
        some (d.obeyAll s.source ((Command.own index commands).map (·.2))) := by
  induction commands generalizing s d with
  | nil => exact ⟨rfl, hd⟩
  | cons c rest ih =>
    obtain ⟨j, command⟩ := c
    obtain ⟨hsource, hnext⟩ := execute_quiet hkin hd j (hquiet _ List.mem_cons_self)
    obtain ⟨hheard, hlast⟩ := ih (execute_kin hkin j command) hnext
      (fun c hc => hquiet c (List.mem_cons_of_mem _ hc)) hsnapshots
    rw [hsource] at hheard hlast
    rw [executeAll_cons]
    cases hown : Command.isOwn index (j, command) with
    | true =>
      obtain ⟨hj, hview⟩ := Bool.and_eq_true_iff.1 hown
      obtain rfl : j = index := beq_iff_eq.1 hj
      rw [if_pos rfl] at hheard hlast
      have hreply := execute_reply hd (by simpa using hview)
        (((s.execute j command).2.executeAll_snapshots rest).trans hsnapshots)
      rw [Command.heard_cons_of_isOwn hown, Command.own_cons_of_isOwn hown, List.map_cons, hreply,
        hheard]
      exact ⟨rfl, hlast⟩
    | false =>
      -- A look at a snapshot changes nothing, even if the evaluator itself is asked for it.
      have hsame : (if j = index then d.obey s.source command else d) = d := by
        split
        · next hj =>
          subst hj
          cases command with
          | view => rfl
          | _ => simp [Command.isOwn, Command.isView] at hown
        · rfl
      rw [hsame] at hheard hlast
      rw [Command.heard_cons_of_not_isOwn hown, Command.own_cons_of_not_isOwn hown]
      exact ⟨hheard, hlast⟩

end Session

/-! ## Copies -/

theorem Command.own_own (index : Nat) (commands : List (Nat × Command T)) :
    own index (own index commands) = own index commands := by
  simp [own]

/-- A list of commands on one evaluator gets all the answers. -/
theorem Session.heard_own (s : Session σ T) (index : Nat) (commands : List (Nat × Command T)) :
    Command.heard index (Command.own index commands)
        (s.executeAll (Command.own index commands)).1 =
      (s.executeAll (Command.own index commands)).1 := by
  generalize hown : Command.own index commands = mine
  have hall : ∀ c ∈ mine, Command.isOwn index c = true := by
    rintro c hc
    exact (List.mem_filter.1 (hown ▸ hc)).2
  clear hown
  induction mine generalizing s with
  | nil => rfl
  | cons c rest ih =>
    rw [executeAll_cons, Command.heard_cons_of_isOwn (hall c List.mem_cons_self),
      ih _ fun c hc => hall c (List.mem_cons_of_mem _ hc)]

/-- A copy can take the place of its original. -/
theorem Session.exchanged_clone {s : Session σ T} {index : Nat} {d : Evaluator σ T}
    (hd : s.evaluators[index]? = some d) :
    (s.execute index .clone).1 = .evaluator s.evaluators.length ∧
      (s.execute index .clone).2.Exchanged (Equiv.swap index s.evaluators.length)
        (s.execute index .clone).2 := by
  have hlt := (List.getElem?_eq_some_iff.1 hd).1
  have hexecute : s.execute index .clone =
      (.evaluator s.evaluators.length, { s with evaluators := s.evaluators ++ [d] }) := by
    rw [execute, hd]
    exact executeOn_clone s index d
  have hindex : (s.evaluators ++ [d])[index]? = some d :=
    (List.getElem?_append_left hlt).trans hd
  have hcopy : (s.evaluators ++ [d])[s.evaluators.length]? = some d := by simp
  rw [hexecute]
  refine ⟨rfl, fun k => ?_, rfl, fun k hk => ?_, rfl, rfl, rfl⟩
  · dsimp only
    rw [Equiv.swap_apply_def]
    split
    · next h => rw [h, hindex, hcopy]
    · split
      · next h => rw [h, hindex, hcopy]
      · rfl
  · dsimp only at hk
    rw [List.length_append, List.length_singleton] at hk
    exact Equiv.swap_apply_of_ne_of_ne (by omega) (by omega)

namespace Workshop

/-- Two evaluators that nothing tells apart: whatever commands follow, on these two or on others,
they get the same answers if the two change places, and they leave the same source, snapshots and
warnings. -/
def Interchangeable (w : Workshop σ T) (i j : Nat) : Prop :=
  ∀ commands : List (Nat × Command T),
    let one := w.executeAll commands
    let other := w.executeAll (commands.map fun c => (Equiv.swap i j c.1, c.2))
    other.1 = one.1 ∧ other.2.session.source = one.2.session.source ∧
      other.2.session.snapshots = one.2.session.snapshots ∧
      other.2.session.warnings = one.2.session.warnings

/-- An evaluator that does not see what is done to others while nothing is drawn: the answers to its
own commands, and what it is in the end, are the same if all other commands are left out. And
snapshots that were taken before keep what is in them. -/
def Isolated (type : NumericType σ T) (w : Workshop σ T) (index : Nat) : Prop :=
  ∀ commands : List (Nat × Command T), (∀ c ∈ commands, ¬ c.2.CallsRand type) →
    let all := w.executeAll commands
    let alone := w.executeAll (Command.own index commands)
    (Command.heard index commands all.1).map (Reply.seen all.2.session.snapshots) =
        alone.1.map (Reply.seen alone.2.session.snapshots) ∧
      all.2.session.evaluators[index]? = alone.2.session.evaluators[index]? ∧
      w.session.snapshots <+: all.2.session.snapshots

theorem interchangeable_of_exchanged {w : Workshop σ T} {i j : Nat}
    (h : w.session.Exchanged (Equiv.swap i j) w.session) : w.Interchangeable i j := by
  intro commands one other
  obtain ⟨hreplies, hsession⟩ := w.executeAll_session commands
  obtain ⟨hreplies', hsession'⟩ :=
    w.executeAll_session (commands.map fun c => (Equiv.swap i j c.1, c.2))
  obtain ⟨hsame, hfinal⟩ := Session.executeAll_exchanged h commands
  rw [← hsession, ← hsession'] at hfinal
  exact ⟨hreplies'.trans (hsame.trans hreplies.symm), hfinal.source, hfinal.snapshots,
    hfinal.warnings⟩

theorem isolated {w : Workshop σ T} {index : Nat} {d e : Evaluator σ T} (hkin : w.session.Kin e)
    (hd : w.session.evaluators[index]? = some d) : w.Isolated e.type index := by
  intro commands hquiet all alone
  have hquiet' : ∀ c ∈ Command.own index commands, ¬ c.2.CallsRand e.type :=
    fun c hc => hquiet c (List.mem_filter.1 hc).1
  obtain ⟨hreplies, hsession⟩ := w.executeAll_session commands
  obtain ⟨hreplies', hsession'⟩ := w.executeAll_session (Command.own index commands)
  obtain ⟨hheard, hlast⟩ := Session.executeAll_alone hkin hd hquiet List.prefix_rfl
  obtain ⟨hheard', hlast'⟩ := Session.executeAll_alone hkin hd hquiet' List.prefix_rfl
  -- Alone, the own commands are all commands, and what is heard are all replies.
  rw [Command.own_own] at hheard' hlast'
  rw [Session.heard_own] at hheard'
  rw [← hreplies, ← hsession] at hheard
  rw [← hreplies', ← hsession'] at hheard'
  rw [← hsession] at hlast
  rw [← hsession'] at hlast'
  have hsnapshots := w.session.executeAll_snapshots commands
  rw [← hsession] at hsnapshots
  exact ⟨hheard.trans hheard'.symm, hlast.trans hlast'.symm, hsnapshots⟩

/-- **Copies are faithful and isolated.** Options that were resolved once resolve to themselves.
Take an evaluator after any history. Its own options resolve to themselves too, so a copy of it is
never refused. Nothing tells the copy from the original. And as long as no text calls `rand`, the
evaluator does not see what is done to others. -/
theorem copies_faithful_isolated (e : Evaluator σ T) (source : σ)
    (history : List (Nat × Command T)) (index : Nat) (d : Evaluator σ T)
    (hd : ((start e source).executeAll history).2.session.evaluators[index]? = some d) :
    (∀ (options : Setting) (o : Options) (random receiver : Setting),
      Options.resolve options = .ok o → Options.isRandomSource random = true →
      receiver.isFunction = true →
      Options.resolve (o.toSetting random receiver) =
        .ok { o with
          random := .given (o.random.setting random)
          onWarning := .given (o.onWarning.setting receiver) }) ∧
    Options.resolve (Evaluator.settings d.type d.constantsSetting) =
      .ok
        { type := d.type.setting
          constants := Evaluator.encoded d.type d.constants
          random := .given Evaluator.sourceSetting
          onWarning := .given (.function none) } ∧
    d.clone = .ok d ∧
    let w := ((start e source).executeAll history).2
    (w.execute index .clone).1 = .evaluator w.session.evaluators.length ∧
      (w.execute index .clone).2.Interchangeable index w.session.evaluators.length ∧
      w.Isolated e.type index := by
  refine ⟨fun options o random receiver => Options.resolve_toSetting,
    Evaluator.resolve_settings d.type d.isIdentifier_of_mem, d.clone_eq, ?_⟩
  intro w
  have hkin : w.session.Kin e := by
    rw [((start e source).executeAll_session history).2]
    refine Session.executeAll_kin (fun d hd => ?_) history
    rw [List.mem_singleton.1 hd]
  have hd' : w.session.evaluators[index]? = some d := hd
  obtain ⟨hreply, hsession⟩ := w.execute_session index .clone
  obtain ⟨hnumber, hexchanged⟩ := Session.exchanged_clone hd'
  rw [← hsession] at hexchanged
  exact ⟨hreply.trans hnumber, interchangeable_of_exchanged hexchanged, isolated hkin hd'⟩

/-- An evaluator on which a constant was overwritten before it was copied, and again on the copy. -/
theorem copies_faithful_isolated_overwritten :
    let constants : Setting := .object [(Text.ofString "pi", .integer 4)]
    let history : List (Nat × Command Int) :=
      [(0, .evaluate (Text.ofString "x = (pi = 5) + rand()")), (0, .clone), (0, .snapshot),
        (1, .set (Text.ofString "pi") 6), (1, .reset)]
    ∃ e d, Evaluator.create int64 RandomSource.generator constants = .ok e ∧
      let w := ((start e (.seeded 1)).executeAll history).2
      w.session.evaluators[0]? = some d ∧ d.clone = .ok d ∧
      (w.execute 0 .clone).2.Interchangeable 0 w.session.evaluators.length ∧
      w.Isolated e.type 0 := by
  intro constants history
  obtain ⟨e, hcreate⟩ : ∃ e, Evaluator.create int64 RandomSource.generator constants = .ok e :=
    exists_of_toOption (by decide +kernel)
  obtain ⟨d, hd⟩ := exists_first e (.seeded 1) history
  obtain ⟨-, -, hclone, -, hinterchangeable, hisolated⟩ :=
    copies_faithful_isolated e (.seeded 1) history 0 d hd
  exact ⟨e, d, hcreate, hd, hclone, hinterchangeable, hisolated⟩

end Workshop

end Calculator
