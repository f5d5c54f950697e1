import Calculator.Proofs.Transition
import Mathlib.Data.List.Chain
import Mathlib.Data.List.Forall2

/-!
# Trails of runs

* `Setup.trail`: the configurations that a run passes through, in order. Each of them is one that
  the run comes to (`Setup.reaches_of_mem_trail`).
* `Setup.run_related`: two runs whose transitions go hand in hand have related outcomes and related
  trails.
* `Cursor.Reads`: tokens read in a row.
* `Setup.Reaches.isPrefix_tokenize`: the tokens that a run has read, together with the one ahead,
  are the first tokens of the text.
* `Setup.flatMap_shifted_isPrefix`: those that a whole run reads, in order, are the first ones too.
-/

namespace Calculator

variable {σ T : Type}

/-! ## Trails -/

namespace Config

/-- The configurations of a run from the given one on, in order. -/
def trail (setup : Setup σ T) (c : Config σ T) : List (Config σ T) :=
  c ::
    match _h : c.step setup with
    | .next c' => trail setup c'
    | .halt _ => []
termination_by descends_wf.wrap c
decreasing_by exact step_descends ‹_›

theorem trail_of_step_next {setup : Setup σ T} {c c' : Config σ T} (h : c.step setup = .next c') :
    c.trail setup = c :: c'.trail setup := by
  rw [trail]
  split
  · next h' => rw [h] at h'; cases h'; rfl
  · next h' => rw [h] at h'; cases h'

theorem trail_of_step_halt {setup : Setup σ T} {c : Config σ T} {o : Outcome σ T}
    (h : c.step setup = .halt o) : c.trail setup = [c] := by
  rw [trail]
  split
  · next h' => rw [h] at h'; cases h'
  · rfl

/-- Each configuration of a trail comes from the one before it by a transition. -/
theorem isChain_trail (setup : Setup σ T) (c : Config σ T) :
    (c.trail setup).IsChain fun d d' => d.step setup = .next d' := by
  induction c using run_induction setup with
  | halt c o hstep =>
    rw [trail_of_step_halt hstep]
    exact .singleton c
  | next c c' hstep ih =>
    rw [trail_of_step_next hstep]
    refine ih.cons fun d hd => ?_
    rw [trail] at hd
    obtain rfl : c' = d := by simpa using hd
    exact hstep

/-- The last configuration of a trail halts. -/
theorem exists_getLast?_trail (setup : Setup σ T) (c : Config σ T) :
    ∃ d, (c.trail setup).getLast? = some d ∧ d.step setup = .halt (c.run setup) := by
  induction c using run_induction setup with
  | halt c o hstep =>
    rw [trail_of_step_halt hstep, run_of_step_halt hstep]
    exact ⟨c, rfl, hstep⟩
  | next c c' hstep ih =>
    obtain ⟨d, hlast, hd⟩ := ih
    rw [trail_of_step_next hstep, run_of_step_next hstep]
    exact ⟨d, by rw [List.getLast?_cons, hlast]; rfl, hd⟩

end Config

namespace Setup

variable {setup : Setup σ T} {store : Store σ T}

/-- The configurations of the run on the whole input, in order. There are none if the first token
cannot be read. -/
def trail (setup : Setup σ T) (store : Store σ T) : List (Config σ T) :=
  match (Config.initial setup store).fetch setup with
  | .next c => c.trail setup
  | .halt _ => []

theorem Reaches.of_mem_trail {tokens : List (Token T)} {c d : Config σ T}
    (h : setup.Reaches store tokens c) (hd : d ∈ c.trail setup) :
    ∃ tokens', setup.Reaches store tokens' d := by
  induction c using Config.run_induction setup generalizing tokens with
  | next c c' hstep ih =>
    rw [Config.trail_of_step_next hstep, List.mem_cons] at hd
    rcases hd with rfl | hd
    · exact ⟨tokens, h⟩
    · exact ih (h.step hstep) hd
  | halt c o hstep =>
    rw [Config.trail_of_step_halt hstep, List.mem_singleton] at hd
    exact ⟨tokens, hd ▸ h⟩

theorem reaches_of_mem_trail {c : Config σ T} (h : c ∈ setup.trail store) :
    ∃ tokens, setup.Reaches store tokens c := by
  unfold trail at h
  split at h
  · next c₀ hfetch => exact (Reaches.start hfetch).of_mem_trail h
  · cases h

end Setup

/-! ## Two runs hand in hand -/

section related

variable {σ' T' : Type} {R : Config σ T → Config σ' T' → Prop}
  {Q : Outcome σ T → Outcome σ' T' → Prop} {setup : Setup σ T} {setup' : Setup σ' T'}
  {store : Store σ T} {store' : Store σ' T'}

/-- Both transitions go on, to related configurations, or both end, with related outcomes. -/
inductive Transition.Related (R : Config σ T → Config σ' T' → Prop)
    (Q : Outcome σ T → Outcome σ' T' → Prop) : Transition σ T → Transition σ' T' → Prop
  | next {c : Config σ T} {c' : Config σ' T'} : R c c' → Related R Q (.next c) (.next c')
  | halt {o : Outcome σ T} {o' : Outcome σ' T'} : Q o o' → Related R Q (.halt o) (.halt o')

theorem Transition.Related.mono {R' : Config σ T → Config σ' T' → Prop} {t : Transition σ T}
    {t' : Transition σ' T'} (h : Transition.Related R Q t t')
    (hR : ∀ c c', t = .next c → R c c' → R' c c') : Transition.Related R' Q t t' := by
  cases h with
  | next h => exact .next (hR _ _ rfl h)
  | halt h => exact .halt h

theorem Transition.Related.exists_next {c : Config σ T} {t' : Transition σ' T'}
    (h : Transition.Related R Q (.next c) t') : ∃ c', t' = .next c' ∧ R c c' := by
  cases h with
  | next h => exact ⟨_, rfl, h⟩

theorem Setup.Reaches.run_related
    (hstep : ∀ tokens c c', setup.Reaches store tokens c → R c c' →
      (c.step setup).Related R Q (c'.step setup'))
    {tokens : List (Token T)} {c : Config σ T} {c' : Config σ' T'}
    (hreaches : setup.Reaches store tokens c) (h : R c c') :
    Q (c.run setup) (c'.run setup') ∧ List.Forall₂ R (c.trail setup) (c'.trail setup') := by
  -- The induction is on the first run. That the second one ends as well comes out of it.
  induction c using Config.descends_wf.induction generalizing tokens c' with
  | _ c ih =>
    have hrelated := hstep tokens c c' hreaches h
    cases hc : c.step setup with
    | next d =>
      cases hc' : c'.step setup' with
      | next d' =>
        rw [hc, hc'] at hrelated
        cases hrelated with
        | next hd =>
          obtain ⟨hrun, htrail⟩ := ih d (Config.step_descends hc) (hreaches.step hc) hd
          rw [Config.run_of_step_next hc, Config.run_of_step_next hc',
            Config.trail_of_step_next hc, Config.trail_of_step_next hc']
          exact ⟨hrun, .cons h htrail⟩
      | halt o' =>
        rw [hc, hc'] at hrelated
        cases hrelated
    | halt o =>
      cases hc' : c'.step setup' with
      | next d' =>
        rw [hc, hc'] at hrelated
        cases hrelated
      | halt o' =>
        rw [hc, hc'] at hrelated
        cases hrelated with
        | halt ho =>
          rw [Config.run_of_step_halt hc, Config.run_of_step_halt hc',
            Config.trail_of_step_halt hc, Config.trail_of_step_halt hc']
          exact ⟨ho, .cons h .nil⟩

/-- **Two runs hand in hand.** If the first tokens are read alike and related configurations make
related transitions, the outcomes are related and so are the trails, one configuration at a time. -/
theorem Setup.run_related
    (hstart : ((Config.initial setup store).fetch setup).Related R Q
      ((Config.initial setup' store').fetch setup'))
    (hstep : ∀ tokens c c', setup.Reaches store tokens c → R c c' →
      (c.step setup).Related R Q (c'.step setup')) :
    Q (setup.run store) (setup'.run store') ∧
      List.Forall₂ R (setup.trail store) (setup'.trail store') := by
  unfold run trail
  cases hfetch : (Config.initial setup store).fetch setup with
  | next c =>
    rw [hfetch] at hstart
    generalize (Config.initial setup' store').fetch setup' = t' at hstart
    cases hstart with
    | next h => exact (Reaches.start hfetch).run_related hstep h
  | halt o =>
    rw [hfetch] at hstart
    generalize (Config.initial setup' store').fetch setup' = t' at hstart
    cases hstart with
    | halt h => exact ⟨h, .nil⟩

/-- What is the same in related configurations is the same along related trails. -/
theorem flatMap_eq_of_related {α : Type} {f : Config σ T → List α} {f' : Config σ' T' → List α}
    (hf : ∀ c c', R c c' → f c = f' c') {cs : List (Config σ T)} {cs' : List (Config σ' T')}
    (h : List.Forall₂ R cs cs') : cs.flatMap f = cs'.flatMap f' := by
  induction h with
  | nil => rfl
  | cons hc _ ih => rw [List.flatMap_cons, List.flatMap_cons, hf _ _ hc, ih]

end related

/-! ## Tokens in a row -/

namespace Cursor

variable {type : NumericType σ T} {c c' : Cursor} {ts : List (Token T)}

/-- Reading from the first cursor gives the tokens, and leads to the second. -/
def Reads (type : NumericType σ T) (c : Cursor) : List (Token T) → Cursor → Prop
  | [], c' => c = c'
  | t :: ts, c' => (c.next type).token = .ok t ∧ Reads type (c.next type).cursor ts c'

theorem Reads.concat (h : c.Reads type ts c') {t : Token T} (ht : (c'.next type).token = .ok t) :
    c.Reads type (ts ++ [t]) (c'.next type).cursor := by
  induction ts generalizing c with
  | nil =>
    obtain rfl : c = c' := h
    exact ⟨ht, rfl⟩
  | cons u ts ih => exact ⟨h.1, ih h.2⟩

theorem Reads.of_append {us : List (Token T)} (h : c.Reads type (ts ++ us) c') :
    ∃ d, c.Reads type ts d ∧ d.Reads type us c' := by
  induction ts generalizing c with
  | nil => exact ⟨c, rfl, h⟩
  | cons t ts ih =>
    obtain ⟨d, hts, hus⟩ := ih h.2
    exact ⟨d, ⟨h.1, hts⟩, hus⟩

/-- Each token but an end takes up some of the input. -/
theorem Reads.length_le (h : c.Reads type ts c') (hlast : ∀ t ∈ ts, t.isLast = false) :
    ts.length + c'.rest.length ≤ c.rest.length := by
  induction ts generalizing c with
  | nil =>
    obtain rfl : c = c' := h
    simp
  | cons t ts ih =>
    obtain ⟨hread, hrest⟩ := h
    obtain ⟨ht, hts⟩ := List.forall_mem_cons.1 hlast
    have hle := ih hrest hts
    have hlt := rest_length_next_lt hread ht
    rw [List.length_cons]
    omega

theorem Reads.isPrefix_take {t : Token T} (h : c.Reads type (ts ++ [t]) c')
    (hlast : ∀ u ∈ ts, u.isLast = false) {count : Nat} (hcount : ts.length < count) :
    ts ++ [t] <+: (c.take type count).tokens := by
  induction ts generalizing c count with
  | nil =>
    obtain ⟨count, rfl⟩ : ∃ n, count = n + 1 := ⟨count - 1, by simp at hcount; omega⟩
    simp [take, h.1]
  | cons u ts ih =>
    rw [List.length_cons] at hcount
    obtain ⟨count, rfl⟩ : ∃ n, count = n + 1 := ⟨count - 1, by omega⟩
    have hu : u.isLast = false := hlast u List.mem_cons_self
    have hrest := ih h.2 (fun v hv => hlast v (List.mem_cons_of_mem u hv))
      (Nat.lt_of_succ_lt_succ hcount)
    simpa [take, h.1, hu] using hrest

end Cursor

namespace Setup

variable {setup : Setup σ T} {store : Store σ T} {tokens : List (Token T)} {c : Config σ T}

/-- A run has read the tokens of the input in a row, up to the one ahead. -/
theorem Reaches.reads (h : setup.Reaches store tokens c) :
    (Cursor.start setup.input).Reads setup.type (tokens ++ [c.ahead]) c.cursor ∧
      ∀ t ∈ tokens, t.isLast = false := by
  refine h.fetch_induction (motive := fun tokens ahead cursor _ =>
    (Cursor.start setup.input).Reads setup.type (tokens ++ [ahead]) cursor ∧
      ∀ t ∈ tokens, t.isLast = false) (fun token htoken => ⟨⟨htoken, rfl⟩, nofun⟩) ?_
  rintro tokens ahead cursor _ token ⟨hreads, hlast⟩ hahead hread
  refine ⟨hreads.concat hread, fun t ht => ?_⟩
  rcases List.mem_append.1 ht with ht | ht
  · exact hlast t ht
  · rw [List.mem_singleton] at ht
    exact ht ▸ hahead

/-- **What a run reads.** The tokens that it has read, together with the one ahead, are the first
tokens of the text. -/
theorem Reaches.isPrefix_tokenize (h : setup.Reaches store tokens c) :
    tokens ++ [c.ahead] <+: (tokenize setup.type setup.input).tokens := by
  obtain ⟨hreads, hlast⟩ := h.reads
  refine hreads.isPrefix_take hlast ?_
  obtain ⟨cursor, hfirst, _⟩ := hreads.of_append
  have hle := hfirst.length_le hlast
  change tokens.length + _ ≤ setup.input.length at hle
  omega

/-- The tokens that a transition of a run reads follow those that the run has read before. -/
theorem Reaches.isPrefix_shifted (h : setup.Reaches store tokens c) :
    tokens ++ c.shifted <+: (tokenize setup.type setup.input).tokens := by
  refine List.IsPrefix.trans ?_ h.isPrefix_tokenize
  rw [List.prefix_append_right_inj]
  unfold Config.shifted
  split
  · split
    · exact List.prefix_rfl
    · exact List.nil_prefix
  · exact List.nil_prefix

/-- A run halts in a configuration that it comes to, with all tokens read that it reads. -/
theorem Reaches.exists_halt_of_trail (h : setup.Reaches store tokens c) :
    ∃ tokens' d, setup.Reaches store tokens' d ∧ d.Halt setup (c.run setup) ∧
      tokens ++ (c.trail setup).flatMap Config.shifted = tokens' ++ d.shifted := by
  induction c using Config.run_induction setup generalizing tokens with
  | halt c o hstep =>
    rw [Config.trail_of_step_halt hstep, Config.run_of_step_halt hstep, List.flatMap_singleton]
    exact ⟨tokens, c, h, Config.halt_of_step hstep, rfl⟩
  | next c c' hstep ih =>
    rw [Config.trail_of_step_next hstep, Config.run_of_step_next hstep, List.flatMap_cons,
      ← List.append_assoc]
    exact ih (h.step hstep)

/-- **The end of a whole run.** The first token cannot be read, or the run halts in a configuration
that it comes to, with all tokens read that it reads. -/
theorem exists_halt_of_trail (setup : Setup σ T) (store : Store σ T) :
    (∃ f, ((Cursor.start setup.input).next setup.type).token = .error f ∧
      setup.run store
        = ⟨.error f, store, ((Cursor.start setup.input).next setup.type).warning.toList⟩ ∧
      setup.trail store = []) ∨
    ∃ tokens c, setup.Reaches store tokens c ∧ c.Halt setup (setup.run store) ∧
      (setup.trail store).flatMap Config.shifted = tokens ++ c.shifted := by
  cases hread : ((Cursor.start setup.input).next setup.type).token with
  | error f => exact .inl ⟨f, rfl, by rw [run, fetch_initial hread], by
      rw [trail, fetch_initial hread]⟩
  | ok token =>
    right
    rw [run, trail]
    cases hfetch : (Config.initial setup store).fetch setup with
    | next c => exact (Reaches.start hfetch).exists_halt_of_trail
    | halt o => simp [Config.fetch, Config.initial, hread] at hfetch

/-- **What a whole run reads**, one token after the other: the first tokens of the text. -/
theorem flatMap_shifted_isPrefix (setup : Setup σ T) (store : Store σ T) :
    (setup.trail store).flatMap Config.shifted <+: (tokenize setup.type setup.input).tokens := by
  rcases exists_halt_of_trail setup store with ⟨_, _, _, htrail⟩ | ⟨_, _, hreaches, _, hshifted⟩
  · rw [htrail]
    exact List.nil_prefix
  · rw [hshifted]
    exact hreaches.isPrefix_shifted

end Setup

end Calculator
