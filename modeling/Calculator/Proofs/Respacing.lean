import Calculator.Proofs.Frame
import Calculator.Proofs.Online
import Calculator.Proofs.Spelling

/-!
# Blanks between tokens

`Setup.run_respaced`: if the tokens of a text are written out with blanks between them, the same
tokens are read from the new text, and its evaluation has the same outcome.

* `Cursor.plain_of_next`: each token in front of the end is a word that can be read again.
* `Cursor.SpellAlike`: two cursors from which the same words follow up to the end.
* `Config.AlikeButPlaces`: the same configuration but for the places of the token ahead and of the
  cursor.

Proof. A word with a blank or the end behind it is read as it was read in the old text, whatever
stood behind it there (`Cursor.spells_of_spaced`). What a transition does with a token depends on
its form only: places go into lexical errors and into warnings, and neither come up in front of an
end that is read without them. So the evaluations of the two texts go hand in hand.
-/

namespace Calculator

variable {σ T : Type}

/-! ## Tokens as words -/

/-- What a text gives in one of its families is a word. -/
theorem NumericType.plain_of_lexeme {type : NumericType σ T} {text : Text} {family : Family}
    {l : Lexeme T} (mem : family ∈ type.families text) (h : type.lexeme text family = .ok l) :
    l.Plain type := by
  cases family with
  | number =>
    dsimp only [lexeme] at h
    cases hparse : type.parseLiteral text with
    | ok a =>
      rw [hparse] at h
      cases h
      have hliteral : type.literal text = true := by
        by_contra hl
        simp [families, hl] at mem
      exact .number hliteral hparse
    | error f =>
      rw [hparse] at h
      cases h
  | identifier =>
    cases h
    have hname : text.isIdentifier = true := by
      by_contra hi
      simp [families, hi] at mem
    exact .identifier hname
  | punctuation =>
    have hp : (Punctuation.ofText? text).isSome = true := by
      by_contra hp
      simp [families, hp] at mem
    obtain ⟨p, hp⟩ := Option.isSome_iff_exists.1 hp
    simp only [lexeme, hp] at h
    cases h
    exact .punctuation p

namespace Lexeme.Plain

variable {type : NumericType σ T} {l : Lexeme T}

theorem isLast_eq_false (hl : l.Plain type) (position : Nat) :
    Token.isLast ⟨l, position⟩ = false := by
  cases hl <;> rfl

/-- A word belongs to one family, so there is no warning about it. -/
theorem ambiguity_eq_none (hl : l.Plain type) (h : type.PlainLiterals) (position : Nat) :
    type.ambiguity l.text position = none := by
  obtain ⟨family, hfamilies, _⟩ := hl.exists_family h
  rw [NumericType.ambiguity, hfamilies]

end Lexeme.Plain

theorem Token.eq_of_terminal_finish {t : Token T} (h : t.terminal = .finish) :
    t = ⟨.finish, t.position⟩ := by
  obtain ⟨lexeme, position⟩ := t
  cases lexeme with
  | finish => rfl
  | number | identifier | punctuation | invalid => cases h

namespace Cursor

variable {type : NumericType σ T} {c c' : Cursor} {ts : List (Token T)} {ls : List (Lexeme T)}

theorem plain_of_next {t : Token T} (ht : (c.next type).token = .ok t)
    (hlast : t.isLast = false) : t.lexeme.Plain type := by
  have hreads := c.next_reads type
  rw [ht] at hreads
  generalize (c.next type).warning = warning at hreads
  cases hreads with
  | finish | invalid => cases hlast
  | lexeme mem hlexeme => exact NumericType.plain_of_lexeme mem hlexeme

/-- The tokens up to an end are words. -/
theorem Ends.plain (h : c.Ends type ts) : ∀ l ∈ ts.map Token.lexeme, l.Plain type := by
  induction ts generalizing c with
  | nil => nofun
  | cons t ts ih =>
    obtain ⟨hread, hlast, hends⟩ := h
    rw [List.map_cons, List.forall_mem_cons]
    exact ⟨plain_of_next hread hlast, ih hends⟩

/-- Tokens that are read up to an end are spelled without a warning. -/
theorem Ends.spells (h : c.Ends type ts) (hplain : type.PlainLiterals) :
    c.Spells type (ts.map Token.lexeme ++ [.finish]) := by
  induction ts generalizing c with
  | nil =>
    obtain ⟨t, hread, hfinish⟩ := h
    have hwarning := c.next_reads type
    rw [hread] at hwarning
    rw [Token.eq_of_terminal_finish hfinish] at hread hwarning
    exact ⟨_, hread, hwarning.warning_of_ok.trans (type.ambiguity_nil _), trivial⟩
  | cons t ts ih =>
    obtain ⟨hread, hlast, hends⟩ := h
    have hwarning := c.next_reads type
    rw [hread] at hwarning
    have hnone := (plain_of_next hread hlast).ambiguity_eq_none hplain t.position
    exact ⟨t.position, hread, hwarning.warning_of_ok.trans hnone, ih hends⟩

/-- Words that are spelled up to an end are the forms of the tokens that are read. -/
theorem Spells.exists_ends (h : c.Spells type (ls ++ [.finish])) (hls : ∀ l ∈ ls, l.Plain type) :
    ∃ ts, c.Ends type ts ∧ ts.map Token.lexeme = ls := by
  induction ls generalizing c with
  | nil =>
    obtain ⟨p, hread, _⟩ := h
    exact ⟨[], ⟨_, hread, rfl⟩, rfl⟩
  | cons l ls ih =>
    obtain ⟨p, hread, _, hrest⟩ := h
    obtain ⟨hl, hls⟩ := List.forall_mem_cons.1 hls
    obtain ⟨ts, hends, hforms⟩ := ih hrest hls
    exact ⟨⟨l, p⟩ :: ts, ⟨hread, hl.isLast_eq_false p, hends⟩, by rw [List.map_cons, hforms]⟩

/-! ## The same words at other places -/

/-- From both cursors the same words are read, up to the end and without a warning. -/
def SpellAlike (type : NumericType σ T) (c c' : Cursor) : Prop :=
  ∃ ls : List (Lexeme T), (∀ l ∈ ls, l.Plain type) ∧
    c.Spells type (ls ++ [.finish]) ∧ c'.Spells type (ls ++ [.finish])

/-- The next token has the same form at both cursors, and unless it is the end, the same words
follow. -/
theorem SpellAlike.exists_next (h : c.SpellAlike type c') :
    ∃ l p p', (c.next type).token = .ok ⟨l, p⟩ ∧ (c'.next type).token = .ok ⟨l, p'⟩ ∧
      (c.next type).warning = none ∧ (c'.next type).warning = none ∧ l.terminal ≠ .invalid ∧
      (l.terminal ≠ .finish → (c.next type).cursor.SpellAlike type (c'.next type).cursor) := by
  obtain ⟨ls, hls, hspells, hspells'⟩ := h
  cases ls with
  | nil =>
    obtain ⟨p, hread, hwarning, _⟩ := hspells
    obtain ⟨p', hread', hwarning', _⟩ := hspells'
    exact ⟨.finish, p, p', hread, hread', hwarning, hwarning', nofun, fun h => absurd rfl h⟩
  | cons l ls =>
    obtain ⟨p, hread, hwarning, hrest⟩ := hspells
    obtain ⟨p', hread', hwarning', hrest'⟩ := hspells'
    obtain ⟨hl, hls⟩ := List.forall_mem_cons.1 hls
    refine ⟨l, p, p', hread, hread', hwarning, hwarning', ?_, fun _ => ⟨ls, hls, hrest, hrest'⟩⟩
    cases hl <;> exact nofun

end Cursor

namespace Config

variable {setup : Setup σ T} {c c' : Config σ T} {tokens : List (Token T)} {cursor : Cursor}

/-- The configuration with the token ahead and the cursor at other places. -/
def withPlaces (c : Config σ T) (position : Nat) (cursor : Cursor) : Config σ T :=
  { c with ahead := ⟨c.ahead.lexeme, position⟩, cursor }

/-- The same configuration but for the places of the token ahead and of the cursor, from which the
same words follow. -/
def AlikeButPlaces (type : NumericType σ T) (c c' : Config σ T) : Prop :=
  c.ahead.terminal ≠ .invalid ∧
    ∃ position cursor, (c.ahead.terminal ≠ .finish → c.cursor.SpellAlike type cursor) ∧
      c' = c.withPlaces position cursor

theorem fetch_alikeButPlaces (setup : Setup σ T) (input : Text) (c : Config σ T) (position : Nat)
    (h : c.cursor.SpellAlike setup.type cursor) :
    (c.fetch setup).Related (AlikeButPlaces setup.type) Outcome.SameButInput
      ((c.withPlaces position cursor).fetch { setup with input }) := by
  obtain ⟨l, p, p', hread, hread', hwarning, hwarning', hinvalid, hrest⟩ := h.exists_next
  simp only [fetch, withPlaces, hread, hread', hwarning, hwarning']
  exact .next ⟨hinvalid, p', _, hrest, rfl⟩

theorem Valid.reduce_alikeButPlaces (h : c.Valid tokens) (halike : c.AlikeButPlaces setup.type c')
    {item : Item} {p : Production} (control : c.control = .enter item)
    (action : item.action c.ahead.terminal = .reduce p) (input : Text) :
    (c.reduce setup p).Related (AlikeButPlaces setup.type) Outcome.SameButInput
      (c'.reduce { setup with input } p) := by
  obtain ⟨hinvalid, position, cursor, hcursor, rfl⟩ := halike
  obtain ⟨popped, rest, _, _, hoperands, _, hhandle⟩ := h.exists_handle control action
  simp only [reduce, withPlaces, hoperands, hhandle.evaluate_input]
  rcases p.evaluate setup (popped ++ rest) c.store with ⟨f | operands, store⟩
  · exact .halt ⟨rfl, rfl, rfl⟩
  · exact .next ⟨hinvalid, position, cursor, hcursor, rfl⟩

/-- A refusal of a token that starts like one tells the form of it, and no place. -/
theorem refusal_withPlaces (setup : Setup σ T) (input : Text) (c : Config σ T) (position : Nat)
    (cursor : Cursor) (item : Item) (h : c.ahead.terminal ≠ .invalid) :
    Fault.withoutInput (.error ((c.withPlaces position cursor).refusal { setup with input } item))
      = Fault.withoutInput (.error (c.refusal setup item)) := by
  simp only [refusal, withPlaces]
  split
  · next text hlexeme => exact absurd (congrArg Lexeme.terminal hlexeme) h
  · rfl

/-- A transition does the same with the same words at other places. -/
theorem Valid.step_alikeButPlaces (h : c.Valid tokens) (input : Text)
    (halike : c.AlikeButPlaces setup.type c') :
    (c.step setup).Related (AlikeButPlaces setup.type) Outcome.SameButInput
      (c'.step { setup with input }) := by
  have ⟨hinvalid, position, cursor, hcursor, heq⟩ := halike
  cases control : c.control with
  | resume =>
    have control' : c'.control = .resume := heq ▸ control
    cases frames : c.frames with
    | nil =>
      have frames' : c'.frames = [] := heq ▸ frames
      obtain ⟨accepted, ⟨a, operands⟩, _⟩ := h.accepted_of_frames control frames
      have accepted' : c'.accepted = true := heq ▸ accepted
      have operands' : c'.operands = [.value a] := heq ▸ operands
      rw [step_of_finish control frames, step_of_finish control' frames',
        finish_eq setup accepted operands, finish_eq { setup with input } accepted' operands', heq]
      exact .halt ⟨rfl, rfl, rfl⟩
    | cons item below =>
      subst heq
      rcases goOn_or_leave c item with ⟨next, after, continues⟩ | stops
      · rw [step_of_goOn control frames after continues,
          step_of_goOn control' frames after continues]
        exact .next ⟨hinvalid, position, cursor, hcursor, rfl⟩
      · rw [step_of_leave control frames stops, step_of_leave control' frames stops]
        exact .next ⟨hinvalid, position, cursor, hcursor, rfl⟩
  | enter item =>
    have control' : c'.control = .enter item := heq ▸ control
    have terminal : c'.ahead.terminal = c.ahead.terminal := heq ▸ rfl
    cases action : item.action c.ahead.terminal with
    | shift next =>
      subst heq
      -- The end is never read over, so a word is still to come in both inputs.
      have hfinish : c.ahead.terminal ≠ .finish := fun hf =>
        Item.action_finish_ne_shift item next (hf ▸ action)
      rw [step_of_shift control action, step_of_shift control' action]
      exact fetch_alikeButPlaces setup input _ position (hcursor hfinish)
    | reduce p =>
      rw [step_of_reduce control action, step_of_reduce control' (terminal ▸ action)]
      exact h.reduce_alikeButPlaces halike control action input
    | accept =>
      subst heq
      rw [step_of_accept control action, step_of_accept control' action]
      exact .next ⟨hinvalid, position, cursor, hcursor, rfl⟩
    | fail =>
      subst heq
      rw [step_of_fail control action, step_of_fail control' action]
      have hrefusal := refusal_withPlaces setup input c position cursor item hinvalid
      exact .halt ⟨congrArg Except.error hrefusal, rfl, rfl⟩

end Config

/-! ## Respaced texts -/

namespace Setup

/-- Texts that spell the same words are evaluated alike. -/
theorem run_of_spellAlike {setup : Setup σ T} {input : Text} (store : Store σ T)
    (h : (Cursor.start setup.input).SpellAlike setup.type (Cursor.start input)) :
    let other : Setup σ T := { setup with input }
    (setup.run store).SameButInput (other.run store) ∧
      other.stores store = setup.stores store ∧ other.sources store = setup.sources store := by
  intro other
  have hstart := Config.fetch_alikeButPlaces setup input (Config.initial setup store) 0 h
  obtain ⟨hrun, htrail⟩ := run_related hstart fun _ _ _ hreaches halike =>
    hreaches.valid.step_alikeButPlaces input halike
  refine ⟨hrun, (flatMap_eq_of_related ?_ htrail).symm, (flatMap_eq_of_related ?_ htrail).symm⟩
  all_goals
    rintro c c' ⟨_, _, _, _, rfl⟩
    rfl

/-- **Blanks between tokens have no effect.** Floats and integers have literals of the kind that is
asked for. If the tokens of a text are read up to an end, and another text consists of what these
tokens are spelled with, set apart by blanks, then the same tokens are read from that text. From any
variables and any state of the source, its evaluation gives the same value, or the same error but
for the input that is quoted, and it stores, draws and warns alike. -/
theorem run_respaced :
    (float64 : NumericType σ Float).PlainLiterals ∧ (int64 : NumericType σ Int).PlainLiterals ∧
    ∀ (setup : Setup σ T) (respaced : Text) (tokens : List (Token T)) (last : Token T),
      setup.type.PlainLiterals →
      (tokenize setup.type setup.input).tokens = tokens ++ [last] → last.terminal = .finish →
      Spaced (tokens.map (·.lexeme.text)) respaced →
      (tokenize setup.type respaced).tokens.map Token.lexeme
        = (tokenize setup.type setup.input).tokens.map Token.lexeme ∧
      ∀ store : Store σ T,
        let other : Setup σ T := { setup with input := respaced }
        (setup.run store).SameButInput (other.run store) ∧
          other.stores store = setup.stores store ∧ other.sources store = setup.sources store := by
  refine ⟨float64_plainLiterals, int64_plainLiterals, ?_⟩
  intro setup respaced tokens last hplain htokens hlast hspaced
  have hends : (Cursor.start setup.input).Ends setup.type tokens :=
    Cursor.ends_iff_tokenize.2 ⟨last, htokens, hlast⟩
  have hwords : Spaced ((tokens.map Token.lexeme).map Lexeme.text) respaced := by
    rwa [List.map_map]
  have hspells : (Cursor.start respaced).Spells setup.type (tokens.map Token.lexeme ++ [.finish]) :=
    Cursor.spells_of_spaced hplain hends.plain hwords 0
  refine ⟨?_, fun store => run_of_spellAlike store ⟨_, hends.plain, hends.spells hplain, hspells⟩⟩
  obtain ⟨tokens', hends', hforms⟩ := hspells.exists_ends hends.plain
  obtain ⟨last', htokens', hlast'⟩ := Cursor.ends_iff_tokenize.1 hends'
  rw [htokens, htokens', List.map_append, List.map_append, hforms,
    Token.eq_of_terminal_finish hlast, Token.eq_of_terminal_finish hlast']
  rfl

/-- An exponent mark without digits keeps its number when the name behind it is set apart. -/
theorem run_respaced_exponent :
    let setup : Setup RandomSource Float :=
      ⟨float64, RandomSource.generator, Text.ofString "2ex+1"⟩
    let respaced := Text.ofString " 2e x\t+  1 "
    (tokenize setup.type respaced).tokens.map Token.lexeme
        = (tokenize setup.type setup.input).tokens.map Token.lexeme ∧
      (setup.run ⟨.empty, .seeded 1⟩).SameButInput
        (Setup.run { setup with input := respaced } ⟨.empty, .seeded 1⟩) := by
  intro setup respaced
  let tokens := (tokenize setup.type setup.input).tokens
  have hwords : tokens.dropLast.map (·.lexeme.text)
      = [Text.ofString "2e", Text.ofString "x", Text.ofString "+", Text.ofString "1"] := by decide
  have hspaced : Spaced (tokens.dropLast.map (·.lexeme.text)) respaced := by
    rw [hwords]
    exact @Spaced.cons [32] _ _ _ rfl rfl <| @Spaced.cons [32] _ _ _ rfl rfl <|
      @Spaced.cons [9] _ _ _ rfl rfl <| @Spaced.cons [32, 32] _ _ _ rfl rfl <|
        @Spaced.nil [32] rfl
  have hne : tokens ≠ [] := List.ne_nil_of_length_pos (by decide)
  have hfinish : tokens.getLast?.map Token.terminal = some .finish := by decide
  rw [List.getLast?_eq_some_getLast hne] at hfinish
  obtain ⟨hforms, hrun⟩ := run_respaced.2.2 setup respaced tokens.dropLast (tokens.getLast hne)
    float64_plainLiterals (List.dropLast_append_getLast hne).symm (Option.some.inj hfinish) hspaced
  exact ⟨hforms, (hrun ⟨.empty, .seeded 1⟩).1⟩

end Setup

end Calculator
