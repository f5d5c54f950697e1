import Calculator.Proofs.Frame
import Calculator.Proofs.Juxtaposition
import Calculator.Proofs.Online

/-!
# Only the first line counts

`Setup.run_first_line`: what stands behind a line feed has no effect, whatever it is.

* `Cursor.append`: the same place of a longer input.
* `Cursor.next_append`: reading in front of a line feed is reading in front of the end.
* `Setup.exists_reads`: the tokens that an evaluation reads stand in a row, and none is an end.

Proof. No word goes on with a line feed, so that a word grows as far in front of one as it does in
front of the end, and behind the last word an end is found in both cases. Since an end is never read
over, the evaluation asks for no token behind it. So it takes the same readings from both inputs.
-/

namespace Calculator

variable {σ T : Type}

/-! ## Reading in front of a line feed -/

/-- A text grows as far in front of a unit that no word goes on with as it does in front of the
end. -/
theorem NumericType.growth_append {type : NumericType σ T} {u : CodeUnit} (hu : type.Delimits u)
    (taken rest behind : Text) (hne : taken ++ rest ≠ []) :
    type.growth taken (rest ++ u :: behind) = type.growth taken rest := by
  induction rest generalizing taken with
  | nil =>
    rw [List.append_nil] at hne
    exact if_pos (hu taken hne)
  | cons v rest ih =>
    have hnext : taken ++ [v] ++ rest ≠ [] := by simp
    rw [List.cons_append, growth, growth, ih _ hnext]

namespace Cursor

variable {type : NumericType σ T} {c d : Cursor}

/-- The same place of an input with some more text at its end. -/
def append (c : Cursor) (behind : Text) : Cursor := ⟨c.position, c.rest ++ behind⟩

theorem start_append (input behind : Text) : start (input ++ behind) = (start input).append behind :=
  rfl

theorem advance_append {n : Nat} (hn : n ≤ c.rest.length) (behind : Text) :
    (c.append behind).advance n = (c.advance n).append behind := by
  simp only [append, advance, List.drop_append_of_le_length hn]

/-- A line feed is no blank. -/
theorem skipBlanks_append_newline (c : Cursor) (behind : Text) :
    (c.append (Text.newline :: behind)).skipBlanks
      = c.skipBlanks.append (Text.newline :: behind) := by
  have hwhile : (c.rest ++ Text.newline :: behind).takeWhile Text.isBlank
      = c.rest.takeWhile Text.isBlank := by
    rw [List.takeWhile_append, List.takeWhile_cons_of_neg (by decide), List.append_nil]
    split
    · next h => exact (List.IsPrefix.eq_of_length (List.takeWhile_prefix _) h).symm
    · rfl
  have hle : (c.rest.takeWhile Text.isBlank).length ≤ c.rest.length :=
    (List.takeWhile_prefix _).length_le
  rw [skipBlanks, skipBlanks, ← advance_append hle, append, hwhile]

theorem munch_append {u : CodeUnit} (hu : type.Delimits u) (hne : c.rest ≠ []) (behind : Text) :
    (c.append (u :: behind)).munch type
      = { c.munch type with cursor := (c.munch type).cursor.append (u :: behind) } := by
  have hgrowth : type.growth [] (c.append (u :: behind)).rest = type.growth [] c.rest :=
    NumericType.growth_append hu [] c.rest behind hne
  have hle := type.growth_le_length [] c.rest
  have htake {n : Nat} (hn : n ≤ c.rest.length) :
      (c.append (u :: behind)).rest.take n = c.rest.take n := List.take_append_of_le_length hn
  have hone : 1 ≤ c.rest.length := List.length_pos_iff.2 hne
  have hlength : (c.rest.take (type.growth [] c.rest)).length ≤ c.rest.length :=
    (List.take_prefix _ _).length_le
  unfold munch
  dsimp only
  rw [hgrowth, htake hle, htake hone, advance_append hone, advance_append hlength]
  split <;> rfl

/-- **In front of a line feed.** Reading finds the same end, or it reads the same piece and leaves
the same place. -/
theorem next_append (h : type.Delimits Text.newline) (c : Cursor) (behind : Text) :
    let c' := c.append (Text.newline :: behind)
    (∃ p cursor cursor', c.next type = ⟨.ok ⟨.finish, p⟩, none, cursor⟩ ∧
      c'.next type = ⟨.ok ⟨.finish, p⟩, none, cursor'⟩) ∨
    c'.piece type = c.piece type ∧
      c'.next type
        = { c.next type with cursor := (c.next type).cursor.append (Text.newline :: behind) } := by
  intro c'
  have hskip : c'.skipBlanks = c.skipBlanks.append (Text.newline :: behind) :=
    skipBlanks_append_newline c behind
  have hrest' : c'.skipBlanks.rest = c.skipBlanks.rest ++ Text.newline :: behind := by
    rw [hskip]
    rfl
  have hposition : c'.skipBlanks.position = c.skipBlanks.position := by
    rw [hskip]
    rfl
  cases hrest : c.skipBlanks.rest with
  | nil =>
    rw [hrest, List.nil_append] at hrest'
    rw [next_of_nil hrest, next_of_newline hrest', hposition]
    exact .inl ⟨_, _, _, rfl, rfl⟩
  | cons u rest =>
    by_cases hu : u = Text.newline
    · subst hu
      rw [hrest, List.cons_append] at hrest'
      rw [next_of_newline hrest, next_of_newline hrest', hposition]
      exact .inl ⟨_, _, _, rfl, rfl⟩
    · have hne : c.skipBlanks.rest ≠ [] := by
        rw [hrest]
        exact List.cons_ne_nil u rest
      have hgrowth : type.growth [] c'.skipBlanks.rest = type.growth [] c.skipBlanks.rest := by
        rw [hrest']
        exact NumericType.growth_append h [] c.skipBlanks.rest behind hne
      refine .inr ⟨?_, ?_⟩
      · rw [piece, piece, hgrowth, hposition, hrest',
          List.take_append_of_le_length (type.growth_le_length [] _)]
      · rw [hrest, List.cons_append] at hrest'
        rw [next_of_ne_newline hrest hu, next_of_ne_newline hrest' hu, hskip]
        exact munch_append h hne behind

theorem reading_append (h : type.Delimits Text.newline) (c : Cursor) (behind : Text) :
    (c.append (Text.newline :: behind)).reading type = c.reading type := by
  rcases next_append h c behind with ⟨p, _, _, hnext, hnext'⟩ | ⟨hpiece, hnext'⟩
  · rw [reading, reading, hnext, hnext']
    rfl
  · rw [reading, reading, hnext', hpiece]

/-- As long as no end has been read, the readings are the same. -/
theorem readings_append (h : type.Delimits Text.newline) (behind : Text) {ts : List (Token T)}
    (hreads : c.Reads type ts d) (hlast : ∀ t ∈ ts, t.isLast = false) :
    (c.append (Text.newline :: behind)).readings type (ts.length + 1)
      = c.readings type (ts.length + 1) := by
  induction ts generalizing c with
  | nil => exact List.cons_eq_cons.2 ⟨reading_append h c behind, rfl⟩
  | cons t ts ih =>
    obtain ⟨hread, hrest⟩ := hreads
    obtain ⟨ht, hts⟩ := List.forall_mem_cons.1 hlast
    refine List.cons_eq_cons.2 ⟨reading_append h c behind, ?_⟩
    rcases next_append h c behind with ⟨p, _, _, hnext, _⟩ | ⟨_, hnext'⟩
    · rw [hnext] at hread
      cases hread
      cases ht
    · rw [hnext']
      exact ih hrest hts

/-- However many tokens are asked for, they are the same, and so are the warnings. -/
theorem take_append (h : type.Delimits Text.newline) (behind : Text) (count : Nat) (c : Cursor) :
    (c.append (Text.newline :: behind)).take type count = c.take type count := by
  induction count generalizing c with
  | zero => rfl
  | succ count ih =>
    rcases next_append h c behind with ⟨p, _, _, hnext, hnext'⟩ | ⟨_, hnext'⟩
    · rw [take, take, hnext, hnext']
      rfl
    · rw [take, take.eq_2 type c count, hnext']
      dsimp only
      rw [ih]

/-- Where the end is found, asking for more tokens gives no more. -/
theorem take_eq_of_lt {n m : Nat} (hn : c.rest.length + 1 < n) (hm : c.rest.length + 1 < m) :
    c.take type n = c.take type m := by
  induction n generalizing c m with
  | zero => omega
  | succ n ih =>
    obtain ⟨m, rfl⟩ : ∃ k, m = k + 1 := ⟨m - 1, by omega⟩
    rw [take, take]
    cases htoken : (c.next type).token with
    | error f => rfl
    | ok t =>
      cases hlast : t.isLast with
      | true =>
        have hn' : n ≠ 0 := by omega
        have hm' : m ≠ 0 := by omega
        simp only [hlast, if_true, if_neg hn', if_neg hm']
      | false =>
        have hlt := rest_length_next_lt htoken hlast
        have hrest := ih (c := (c.next type).cursor) (m := m) (by omega) (by omega)
        simp only [hlast, Bool.false_eq_true, if_false, hrest]

end Cursor

theorem tokenize_append {type : NumericType σ T} (h : type.Delimits Text.newline)
    (input behind : Text) : tokenize type (input ++ Text.newline :: behind) = tokenize type input := by
  have hlength : (input ++ Text.newline :: behind).length = input.length + (behind.length + 1) := by
    simp
  rw [tokenize, Cursor.start_append, Cursor.take_append h, tokenize]
  refine Cursor.take_eq_of_lt ?_ ?_
  all_goals
    change input.length + 1 < _
    omega

/-! ## What an evaluation reads -/

namespace Setup

variable {setup : Setup σ T} {store : Store σ T} {tokens : List (Token T)} {c : Config σ T}

theorem Reaches.exists_reads_shifted (h : setup.Reaches store tokens c) :
    (∃ d, (Cursor.start setup.input).Reads setup.type (tokens ++ c.shifted) d) ∧
      ∀ t ∈ tokens ++ c.shifted, t.isLast = false := by
  obtain ⟨hreads, hlast⟩ := h.reads
  cases control : c.control with
  | resume =>
    obtain ⟨d, hread, _⟩ := hreads.of_append
    rw [Config.shifted_of_resume control, List.append_nil]
    exact ⟨⟨d, hread⟩, hlast⟩
  | enter item =>
    cases action : item.action c.ahead.terminal with
    | shift next =>
      rw [Config.shifted_of_shift control action]
      refine ⟨⟨_, hreads⟩, fun t ht => ?_⟩
      rcases List.mem_append.1 ht with ht | ht
      · exact hlast t ht
      · rw [List.mem_singleton] at ht
        exact ht ▸ Token.isLast_eq_false_of_shift action
    | reduce | accept | fail =>
      obtain ⟨d, hread, _⟩ := hreads.of_append
      rw [Config.shifted_of_ne_shift control (by simp [action]), List.append_nil]
      exact ⟨⟨d, hread⟩, hlast⟩

/-- The tokens that an evaluation reads stand in a row, and none of them is an end. -/
theorem exists_reads (setup : Setup σ T) (store : Store σ T) :
    let shifted := (setup.trail store).flatMap Config.shifted
    (∃ d, (Cursor.start setup.input).Reads setup.type shifted d) ∧
      ∀ t ∈ shifted, t.isLast = false := by
  intro shifted
  rcases exists_halt_of_trail setup store with ⟨_, _, _, htrail⟩ | ⟨_, _, hreaches, _, hshifted⟩
  · have hnil : shifted = [] := by rw [← List.flatMap_nil, ← htrail]
    rw [hnil]
    exact ⟨⟨_, rfl⟩, nofun⟩
  · rw [show shifted = _ from hshifted]
    exact hreaches.exists_reads_shifted

/-- **Only the first line counts.** No word of floats or integers goes on with a line feed. If so,
the tokens of a text are the same, at the same places, with a line feed and any other text behind
it, however many of them are asked for. From any variables and any state of the source, the
evaluation gives the same value, or the same error but for the input that is quoted, and it stores,
draws and warns alike. -/
theorem run_first_line :
    (float64 : NumericType σ Float).Delimits Text.newline ∧
    (int64 : NumericType σ Int).Delimits Text.newline ∧
    ∀ (setup : Setup σ T) (behind : Text), setup.type.Delimits Text.newline →
      let other : Setup σ T := { setup with input := setup.input ++ Text.newline :: behind }
      tokenize other.type other.input = tokenize setup.type setup.input ∧
      (∀ count, (Cursor.start other.input).take other.type count
        = (Cursor.start setup.input).take setup.type count) ∧
      ∀ store : Store σ T, (setup.run store).SameButInput (other.run store) ∧
        other.stores store = setup.stores store ∧ other.sources store = setup.sources store := by
  refine ⟨float64_delimits rfl, int64_delimits rfl rfl, ?_⟩
  intro setup behind h other
  refine ⟨tokenize_append h setup.input behind,
    fun count => Cursor.take_append h behind count (.start setup.input), fun store => ?_⟩
  obtain ⟨⟨d, hreads⟩, hlast⟩ := exists_reads setup store
  have hreadings : (Cursor.start other.input).readings setup.type (setup.fetchCount store)
      = (Cursor.start setup.input).readings setup.type (setup.fetchCount store) :=
    Cursor.readings_append h behind hreads hlast
  obtain ⟨hrun, htrail⟩ := run_related (start_alike setup store hreadings)
    fun _ _ _ hreaches halike => hreaches.step_alike other.input halike
  refine ⟨hrun, (flatMap_eq_of_related ?_ htrail).symm, (flatMap_eq_of_related ?_ htrail).symm⟩
  all_goals
    rintro c c' ⟨_, _, rfl⟩
    rfl

/-- An exponent mark without digits at the end of the line, and a second line that is no sentence
and holds a unit that starts no token. -/
theorem run_first_line_exponent :
    let setup : Setup RandomSource Float :=
      ⟨float64, RandomSource.generator, Text.ofString "x = 1e"⟩
    let other : Setup RandomSource Float :=
      { setup with input := setup.input ++ Text.newline :: Text.ofString "5 ) ? x" }
    let store : Store RandomSource Float := ⟨.empty, .seeded 1⟩
    (tokenize other.type other.input).tokens.map (fun t => (t.lexeme.text, t.position))
        = [(Text.ofString "x", 0), (Text.ofString "=", 2), (Text.ofString "1e", 4), ([], 6)] ∧
      (setup.run store).SameButInput (other.run store) := by
  intro setup other store
  obtain ⟨htokens, -, hrun⟩ :=
    run_first_line.2.2 setup (Text.ofString "5 ) ? x") (float64_delimits rfl)
  refine ⟨?_, (hrun store).1⟩
  rw [htokens]
  decide

end Setup

end Calculator
