import Calculator.Proofs.Juxtaposition
import Calculator.Proofs.Online

/-!
# Warnings are exact

`Setup.run_warns`: what is reported while a text is evaluated or tokenized is one warning for each
fetch whose whole text belongs to two families or more, and nothing else.

* `NumericType.belongs`: the families that a text belongs to, one by one.
* `Cursor.due`: the warning that is due about a fetch.
* `Cursor.dues`: those about the first fetches.
* `Cursor.Warns`: what a warning says about the fetch that it is due to.

Proof. Reading decides on the warning by the text that the token has grown to, so one fetch reports
what is due. A transition fetches at most once and reports nothing else, and the fetches of a run
stand in a row. For floats and integers nothing is ever due: their literals start with a digit,
identifiers with a letter, and punctuation is neither.
-/

namespace Calculator

variable {σ T : Type}

/-! ## Families -/

/-- The families in the order in which they count. -/
def Family.all : List Family := [number, identifier, punctuation]

namespace NumericType

variable (type : NumericType σ T)

/-- Whether the whole text belongs to the family. -/
def belongs (text : Text) : Family → Bool
  | .number => type.literal text
  | .identifier => text.isIdentifier
  | .punctuation => (Punctuation.ofText? text).isSome

theorem families_eq_filter (text : Text) :
    type.families text = Family.all.filter (type.belongs text) := by
  cases hliteral : type.literal text <;> cases hidentifier : text.isIdentifier <;>
    cases hp : (Punctuation.ofText? text).isSome <;>
    simp [families, Family.all, belongs, hliteral, hidentifier, hp]

theorem ambiguity_eq_ite (text : Text) (position : Nat) :
    type.ambiguity text position =
      if 2 ≤ (type.families text).length then some ⟨text, position, type.families text⟩
      else none := by
  rw [ambiguity]
  rcases type.families text with _ | ⟨family, _ | ⟨other, others⟩⟩ <;> simp

theorem length_families_nil_le : (type.families []).length ≤ 1 := by
  cases hliteral : type.literal [] <;>
    simp [families, hliteral, Text.isIdentifier, Punctuation.ofText?]

/-- No text belongs to two families. -/
def Unambiguous : Prop := ∀ text, (type.families text).length ≤ 1

/-- Digits, letters and punctuation are different units. -/
theorem PlainLiterals.unambiguous {type : NumericType σ T} (h : type.PlainLiterals) :
    type.Unambiguous := by
  intro text
  cases text with
  | nil => exact type.length_families_nil_le
  | cons u text =>
    cases hliteral : type.literal (u :: text) with
    | true =>
      have hu := h.digit u text hliteral
      simp [families, hliteral, Text.isIdentifier, Text.isLetter_of_isDigit hu,
        Punctuation.ofText?_cons_of_ne (Punctuation.ne_unit_of_isDigit hu)]
    | false =>
      cases hidentifier : Text.isIdentifier (u :: text) with
      | true =>
        have hu : Text.isLetter u = true := (Bool.and_eq_true_iff.1 hidentifier).1
        simp [families, hliteral, hidentifier,
          Punctuation.ofText?_cons_of_ne (Punctuation.ne_unit_of_isLetter hu)]
      | false =>
        cases hp : (Punctuation.ofText? (u :: text)).isSome <;>
          simp [families, hliteral, hidentifier, hp]

end NumericType

/-! ## One fetch -/

namespace Cursor

variable {type : NumericType σ T} {c : Cursor} {a : Ambiguity}

/-- The text that is fetched from a cursor, and its place: those of the token, or of the literal
that is refused. -/
def fetched (type : NumericType σ T) (c : Cursor) : Text × Nat :=
  match (c.next type).token with
  | .ok t => (t.lexeme.text, t.position)
  | .error _ => c.piece type

/-- The warning that is due about a fetch: the whole text that is fetched with its place and all of
its families, if these are two or more. -/
def due (type : NumericType σ T) (c : Cursor) : Option Ambiguity :=
  let (text, position) := c.fetched type
  let families := Family.all.filter (type.belongs text)
  if 2 ≤ families.length then some ⟨text, position, families⟩ else none

theorem fetched_of_ok {t : Token T} (h : (c.next type).token = .ok t) :
    c.fetched type = (t.lexeme.text, t.position) := by
  rw [fetched, h]

theorem due_eq_ambiguity (type : NumericType σ T) (c : Cursor) :
    c.due type = type.ambiguity (c.fetched type).1 (c.fetched type).2 := by
  rw [NumericType.ambiguity_eq_ite, NumericType.families_eq_filter, due]

/-- A fetch reports what is due. -/
theorem warning_eq_due (type : NumericType σ T) (c : Cursor) :
    (c.next type).warning = c.due type := by
  have hreads := c.next_reads type
  rw [due_eq_ambiguity, fetched]
  cases htoken : (c.next type).token with
  | ok t =>
    rw [htoken] at hreads
    exact hreads.warning_of_ok
  | error f =>
    rw [htoken] at hreads
    exact hreads.warning_of_error

/-- What a warning says about the fetch that it is due to. -/
structure Warns (type : NumericType σ T) (input : Text) (c : Cursor) (a : Ambiguity) : Prop where
  /-- Only blanks stand in front of the token. -/
  blanks : c.position ≤ a.position ∧
    ∀ u ∈ input.extract c.position a.position, Text.isBlank u = true
  /-- The fragment is what the token takes up of the input. -/
  fragment : (c.next type).cursor.position = a.position + a.fragment.length ∧
    input.extract a.position (c.next type).cursor.position = a.fragment ∧ a.fragment ≠ []
  /-- With the unit behind it, if there is one, the fragment belongs to no family. -/
  whole : ∀ u, input[(c.next type).cursor.position]? = some u → ¬ type.Matches (a.fragment ++ [u])
  /-- The families are all that the fragment belongs to, and there are several. -/
  families : a.families = Family.all.filter (type.belongs a.fragment) ∧ 2 ≤ a.families.length
  /-- The first of the families counts. -/
  first : type.FirstFamily a.fragment a.position (c.next type).token

/-- What belongs to several families has grown from the first unit that is not blank. -/
theorem growth_pos_of_due (h : c.due type = some a) :
    0 < type.growth [] c.skipBlanks.rest ∧ c.next type = c.skipBlanks.munch type := by
  have hnone {t : Token T} (htoken : (c.next type).token = .ok t)
      (hfamilies : type.ambiguity t.lexeme.text t.position = none) : False := by
    rw [due_eq_ambiguity, fetched_of_ok htoken, hfamilies] at h
    cases h
  cases hrest : c.skipBlanks.rest with
  | nil =>
    exact (hnone (congrArg Fetch.token (next_of_nil hrest)) (type.ambiguity_nil _)).elim
  | cons u rest =>
    by_cases hu : u = Text.newline
    · subst hu
      exact (hnone (congrArg Fetch.token (next_of_newline hrest)) (type.ambiguity_nil _)).elim
    · have hnext : c.next type = c.skipBlanks.munch type := next_of_ne_newline hrest hu
      refine ⟨Nat.pos_of_ne_zero fun hgrowth => ?_, hnext⟩
      rw [← hrest] at hgrowth
      have htoken : (c.next type).token = .ok ⟨.invalid [u], c.skipBlanks.position⟩ := by
        rw [hnext, munch_of_growth_eq_zero hgrowth, hrest]
        rfl
      rw [hrest] at hgrowth
      exact hnone htoken
        (type.ambiguity_of_families_eq_nil (type.families_eq_nil_of_growth hgrowth) _)

/-- A token that has grown has the text that it has grown to. -/
theorem fetched_of_growth_pos (hpos : 0 < type.growth [] c.skipBlanks.rest)
    (hnext : c.next type = c.skipBlanks.munch type) :
    c.fetched type = c.piece type ∧
      type.FirstFamily (c.piece type).1 (c.piece type).2 (c.next type).token ∧
      (c.next type).cursor = c.skipBlanks.advance (c.piece type).1.length := by
  obtain ⟨family, others, hfamilies, htoken, hcursor⟩ :
      ∃ family others, type.families (c.piece type).1 = family :: others ∧
        (c.next type).token = (type.lexeme (c.piece type).1 family).map (⟨·, (c.piece type).2⟩) ∧
        (c.next type).cursor = c.skipBlanks.advance (c.piece type).1.length := by
    rw [hnext]
    exact munch_of_growth_pos hpos
  refine ⟨?_, ?_, hcursor⟩
  · rw [fetched, htoken]
    cases hlexeme : type.lexeme (c.piece type).1 family with
    | ok l => exact Prod.ext (NumericType.text_of_lexeme hlexeme) rfl
    | error f => rfl
  · rw [htoken]
    exact NumericType.firstFamily_lexeme hfamilies _

/-- At a place of the input, blanks are skipped up to another one. -/
theorem StandsIn.skipBlanks {input : Text} (h : c.StandsIn input) :
    input.extract c.position c.skipBlanks.position = c.rest.takeWhile Text.isBlank ∧
      input.drop c.skipBlanks.position = c.skipBlanks.rest := by
  have hdrop : input.drop c.position = c.rest.takeWhile Text.isBlank ++ c.skipBlanks.rest := by
    rw [← h.rest, skipBlanks_eq]
    exact List.takeWhile_append_dropWhile.symm
  refine ⟨Text.extract_of_drop hdrop, ?_⟩
  change input.drop (c.position + (c.rest.takeWhile Text.isBlank).length) = _
  rw [← List.drop_drop, hdrop, List.drop_left]

/-- **One warning.** A warning is about the whole token at its place, and names all families that
the token belongs to. The first of them counts. -/
theorem StandsIn.warns {input : Text} (hc : c.StandsIn input) (h : c.due type = some a) :
    c.Warns type input a := by
  obtain ⟨hpos, hnext⟩ := growth_pos_of_due h
  obtain ⟨hfetched, hfirst, hcursor⟩ := fetched_of_growth_pos hpos hnext
  rw [due_eq_ambiguity, hfetched, NumericType.ambiguity_eq_ite] at h
  obtain ⟨hfamilies, rfl⟩ : 2 ≤ (type.families (c.piece type).1).length ∧
      a = ⟨(c.piece type).1, (c.piece type).2, type.families (c.piece type).1⟩ := by
    split at h
    · next hfamilies => exact ⟨hfamilies, (Option.some.inj h).symm⟩
    · cases h
  obtain ⟨hblanks, hdrop⟩ := hc.skipBlanks
  have hlength : (c.piece type).1.length = type.growth [] c.skipBlanks.rest := by
    rw [piece, List.length_take, Nat.min_eq_left (type.growth_le_length [] _)]
  have hbehind : (c.next type).cursor.rest
      = c.skipBlanks.rest.drop (type.growth [] c.skipBlanks.rest) := by
    rw [hcursor, ← hlength]
    rfl
  have hpiece : input.drop c.skipBlanks.position
      = (c.piece type).1 ++ (c.next type).cursor.rest := by
    rw [hdrop, hbehind]
    exact (List.take_append_drop _ _).symm
  have hstands : (c.next type).cursor.StandsIn input := hc.next
  refine ⟨⟨Nat.le_add_right _ _, fun u hu => ?_⟩, ⟨by rw [hcursor]; rfl, ?_, ?_⟩, fun u hu => ?_,
    ⟨type.families_eq_filter _, hfamilies⟩, hfirst⟩
  · rw [piece, hblanks] at hu
    exact List.all_eq_true.1 List.all_takeWhile u hu
  · rw [hcursor]
    exact Text.extract_of_drop hpiece
  · rw [← List.length_pos_iff, hlength]
    exact hpos
  · rw [← NumericType.families_ne_nil_iff, not_not]
    refine type.families_take_growth_append [] c.skipBlanks.rest u ?_
    rw [← hbehind, hstands.rest, List.head?_drop]
    exact hu

/-! ## Fetches in a row -/

/-- The warnings that are due about the first fetches, in order. -/
def dues (type : NumericType σ T) (n : Nat) (c : Cursor) : List Ambiguity :=
  (List.range n).filterMap fun k => (c.after type k).due type

theorem dues_succ (type : NumericType σ T) (n : Nat) (c : Cursor) :
    c.dues type (n + 1) = (c.due type).toList ++ (c.next type).cursor.dues type n := by
  have hrest : (List.range n).filterMap (fun k => (c.after type (k + 1)).due type)
      = (c.next type).cursor.dues type n :=
    List.filterMap_congr fun k _ => by rw [after_succ]
  rw [dues, List.range_succ_eq_map, List.filterMap_cons, List.filterMap_map, ← hrest, after]
  cases c.due type <;> rfl

theorem dues_concat (type : NumericType σ T) (n : Nat) (c : Cursor) :
    c.dues type (n + 1) = c.dues type n ++ ((c.after type n).due type).toList := by
  simp only [dues, List.range_succ, List.filterMap_append]
  cases h : (c.after type n).due type <;> simp [h]

theorem dues_eq_nil (h : type.Unambiguous) (n : Nat) (c : Cursor) : c.dues type n = [] := by
  refine List.filterMap_eq_nil_iff.2 fun k _ => ?_
  have hle := h ((c.after type k).fetched type).1
  rw [due_eq_ambiguity, NumericType.ambiguity_eq_ite, if_neg (by omega)]

theorem position_after_mono (type : NumericType σ T) (input : Text) :
    Monotone fun n => ((start input).after type n).position :=
  monotone_nat_of_le_succ fun n => ((standsIn_after type input n).slices type).le

/-- A later warning is about a later place, so none is about the same token. -/
theorem pairwise_dues (type : NumericType σ T) (input : Text) (n : Nat) :
    ((start input).dues type n).Pairwise fun a b => a.position < b.position := by
  refine List.pairwise_filterMap.2 (List.pairwise_lt_range.imp fun {j k} hjk a ha b hb => ?_)
  have hfirst := (standsIn_after type input j).warns ha
  have hsecond := (standsIn_after type input k).warns hb
  have hpos := List.length_pos_iff.2 hfirst.fragment.2.2
  have hbehind := hfirst.fragment.1
  have hle := position_after_mono type input (Nat.succ_le_of_lt hjk)
  have hblanks := hsecond.blanks.1
  simp only [after] at hle
  omega

end Cursor

namespace TokenList

/-- How many tokens have been fetched, with the one that could not be read. -/
def fetchCount (list : TokenList T) : Nat :=
  list.tokens.length + match list.ending with
    | .failed _ => 1
    | .unfinished | .complete => 0

theorem fetchCount_cons (t : Token T) (warnings : List Ambiguity) (list : TokenList T) :
    fetchCount ⟨t :: list.tokens, warnings, list.ending⟩ = list.fetchCount + 1 := by
  rw [fetchCount, List.length_cons]
  exact Nat.add_right_comm _ _ _

end TokenList

theorem Cursor.warnings_take (type : NumericType σ T) (count : Nat) (c : Cursor) :
    (c.take type count).warnings = c.dues type (c.take type count).fetchCount := by
  induction count generalizing c with
  | zero => rfl
  | succ count ih =>
    rw [take]
    dsimp only
    rw [warning_eq_due]
    cases htoken : (c.next type).token with
    | error f => exact (dues_succ type 0 c ▸ List.append_nil _).symm
    | ok t =>
      dsimp only
      rw [TokenList.fetchCount_cons, dues_succ]
      cases t.isLast with
      | true => cases count <;> rfl
      | false => exact congrArg _ (ih (c.next type).cursor)

/-! ## Runs -/

namespace Setup

variable {setup : Setup σ T} {store : Store σ T} {tokens : List (Token T)} {c : Config σ T}

/-- A run has reported what is due about the tokens that it has read and the one ahead. -/
theorem Reaches.warnings (h : setup.Reaches store tokens c) :
    c.cursor = (Cursor.start setup.input).after setup.type (tokens.length + 1) ∧
      c.warnings = (Cursor.start setup.input).dues setup.type (tokens.length + 1) := by
  refine h.fetch_induction (motive := fun tokens _ cursor warnings =>
    cursor = (Cursor.start setup.input).after setup.type (tokens.length + 1) ∧
      warnings = (Cursor.start setup.input).dues setup.type (tokens.length + 1))
    (fun token _ => ⟨rfl, ?_⟩) ?_
  · rw [Cursor.warning_eq_due, List.length_nil, Cursor.dues_concat]
    rfl
  · rintro tokens ahead cursor warnings token ⟨rfl, rfl⟩ _ _
    rw [List.length_append, List.length_singleton]
    exact ⟨rfl, by rw [Cursor.dues_concat _ (tokens.length + 1), Cursor.warning_eq_due]⟩

theorem warnings_run (setup : Setup σ T) (store : Store σ T) :
    (setup.run store).warnings
      = (Cursor.start setup.input).dues setup.type (setup.fetchCount store) := by
  rw [fetchCount]
  rcases exists_halt_of_trail setup store with
    ⟨f, _, hrun, htrail⟩ | ⟨tokens, c, hreaches, hhalt, hshifted⟩
  · rw [hrun, htrail, Cursor.warning_eq_due]
    exact (Cursor.dues_succ setup.type 0 _ ▸ List.append_nil _).symm
  · obtain ⟨hcursor, hwarnings⟩ := hreaches.warnings
    rw [hshifted, List.length_append]
    generalize setup.run store = o at hhalt ⊢
    cases hhalt with
    | unreadable control action read =>
      rw [Config.shifted_of_shift control action, List.length_singleton, Cursor.dues_concat,
        ← hcursor, ← hwarnings, Cursor.warning_eq_due]
    | failed control action _ | refused control action =>
      rw [Config.shifted_of_ne_shift control (by simp [action])]
      exact hwarnings
    | finished control frames =>
      obtain ⟨accepted, ⟨a, operands⟩, _⟩ := hreaches.valid.accepted_of_frames control frames
      rw [Config.shifted_of_resume control, Config.finish_eq setup accepted operands]
      exact hwarnings

/-- **Warnings are exact.** Whatever the literals of a type are, an evaluation and a tokenization
report what is due about each token that they fetch, in order and nothing else: the whole text of
the token, its place and all families that it belongs to, if these are two or more. The first of
them counts. No two warnings are about the same place. Floats and integers have the property that no
text belongs to two families, with which nothing is reported. -/
theorem run_warns :
    (float64 : NumericType σ Float).Unambiguous ∧ (int64 : NumericType σ Int).Unambiguous ∧
    ∀ (type : NumericType σ T) (input : Text),
      let start := Cursor.start input
      let run (g : Generator σ) := Setup.run ⟨type, g, input⟩
      (∀ g store, (run g store).warnings
        = start.dues type (Setup.fetchCount ⟨type, g, input⟩ store)) ∧
      (∀ count, (start.take type count).warnings
        = start.dues type (start.take type count).fetchCount) ∧
      (∀ k a, (start.after type k).due type = some a →
        (start.after type k).Warns type input a) ∧
      (∀ n, (start.dues type n).Pairwise fun a b => a.position < b.position) ∧
      (type.Unambiguous → (∀ g store, (run g store).warnings = []) ∧
        ∀ count, (start.take type count).warnings = []) := by
  refine ⟨float64_plainLiterals.unambiguous, int64_plainLiterals.unambiguous, ?_⟩
  intro type input start run
  have hrun : ∀ g store, (run g store).warnings
      = start.dues type (Setup.fetchCount ⟨type, g, input⟩ store) :=
    fun g store => warnings_run ⟨type, g, input⟩ store
  have htake : ∀ count, (start.take type count).warnings
      = start.dues type (start.take type count).fetchCount :=
    fun count => start.warnings_take type count
  refine ⟨hrun, htake, fun k a h => (Cursor.standsIn_after type input k).warns h,
    Cursor.pairwise_dues type input, fun h => ⟨fun g store => ?_, fun count => ?_⟩⟩
  · rw [hrun, Cursor.dues_eq_nil h]
  · rw [htake, Cursor.dues_eq_nil h]

/-- With hexadecimal literals there is a warning about a number that is an identifier as well, and
none about an identifier that starts like it. -/
theorem run_warns_hexadecimal :
    let isDigit (u : CodeUnit) : Bool := Text.isDigit u || decide (97 ≤ u ∧ u ≤ 102)
    let type : NumericType RandomSource Int :=
      { int64 with
        literal := fun t => !t.isEmpty && t.all isDigit
        parseLiteral := fun t => .ok t.length }
    let input := Text.ofString "ab + abg"
    let start := Cursor.start input
    let warning : Ambiguity := ⟨Text.ofString "ab", 0, [.number, .identifier]⟩
    (start.take type 4).warnings = [warning] ∧ start.Warns type input warning := by
  intro isDigit type input start warning
  obtain ⟨-, -, hexact⟩ := run_warns (σ := RandomSource) (T := Int)
  obtain ⟨-, htake, hwarns, -⟩ := hexact type input
  have hcount : (start.take type 4).fetchCount = 4 := by decide
  have hdues : start.dues type 4 = [warning] := by decide
  exact ⟨by rw [htake, hcount, hdues], hwarns 0 warning (by decide)⟩

end Setup

end Calculator
