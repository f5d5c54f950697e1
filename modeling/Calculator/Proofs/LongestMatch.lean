import Calculator.Proofs.Reading
import Calculator.Proofs.Spelling

/-!
# Longest match

`Cursor.next_longest`: where each non-empty start of a literal is a literal, the next token is the
longest one that starts behind the blanks, in the first family that it belongs to.

* `Text.PrefixClosed`: forms that each non-empty start of a text of the form has too.
* `NumericType.Matches`: the texts that belong to some family.
* `NumericType.matches_take_iff`: the starts of the input that belong to some family are those up to
  the length to which a token grows.
* `NumericType.IsLongest`: the longest start of the input that belongs to some family.
* `NumericType.FirstFamily`: what a text gives in the first of its families.

Proof. Growing stops at the first start of the input that belongs to no family. As the families are
closed together, no longer start belongs to any of them, so that what has grown is the longest
match, and looking at one unit more than it takes is enough to see that.
-/

namespace Calculator

variable {σ T : Type}

/-! ## Forms of all starts -/

/-- Each non-empty start of a text of the form has the form too. -/
def Text.PrefixClosed (form : Text → Bool) : Prop :=
  ∀ t s, t ≠ [] → form (t ++ s) = true → form t = true

namespace NumericType

variable {type : NumericType σ T} {t s taken rest : Text} {n : Nat}

/-- The text is a literal, an identifier or punctuation. -/
def Matches (type : NumericType σ T) (t : Text) : Prop :=
  type.literal t = true ∨ t.isIdentifier = true ∨ ∃ p : Punctuation, t = [p.unit]

theorem families_ne_nil_iff : type.families t ≠ [] ↔ type.Matches t := by
  have hpunctuation : (Punctuation.ofText? t).isSome = true ↔ ∃ p : Punctuation, t = [p.unit] := by
    simp only [Option.isSome_iff_exists, Punctuation.ofText?_eq_some_iff]
  rw [Matches, ← hpunctuation, families]
  cases type.literal t <;> cases t.isIdentifier <;> cases (Punctuation.ofText? t).isSome <;> simp

theorem Matches.of_append (h : type.Matches (t ++ s)) (hclosed : Text.PrefixClosed type.literal)
    (ht : t ≠ []) : type.Matches t := by
  rcases h with h | h | ⟨p, h⟩
  · exact .inl (hclosed t s ht h)
  · exact .inr (.inl (Text.isIdentifier_of_append ht h))
  · have hs : s = [] := by
      have hlength := congrArg List.length h
      have hpos := List.length_pos_iff.2 ht
      simp only [List.length_append, List.length_singleton] at hlength
      exact List.length_eq_zero_iff.1 (by omega)
    rw [hs, List.append_nil] at h
    exact .inr (.inr ⟨p, h⟩)

theorem growth_le_length (taken rest : Text) : type.growth taken rest ≤ rest.length := by
  induction rest generalizing taken with
  | nil => simp [growth]
  | cons u rest ih =>
    have hrest := ih (taken ++ [u])
    rw [growth, List.length_cons]
    split <;> omega

/-- **Growing finds all matches.** Of the starts of the input, those up to the length to which a
token grows belong to some family, and no others. -/
theorem matches_take_iff (hclosed : Text.PrefixClosed type.literal) (hpos : 0 < n)
    (hn : n ≤ rest.length) :
    type.Matches (taken ++ rest.take n) ↔ n ≤ type.growth taken rest := by
  induction rest generalizing taken n with
  | nil => simp only [List.length_nil] at hn; omega
  | cons u rest ih =>
    obtain ⟨n, rfl⟩ : ∃ m, n = m + 1 := ⟨n - 1, by omega⟩
    rw [List.take_succ_cons, List.append_cons, growth]
    by_cases hu : type.families (taken ++ [u]) = []
    · -- No match goes on from here, since it would start with a text that is none.
      have hnone : ¬ type.Matches (taken ++ [u]) := by
        rw [← families_ne_nil_iff]
        simp [hu]
      have hlonger : ¬ type.Matches (taken ++ [u] ++ rest.take n) := fun h =>
        hnone (h.of_append hclosed (by simp))
      rw [if_pos hu]
      exact ⟨fun h => absurd h hlonger, fun h => by omega⟩
    · have hsome : type.Matches (taken ++ [u]) := families_ne_nil_iff.1 hu
      rw [if_neg hu]
      cases n with
      | zero => simp [hsome]
      | succ n =>
        rw [ih (by omega) (by simpa using hn)]
        omega

theorem matches_iff_length_le_growth (hclosed : Text.PrefixClosed type.literal) (hs : s ≠ [])
    (hinit : s <+: rest) : type.Matches s ↔ s.length ≤ type.growth [] rest := by
  have htake : s = rest.take s.length := List.prefix_iff_eq_take.1 hinit
  have hmatches : type.Matches ([] ++ rest.take s.length) ↔ s.length ≤ type.growth [] rest :=
    matches_take_iff hclosed (List.length_pos_iff.2 hs) hinit.length_le
  rwa [List.nil_append, ← htake] at hmatches

/-- Of the starts of the input that belong to some family, the text is the longest one that is not
empty. -/
structure IsLongest (type : NumericType σ T) (rest t : Text) : Prop where
  ne_nil : t ≠ []
  isPrefix : t <+: rest
  isMatch : type.Matches t
  longest : ∀ s, s ≠ [] → s <+: rest → type.Matches s → s.length ≤ t.length

theorem isLongest_take_growth (hclosed : Text.PrefixClosed type.literal)
    (h : 0 < type.growth [] rest) : type.IsLongest rest (rest.take (type.growth [] rest)) := by
  have hlength : (rest.take (type.growth [] rest)).length = type.growth [] rest := by
    simp [type.growth_le_length]
  have hne : rest.take (type.growth [] rest) ≠ [] := List.length_pos_iff.1 (by omega)
  refine ⟨hne, List.take_prefix _ _, ?_, fun s hs hinit hmatch => ?_⟩
  · exact families_ne_nil_iff.1 (type.families_take_growth_ne_nil h)
  · rw [hlength]
    exact (matches_iff_length_le_growth hclosed hs hinit).1 hmatch

/-! ## Tokens of a text -/

/-- What the text at a position gives in the first of its families: a token, or the fault with which
a literal is refused. -/
inductive FirstFamily (type : NumericType σ T) (t : Text) (position : Nat) :
    Except Fault (Token T) → Prop
  | number {a : T} : type.literal t = true → type.parseLiteral t = .ok a →
    FirstFamily type t position (.ok ⟨.number a t, position⟩)
  | refused {f : Fault} : type.literal t = true → type.parseLiteral t = .error f →
    FirstFamily type t position (.error f)
  | identifier : type.literal t = false → t.isIdentifier = true →
    FirstFamily type t position (.ok ⟨.identifier t, position⟩)
  | punctuation (p : Punctuation) : type.literal t = false → t.isIdentifier = false →
    t = [p.unit] → FirstFamily type t position (.ok ⟨.punctuation p, position⟩)

theorem firstFamily_lexeme {family : Family} {others : List Family}
    (h : type.families t = family :: others) (position : Nat) :
    type.FirstFamily t position ((type.lexeme t family).map (⟨·, position⟩)) := by
  cases hliteral : type.literal t with
  | true =>
    obtain rfl : family = .number := by simp [families, hliteral] at h; exact h.1.symm
    rw [lexeme]
    cases hparse : type.parseLiteral t with
    | ok a => exact .number hliteral hparse
    | error f => exact .refused hliteral hparse
  | false =>
    cases hidentifier : t.isIdentifier with
    | true =>
      obtain rfl : family = .identifier := by
        simp [families, hliteral, hidentifier] at h
        exact h.1.symm
      exact .identifier hliteral hidentifier
    | false =>
      cases hp : Punctuation.ofText? t with
      | none => simp [families, hliteral, hidentifier, hp] at h
      | some p =>
        obtain rfl : family = .punctuation := by
          simp [families, hliteral, hidentifier, hp] at h
          exact h.1.symm
        simp only [lexeme, hp]
        exact .punctuation p hliteral hidentifier (Punctuation.ofText?_eq_some_iff.1 hp)

end NumericType

/-! ## Reading the longest match -/

namespace Cursor

variable {type : NumericType σ T} {c : Cursor}

theorem skipBlanks_eq (c : Cursor) :
    c.skipBlanks = ⟨c.position + (c.rest.takeWhile Text.isBlank).length,
      c.rest.dropWhile Text.isBlank⟩ := by
  have hdrop : c.rest.drop (c.rest.takeWhile Text.isBlank).length
      = c.rest.dropWhile Text.isBlank := by
    have hsplit : c.rest = c.rest.takeWhile Text.isBlank ++ c.rest.dropWhile Text.isBlank :=
      List.takeWhile_append_dropWhile.symm
    exact (congrArg (List.drop _) hsplit).trans List.drop_left
  rw [skipBlanks, advance, hdrop]

theorem munch_of_growth_pos (h : 0 < type.growth [] c.rest) :
    let t := c.rest.take (type.growth [] c.rest)
    ∃ family others, type.families t = family :: others ∧
      (c.munch type).token = (type.lexeme t family).map (⟨·, c.position⟩) ∧
      (c.munch type).cursor = c.advance t.length := by
  intro t
  have hfamilies : type.families t ≠ [] := type.families_take_growth_ne_nil h
  have hne : t ≠ [] := by
    rw [← List.length_pos_iff, List.length_take]
    have hle := type.growth_le_length [] c.rest
    omega
  obtain ⟨family, others, hfamily⟩ := List.exists_cons_of_ne_nil hfamilies
  obtain ⟨u, t', ht⟩ := List.exists_cons_of_ne_nil hne
  unfold munch
  dsimp only
  split
  · next family' others' _ hfamily' => exact ⟨family', others', hfamily', rfl, rfl⟩
  · next hnone => exact (hnone u t' family others ht hfamily).elim

theorem munch_of_growth_eq_zero (h : type.growth [] c.rest = 0) :
    c.munch type = ⟨.ok ⟨.invalid (c.rest.take 1), c.position⟩, none, c.advance 1⟩ := by
  simp [munch, h]

theorem next_of_nil (h : c.skipBlanks.rest = []) :
    c.next type = ⟨.ok ⟨.finish, c.skipBlanks.position⟩, none, c.skipBlanks⟩ := by
  simp [next, h]

theorem next_of_newline {rest : Text} (h : c.skipBlanks.rest = Text.newline :: rest) :
    c.next type = ⟨.ok ⟨.finish, c.skipBlanks.position⟩, none, c.skipBlanks.advance 1⟩ := by
  simp [next, h]

theorem next_of_ne_newline {u : CodeUnit} {rest : Text} (h : c.skipBlanks.rest = u :: rest)
    (hu : u ≠ Text.newline) : c.next type = c.skipBlanks.munch type := by
  simp [next, h, hu]

/-- The longest match is read, and each start of it is a match. -/
theorem munch_of_matches (hclosed : Text.PrefixClosed type.literal) {s : Text} (hs : s ≠ [])
    (hinit : s <+: c.rest) (hmatch : type.Matches s) :
    ∃ t, type.IsLongest c.rest t ∧ (∀ s, s ≠ [] → s <+: t → type.Matches s) ∧
      type.FirstFamily t c.position (c.munch type).token ∧
      (c.munch type).cursor = c.advance t.length := by
  have hpos : 0 < type.growth [] c.rest := by
    have hle := (NumericType.matches_iff_length_le_growth hclosed hs hinit).1 hmatch
    have hlength := List.length_pos_iff.2 hs
    omega
  have hlongest := NumericType.isLongest_take_growth hclosed hpos
  obtain ⟨family, others, hfamily, htoken, hcursor⟩ := munch_of_growth_pos hpos
  refine ⟨_, hlongest, ?_, ?_, hcursor⟩
  · rintro s hs ⟨s', hs'⟩
    have hmatch' := hlongest.isMatch
    rw [← hs'] at hmatch'
    exact hmatch'.of_append hclosed hs
  · rw [htoken]
    exact NumericType.firstFamily_lexeme hfamily c.position

theorem munch_of_not_matches (hclosed : Text.PrefixClosed type.literal)
    (hnone : ∀ s, s ≠ [] → s <+: c.rest → ¬ type.Matches s) :
    c.munch type = ⟨.ok ⟨.invalid (c.rest.take 1), c.position⟩, none, c.advance 1⟩ := by
  refine munch_of_growth_eq_zero (Nat.eq_zero_of_not_pos fun hpos => ?_)
  have hlongest := NumericType.isLongest_take_growth hclosed hpos
  exact hnone _ hlongest.ne_nil hlongest.isPrefix hlongest.isMatch

/-- **The longest match.** Floats, integers and identifiers have the property that is asked for
here: each non-empty start of a literal is a literal. Behind the blanks, the end is read where the
input ends or a line feed stands. Elsewhere the longest start of the input that belongs to some
family is read, if there is one. Each start of it belongs to some family as well, so that the first
unit that does not fit shows where it ends. The first of its families decides what is read, and the
cursor comes to stand behind it, also where a literal is refused. If no start of the input belongs
to a family, a single unit is read, which is no token. -/
theorem next_longest :
    Text.PrefixClosed (float64 : NumericType σ Float).literal ∧
    Text.PrefixClosed (int64 : NumericType σ Int).literal ∧
    Text.PrefixClosed Text.isIdentifier ∧
    ∀ type : NumericType σ T, Text.PrefixClosed type.literal → ∀ c : Cursor,
      let start := c.position + (c.rest.takeWhile Text.isBlank).length
      let rest := c.rest.dropWhile Text.isBlank
      let fetch := c.next type
      (rest = [] ∨ rest.head? = some Text.newline → fetch.token = .ok ⟨.finish, start⟩) ∧
      (rest ≠ [] → rest.head? ≠ some Text.newline →
        ((∃ s, s ≠ [] ∧ s <+: rest ∧ type.Matches s) →
          ∃ t, type.IsLongest rest t ∧ (∀ s, s ≠ [] → s <+: t → type.Matches s) ∧
            type.FirstFamily t start fetch.token ∧
            fetch.cursor = ⟨start + t.length, rest.drop t.length⟩) ∧
        ((∀ s, s ≠ [] → s <+: rest → ¬ type.Matches s) →
          fetch.token = .ok ⟨.invalid (rest.take 1), start⟩ ∧
            fetch.cursor = ⟨start + 1, rest.drop 1⟩)) := by
  refine ⟨float64_plainLiterals.init, int64_plainLiterals.init,
    fun t s ht h => Text.isIdentifier_of_append ht h, ?_⟩
  intro type hclosed c start rest fetch
  have hskip : c.skipBlanks = ⟨start, rest⟩ := c.skipBlanks_eq
  refine ⟨fun hend => ?_, fun hne hnewline => ?_⟩
  · cases hrest : rest with
    | nil =>
      have hnext : fetch = _ := next_of_nil (c := c) (by rw [hskip, hrest])
      rw [hnext, hskip]
    | cons u others =>
      obtain rfl : u = Text.newline := by simpa [hrest] using hend
      have hnext : fetch = _ := next_of_newline (c := c) (by rw [hskip, hrest])
      rw [hnext, hskip]
  · obtain ⟨u, others, hrest⟩ := List.exists_cons_of_ne_nil hne
    have hu : u ≠ Text.newline := by simpa [hrest] using hnewline
    have hnext : fetch = (⟨start, rest⟩ : Cursor).munch type := by
      rw [← hskip]
      exact next_of_ne_newline (by rw [hskip, hrest]) hu
    rw [hnext]
    refine ⟨?_, fun hnone => ?_⟩
    · rintro ⟨s, hs, hinit, hmatch⟩
      exact munch_of_matches (c := ⟨start, rest⟩) hclosed hs hinit hmatch
    · rw [munch_of_not_matches hclosed hnone]
      exact ⟨rfl, rfl⟩

/-- An exponent whose digits are missing is part of the literal in front of it. -/
theorem next_longest_exponent :
    let type : NumericType Unit Float := float64
    let literal := Text.ofString "12.5e+"
    let fetch := (Cursor.mk 3 (Text.ofString " \t12.5e+x")).next type
    fetch.token = .ok ⟨.number (Float64.read literal) literal, 5⟩ ∧
      fetch.cursor = ⟨11, Text.ofString "x"⟩ := by
  intro type literal fetch
  obtain ⟨hclosed, -, -, hlongest⟩ := next_longest (σ := Unit) (T := Float)
  have hmatch : type.Matches literal := .inl (by decide)
  have hinit : literal <+: Text.ofString "12.5e+x" := ⟨Text.ofString "x", by decide⟩
  have hwhole : ¬ type.Matches (Text.ofString "12.5e+x") := by
    rw [← NumericType.families_ne_nil_iff]
    decide
  obtain ⟨t, ht, -, hfamily, hcursor⟩ :=
    ((hlongest type hclosed ⟨3, Text.ofString " \t12.5e+x"⟩).2 (by decide) (by decide)).1
      ⟨literal, by decide, hinit, hmatch⟩
  change type.IsLongest (Text.ofString "12.5e+x") t at ht
  -- The longest match is as long as the literal at least, and it is not the whole input.
  have hlength : t.length = 6 := by
    have hle : 6 ≤ t.length := ht.longest literal (by decide) hinit hmatch
    have hle' : t.length ≤ 7 := ht.isPrefix.length_le
    have hne : t.length ≠ 7 := fun h => hwhole (ht.isPrefix.eq_of_length h ▸ ht.isMatch)
    omega
  obtain rfl : t = literal := by
    rw [List.prefix_iff_eq_take.1 ht.isPrefix, hlength]
    rfl
  refine ⟨?_, hcursor⟩
  change type.FirstFamily literal 5 fetch.token at hfamily
  generalize fetch.token = token at hfamily ⊢
  cases hfamily with
  | @number a _ hparse =>
    obtain rfl : Float64.read literal = a := Except.ok.inj hparse
    rfl
  | refused _ hparse => cases hparse
  | identifier hliteral => exact absurd hliteral (by decide)
  | punctuation p hliteral => exact absurd hliteral (by decide)

end Cursor
end Calculator
