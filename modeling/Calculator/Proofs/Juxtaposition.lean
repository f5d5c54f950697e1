import Calculator.Proofs.Regrouping
import Calculator.Proofs.Slices

/-!
# Texts side by side

What is read from two texts side by side is what is read from the one and then from the other, if no
word goes on over the place where they meet.

* `NumericType.Written`: a text in which the given words stand in order.
* `NumericType.Written.spells`, `Cursor.Spells.written`: these are the words that are read from it.
* `NumericType.Delimits`: a unit that no word goes on with.
* `NumericType.Written.append`, `NumericType.Written.punctuation`: texts side by side.
* `float64_delimits`, `int64_delimits`: the units that no word of the types goes on with.
-/

namespace Calculator

variable {σ T : Type}

/-! ## Written words -/

/-- The text consists of the words in order, perhaps with blanks around them. No word goes on in
what stands behind it. -/
inductive NumericType.Written (type : NumericType σ T) : List (Lexeme T) → Text → Prop
  | nil {blanks : Text} : blanks.all Text.isBlank = true → Written type [] blanks
  | cons {blanks rest : Text} {l : Lexeme T} {ls : List (Lexeme T)} :
    blanks.all Text.isBlank = true → l.Plain type →
      (∀ u ∈ rest.head?, type.families (l.text ++ [u]) = []) → Written type ls rest →
        Written type (l :: ls) (blanks ++ l.text ++ rest)

/-- No word goes on with the unit. -/
def NumericType.Delimits (type : NumericType σ T) (u : CodeUnit) : Prop :=
  ∀ t, t ≠ [] → type.families (t ++ [u]) = []

/-- No word goes on with what stands behind punctuation. -/
theorem NumericType.PlainLiterals.families_unit_append {type : NumericType σ T}
    (h : type.PlainLiterals) (p : Punctuation) (u : CodeUnit) :
    type.families ([p.unit] ++ [u]) = [] := by
  have hliteral : type.literal [p.unit, u] = false := by
    refine Bool.eq_false_iff.2 fun hl => ?_
    exact Punctuation.ne_unit_of_isDigit (h.digit _ _ hl) p rfl
  have hname : Text.isIdentifier [p.unit, u] = false := by cases p <;> rfl
  simp [families, hliteral, hname, Punctuation.ofText?]

namespace NumericType.Written

variable {type : NumericType σ T} {ls ls' : List (Lexeme T)} {input input' : Text}

/-- A word alone. -/
theorem word {l : Lexeme T} (hl : l.Plain type) : type.Written [l] l.text := by
  have hword : type.Written [l] ([] ++ l.text ++ []) := .cons rfl hl nofun (.nil rfl)
  rwa [List.nil_append, List.append_nil] at hword

/-- Blanks in front do not count. -/
theorem blanks_append (h : type.Written ls input) {blanks : Text}
    (hblanks : blanks.all Text.isBlank = true) : type.Written ls (blanks ++ input) := by
  cases h with
  | nil hnil => exact .nil (by rw [List.all_append, hblanks, hnil]; rfl)
  | cons hmore hl hstop hrest =>
    rw [List.append_assoc, ← List.append_assoc, ← List.append_assoc]
    exact .cons (by rw [List.all_append, hblanks, hmore]; rfl) hl hstop hrest

/-- Texts side by side, where a unit that no word goes on with comes first in the second one. -/
theorem append (h : type.Written ls input) (h' : type.Written ls' input')
    (hmeet : ∀ u ∈ input'.head?, type.Delimits u) (hplain : type.PlainLiterals) :
    type.Written (ls ++ ls') (input ++ input') := by
  induction h with
  | nil hblanks => exact h'.blanks_append hblanks
  | @cons blanks rest l ls hblanks hl hstop _ ih =>
    rw [List.append_assoc]
    refine .cons hblanks hl (fun u hu => ?_) ih
    rw [List.head?_append, Option.mem_def, Option.or_eq_some_iff] at hu
    rcases hu with hu | ⟨_, hu⟩
    · exact hstop u hu
    · obtain ⟨v, t, htext, _⟩ := hl.exists_cons hplain
      exact hmeet u hu l.text (by rw [htext]; exact List.cons_ne_nil v t)

/-- Blanks behind do not count. -/
theorem append_blanks (h : type.Written ls input) (hplain : type.PlainLiterals) {blanks : Text}
    (hblanks : blanks.all Text.isBlank = true) : type.Written ls (input ++ blanks) := by
  have happend := h.append (.nil hblanks) (fun u hu t ht => ?_) hplain
  · rwa [List.append_nil] at happend
  · have hu : u ∈ blanks := List.mem_of_mem_head? hu
    exact hplain.families_append_blank ht (List.all_eq_true.1 hblanks u hu)

/-- Behind punctuation any text may stand. -/
theorem punctuation (h : type.Written ls input) (hplain : type.PlainLiterals) (p : Punctuation) :
    type.Written (.punctuation p :: ls) (p.unit :: input) := by
  have hstop : ∀ u ∈ input.head?, type.families ([p.unit] ++ [u]) = [] :=
    fun u _ => hplain.families_unit_append p u
  exact @cons _ _ type [] input (.punctuation p) ls rfl (.punctuation p) hstop h

/-- **The words that are written are read.** -/
theorem spells (h : type.Written ls input) (hplain : type.PlainLiterals) (p : Nat) :
    (⟨p, input⟩ : Cursor).Spells type (ls ++ [.finish]) := by
  induction h generalizing p with
  | nil hblanks =>
    rw [List.nil_append, Cursor.Spells, Cursor.next_of_blanks type hblanks]
    exact ⟨_, rfl, rfl, trivial⟩
  | cons hblanks hl hstop _ ih =>
    rw [List.cons_append, Cursor.Spells, Cursor.next_of_word hplain hl hblanks hstop]
    exact ⟨_, rfl, rfl, ih _⟩

theorem plain (h : type.Written ls input) : ∀ l ∈ ls, l.Plain type := by
  induction h with
  | nil => nofun
  | cons _ hl _ _ ih => exact List.forall_mem_cons.2 ⟨hl, ih⟩

/-- The tokens of a text are its words and an end. -/
theorem exists_tokenize (h : type.Written ls input) (hplain : type.PlainLiterals) :
    ∃ ts p, (tokenize type input).tokens = ts ++ [⟨.finish, p⟩] ∧ ts.map Token.lexeme = ls := by
  obtain ⟨ts, hends, hforms⟩ := Cursor.Spells.exists_ends (h.spells hplain 0) h.plain
  obtain ⟨last, htokens, hlast⟩ := Cursor.ends_iff_tokenize.1 hends
  exact ⟨ts, last.position, by rw [htokens, ← Token.eq_of_terminal_finish hlast], hforms⟩

/-- A text has its words in one way only. -/
theorem unique (h : type.Written ls input) (h' : type.Written ls' input)
    (hplain : type.PlainLiterals) : ls = ls' := by
  obtain ⟨ts, p, htokens, rfl⟩ := h.exists_tokenize hplain
  obtain ⟨ts', p', htokens', rfl⟩ := h'.exists_tokenize hplain
  have hconcat : ts ++ [⟨.finish, p⟩] = ts' ++ [⟨.finish, p'⟩] := htokens.symm.trans htokens'
  rw [(List.append_inj' hconcat rfl).1]

end NumericType.Written

/-! ## Texts apart -/

/-- A word that holds punctuation that no word goes on with is that punctuation. -/
theorem Lexeme.Plain.eq_of_unit {type : NumericType σ T} {l : Lexeme T} (hl : l.Plain type)
    (hplain : type.PlainLiterals) {p : Punctuation} (hp : type.Delimits p.unit) {t t' : Text}
    (h : l.text = t ++ p.unit :: t') : t = [] ∧ t' = [] ∧ l = .punctuation p := by
  have ht : t = [] := by
    refine Classical.not_not.1 fun hne => ?_
    have hstart : l.text = (t ++ [p.unit]) ++ t' := by rw [h, List.append_assoc]; rfl
    exact hl.families_ne_nil hplain hstart (by simp) (hp t hne)
  subst ht
  cases hl with
  | @number a literal hliteral _ =>
    obtain rfl : literal = p.unit :: t' := h
    exact absurd rfl (Punctuation.ne_unit_of_isDigit (hplain.digit _ _ hliteral) p)
  | @identifier name hname =>
    obtain rfl : name = p.unit :: t' := h
    exact absurd rfl (Punctuation.ne_unit_of_isLetter (Bool.and_eq_true_iff.1 hname).1 p)
  | punctuation q =>
    obtain ⟨hunit, hnil⟩ := List.cons.inj h
    have hq : Punctuation.ofUnit? q.unit = some p := by rw [hunit, Punctuation.ofUnit?_unit]
    rw [Punctuation.ofUnit?_unit] at hq
    exact ⟨rfl, hnil.symm, by rw [Option.some.inj hq]⟩

/-- **Texts apart.** At punctuation that no word goes on with, the words fall apart as the text
does. -/
theorem NumericType.Written.exists_split {type : NumericType σ T} {ls : List (Lexeme T)}
    {before after : Text} {p : Punctuation} (h : type.Written ls (before ++ p.unit :: after))
    (hplain : type.PlainLiterals) (hp : type.Delimits p.unit) :
    ∃ ls₁ ls₂, ls = ls₁ ++ .punctuation p :: ls₂ ∧ type.Written ls₁ before ∧
      type.Written ls₂ after := by
  generalize hinput : before ++ p.unit :: after = input at h
  have hblank {blanks s t : Text} (hall : blanks.all Text.isBlank = true)
      (h : blanks = s ++ p.unit :: t) : False := by
    rw [h, List.all_append, List.all_cons] at hall
    cases p <;> simp [Punctuation.unit, Text.isBlank] at hall
  induction h generalizing before with
  | nil hall => exact (hblank hall hinput.symm).elim
  | @cons blanks rest l ls hall hl hstop hrest ih =>
    -- Where the punctuation stands: behind the first word, in it, or among the blanks before it.
    have hbehind (before' : Text) (hbefore : before = blanks ++ l.text ++ before')
        (hsplit : before' ++ p.unit :: after = rest) :
        ∃ ls₁ ls₂, l :: ls = ls₁ ++ .punctuation p :: ls₂ ∧ type.Written ls₁ before ∧
          type.Written ls₂ after := by
      obtain ⟨ls₁, ls₂, rfl, h₁, h₂⟩ := ih hsplit
      refine ⟨l :: ls₁, ls₂, rfl, ?_, h₂⟩
      rw [hbefore]
      refine .cons hall hl (fun u hu => hstop u ?_) h₁
      rw [← hsplit, List.head?_append_of_ne_nil _ (fun hnil => by rw [hnil] at hu; cases hu)]
      exact hu
    have hhere {more : Text} (hword : l.text = p.unit :: more) (hafter : after = more ++ rest) :
        ∃ ls₁ ls₂, l :: ls = ls₁ ++ .punctuation p :: ls₂ ∧ type.Written ls₁ blanks ∧
          type.Written ls₂ after := by
      obtain ⟨-, rfl, rfl⟩ := hl.eq_of_unit hplain hp (t := []) hword
      exact ⟨[], ls, rfl, .nil hall, hafter ▸ hrest⟩
    rcases List.append_eq_append_iff.1 hinput with ⟨more, hfront, hmore⟩ | ⟨more, hbefore, hmore⟩
    · cases more with
      | nil => exact hbehind [] (by simpa using hfront.symm) (by simpa using hmore)
      | cons u more =>
        obtain ⟨rfl, hafter⟩ := List.cons.inj hmore
        rcases List.append_eq_append_iff.1 hfront with ⟨word, rfl, hword⟩ | ⟨word, hblanks, hword⟩
        · obtain ⟨rfl, -, -⟩ := hl.eq_of_unit hplain hp hword
          rw [List.append_nil]
          exact hhere hword hafter
        · cases word with
          | nil =>
            rw [List.append_nil] at hblanks
            exact hblanks ▸ hhere hword.symm hafter
          | cons v word =>
            obtain ⟨rfl, -⟩ := List.cons.inj hword
            exact (hblank hall hblanks).elim
    · exact hbehind more hbefore hmore.symm

/-! ## Words that are read -/

/-- What a text has grown to cannot be lengthened. -/
theorem NumericType.families_take_growth_append (type : NumericType σ T) (taken rest : Text) :
    ∀ u ∈ (rest.drop (type.growth taken rest)).head?,
      type.families (taken ++ rest.take (type.growth taken rest) ++ [u]) = [] := by
  induction rest generalizing taken with
  | nil => nofun
  | cons v rest ih =>
    rw [growth]
    split
    · next hv =>
      intro u hu
      obtain rfl : v = u := Option.some.inj hu
      rwa [List.take_zero, List.append_nil]
    · rw [List.drop_succ_cons, List.take_succ_cons, List.append_cons taken v (rest.take _)]
      exact ih (taken ++ [v])

namespace Cursor

variable {type : NumericType σ T} {c : Cursor} {ls : List (Lexeme T)}

/-- A word that is read stands in the text, and it does not go on. -/
theorem exists_of_next_plain {l : Lexeme T} (hl : l.Plain type) {p : Nat}
    (hnewline : Text.newline ∉ c.rest) (hread : (c.next type).token = .ok ⟨l, p⟩) :
    ∃ blanks, blanks.all Text.isBlank = true ∧
      c.rest = blanks ++ l.text ++ (c.next type).cursor.rest ∧
      ∀ u ∈ (c.next type).cursor.rest.head?, type.families (l.text ++ [u]) = [] := by
  have hsplit : c.rest.takeWhile Text.isBlank ++ c.skipBlanks.rest = c.rest := by
    rw [skipBlanks_eq]
    exact List.takeWhile_append_dropWhile
  cases hrest : c.skipBlanks.rest with
  | nil =>
    rw [next_of_nil hrest] at hread
    cases hread
    cases hl
  | cons u rest =>
    have hu : u ≠ Text.newline := by
      rintro rfl
      exact hnewline (hsplit ▸ by simp [hrest])
    rw [next_of_ne_newline hrest hu] at hread ⊢
    by_cases hgrowth : type.growth [] c.skipBlanks.rest = 0
    · rw [munch_of_growth_eq_zero hgrowth] at hread
      cases hread
      cases hl
    · obtain ⟨family, others, _, htoken, hcursor⟩ :=
        munch_of_growth_pos (Nat.pos_of_ne_zero hgrowth)
      rw [htoken] at hread
      have htext : l.text = c.skipBlanks.rest.take (type.growth [] c.skipBlanks.rest) := by
        cases hlexeme : type.lexeme (c.skipBlanks.rest.take _) family with
        | error f => rw [hlexeme] at hread; cases hread
        | ok l' =>
          rw [hlexeme] at hread
          cases hread
          exact NumericType.text_of_lexeme hlexeme
      have hbehind : ((c.skipBlanks.munch type).cursor).rest
          = c.skipBlanks.rest.drop (type.growth [] c.skipBlanks.rest) := by
        have hle := type.growth_le_length [] c.skipBlanks.rest
        rw [hcursor, advance, List.length_take, Nat.min_eq_left hle]
      refine ⟨c.rest.takeWhile Text.isBlank, List.all_takeWhile, ?_, ?_⟩
      · rw [hbehind, htext, List.append_assoc, List.take_append_drop, hsplit]
      · rw [hbehind, htext]
        exact type.families_take_growth_append [] c.skipBlanks.rest

/-- In front of the end only blanks are left. -/
theorem all_isBlank_of_next_finish (hnewline : Text.newline ∉ c.rest) {p : Nat}
    (hread : (c.next type).token = .ok ⟨.finish, p⟩) : c.rest.all Text.isBlank = true := by
  obtain ⟨blanks, piece, hblanks, hrest, _, htakes⟩ := next_takes type c
  rw [hread] at htakes
  cases htakes with
  | lexeme hterminal => exact absurd rfl hterminal
  | newline => exact absurd (hrest ▸ by simp) hnewline
  | finish hnil =>
    rw [hrest, hnil, List.append_nil, List.append_nil]
    exact List.all_eq_true.2 hblanks

/-- **The words that are read stand in the text.** -/
theorem Spells.written (h : c.Spells type (ls ++ [.finish])) (hls : ∀ l ∈ ls, l.Plain type)
    (hnewline : Text.newline ∉ c.rest) : type.Written ls c.rest := by
  induction ls generalizing c with
  | nil =>
    obtain ⟨p, hread, _⟩ := h
    exact .nil (all_isBlank_of_next_finish hnewline hread)
  | cons l ls ih =>
    obtain ⟨p, hread, _, hspells⟩ := h
    obtain ⟨hl, hls⟩ := List.forall_mem_cons.1 hls
    obtain ⟨blanks, hblanks, hsplit, hstop⟩ := exists_of_next_plain hl hnewline hread
    have hrest : Text.newline ∉ (c.next type).cursor.rest := fun hmem =>
      hnewline (hsplit ▸ List.mem_append_right _ hmem)
    rw [hsplit]
    exact .cons hblanks hl hstop (ih hspells hls hrest)

end Cursor

namespace Setup

/-- A text that has a value is a way to write a grouped tree. -/
theorem exists_written_of_ok (setup : Setup σ T) (hplain : setup.type.PlainLiterals)
    (hnewline : Text.newline ∉ setup.input) {store : Store σ T} {a : T}
    (ha : (setup.run store).result = .ok a) :
    ∃ t : Tree T, t.isGrouped = true ∧ setup.type.Written t.lexemes setup.input := by
  obtain ⟨t, ht, hlexemes, hspells⟩ := exists_tree_of_ok hplain ha
  exact ⟨t, ht, hspells.written hlexemes hnewline⟩

/-- A text that is a way to write a grouped tree has the outcome of the tree. -/
theorem run_of_written (setup : Setup σ T) (hplain : setup.type.PlainLiterals) {t : Tree T}
    (ht : t.isGrouped = true) (hinput : setup.type.Written t.lexemes setup.input)
    (store : Store σ T) :
    setup.run store = ⟨(t.evaluate setup.type setup.generator store).1,
      (t.evaluate setup.type setup.generator store).2, []⟩ :=
  setup.run_of_spells ht (hinput.spells hplain 0) store

/-- A text that has a value is a way to write a grouped tree that is evaluated alike. -/
theorem exists_evaluate_of_ok (setup : Setup σ T) (hplain : setup.type.PlainLiterals)
    (hnewline : Text.newline ∉ setup.input) {store : Store σ T} {a : T}
    (ha : (setup.run store).result = .ok a) :
    ∃ t : Tree T, t.isGrouped = true ∧ setup.type.Written t.lexemes setup.input ∧
      t.evaluate setup.type setup.generator store = (.ok a, (setup.run store).store) := by
  obtain ⟨t, ht, hinput⟩ := setup.exists_written_of_ok hplain hnewline ha
  have hrun := setup.run_of_written hplain ht hinput store
  exact ⟨t, ht, hinput, Prod.ext (by rw [← ha, hrun]) (by rw [hrun])⟩

end Setup

/-! ## Units that no word goes on with -/

theorem Text.isIdentifier_append_of_not {t : Text} (ht : t ≠ []) {u : CodeUnit}
    (hdigit : isDigit u = false) (hletter : isLetter u = false) :
    isIdentifier (t ++ [u]) = false := by
  cases t with
  | nil => exact absurd rfl ht
  | cons v t => simp [isIdentifier, hdigit, hletter]

theorem NumericType.delimits_of_literal {type : NumericType σ T} {u : CodeUnit}
    (hliteral : ∀ t, type.literal (t ++ [u]) = false) (hdigit : Text.isDigit u = false)
    (hletter : Text.isLetter u = false) : type.Delimits u := by
  intro t ht
  simp [families, hliteral, Text.isIdentifier_append_of_not ht hdigit hletter,
    Punctuation.ofText?_append ht]

theorem int64_delimits {u : CodeUnit} (hdigit : Text.isDigit u = false)
    (hletter : Text.isLetter u = false) : (int64 : NumericType σ Int).Delimits u := by
  refine NumericType.delimits_of_literal (fun t => ?_) hdigit hletter
  change Int64.isLiteral (t ++ [u]) = false
  simp [Int64.isLiteral, hdigit]

namespace Decimal

/-- The units that literals consist of, and all letters. -/
def isLiteralUnit (u : CodeUnit) : Bool :=
  Text.isDigit u || Text.isLetter u || Text.isSign u || u == point

theorem isLiteralUnit_of_isDigit {u : CodeUnit} (h : Text.isDigit u = true) :
    isLiteralUnit u = true := by
  rw [isLiteralUnit, h]
  rfl

theorem all_isLiteralUnit_of_dropWhile {t : Text}
    (h : (t.dropWhile Text.isDigit).all isLiteralUnit = true) : t.all isLiteralUnit = true := by
  have hdigits : (t.takeWhile Text.isDigit).all isLiteralUnit = true :=
    List.all_eq_true.2 fun u hu =>
      isLiteralUnit_of_isDigit (List.all_eq_true.1 List.all_takeWhile u hu)
  rw [← List.takeWhile_append_dropWhile (p := Text.isDigit) (l := t), List.all_append, hdigits, h]
  rfl

theorem all_isLiteralUnit_of_dropSign {t : Text} (h : (Text.dropSign t).all Text.isDigit = true) :
    t.all isLiteralUnit = true := by
  have hdigits : (Text.dropSign t).all isLiteralUnit = true :=
    List.all_eq_true.2 fun u hu => isLiteralUnit_of_isDigit (List.all_eq_true.1 h u hu)
  cases t with
  | nil => rfl
  | cons u t =>
    rw [Text.dropSign] at hdigits
    split at hdigits
    · next hu =>
      have hunit : isLiteralUnit u = true := by simp [isLiteralUnit, hu]
      rw [List.all_cons, hunit, hdigits]
      rfl
    · exact hdigits

theorem all_isLiteralUnit_of_isExponentPart {t : Text} (h : isExponentPart t = true) :
    t.all isLiteralUnit = true := by
  cases t with
  | nil => rfl
  | cons u t =>
    rw [isExponentPart, Bool.and_eq_true] at h
    have hunit : isLiteralUnit u = true := by
      have hmark := h.1
      simp only [isExponentMark, Bool.or_eq_true, beq_iff_eq] at hmark
      rcases hmark with rfl | rfl <;> rfl
    rw [List.all_cons, hunit, all_isLiteralUnit_of_dropSign h.2]
    rfl

theorem all_isLiteralUnit_of_isTail {t : Text} (h : isTail t = true) :
    t.all isLiteralUnit = true := by
  cases t with
  | nil => rfl
  | cons u t =>
    rw [isTail] at h
    split at h
    · next hu =>
      have hunit : isLiteralUnit u = true := by rw [hu]; rfl
      rw [List.all_cons, hunit,
        all_isLiteralUnit_of_dropWhile (all_isLiteralUnit_of_isExponentPart h)]
      rfl
    · exact all_isLiteralUnit_of_isExponentPart h

theorem all_isLiteralUnit_of_isLiteral {t : Text} (h : isLiteral t = true) :
    t.all isLiteralUnit = true := by
  cases t with
  | nil => rfl
  | cons u t =>
    rw [isLiteral, Bool.and_eq_true] at h
    rw [List.all_cons, isLiteralUnit_of_isDigit h.1,
      all_isLiteralUnit_of_dropWhile (all_isLiteralUnit_of_isTail h.2)]
    rfl

end Decimal

theorem float64_delimits {u : CodeUnit} (h : Decimal.isLiteralUnit u = false) :
    (float64 : NumericType σ Float).Delimits u := by
  have hunit := h
  simp only [Decimal.isLiteralUnit, Bool.or_eq_false_iff] at hunit
  obtain ⟨⟨⟨hdigit, hletter⟩, -⟩, -⟩ := hunit
  refine NumericType.delimits_of_literal (fun t => ?_) hdigit hletter
  refine Bool.eq_false_iff.2 fun hliteral => ?_
  have hall := Decimal.all_isLiteralUnit_of_isLiteral hliteral
  rw [List.all_append, List.all_cons, h] at hall
  simp at hall

end Calculator
