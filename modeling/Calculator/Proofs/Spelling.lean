import Calculator.Arithmetic.Float64
import Calculator.Arithmetic.Int64
import Calculator.Token.Cursor

/-!
# Texts that spell tokens

Where words stand apart with blanks between them, reading gives the tokens that the words spell.

* `Spaced`: the words of a text that are set apart by blanks.
* `NumericType.PlainLiterals`: literals that a lexer can grow unit by unit.
* `Cursor.next_of_word`: reading one word.
* `Cursor.spells_of_spaced`: reading all of them, without a warning.
* `float64_plainLiterals`, `int64_plainLiterals`: the literals of both types are of that kind.
-/

namespace Calculator

variable {σ T : Type}

/-! ## Words set apart -/

/-- The text consists of the words in order, with blanks between any two of them and perhaps around
them. -/
inductive Spaced : List Text → Text → Prop
  | nil {blanks : Text} : blanks.all Text.isBlank = true → Spaced [] blanks
  | cons {blanks word rest : Text} {words : List Text} : blanks.all Text.isBlank = true →
    rest.head?.all Text.isBlank = true → Spaced words rest →
      Spaced (word :: words) (blanks ++ word ++ rest)

/-- Words are set apart with a space in front of each. -/
theorem spaced_flatMap (words : List Text) : Spaced words (words.flatMap (32 :: ·)) := by
  induction words with
  | nil => exact .nil rfl
  | cons word words ih =>
    have hblank : ([32] : Text).all Text.isBlank = true := rfl
    refine .cons hblank ?_ ih
    cases words <;> rfl

/-- The literals of the type start with a digit and hold no blank, and what a literal starts with is
a literal. -/
structure NumericType.PlainLiterals (type : NumericType σ T) : Prop where
  nil : type.literal [] = false
  digit : ∀ u t, type.literal (u :: t) = true → Text.isDigit u = true
  init : ∀ t s, t ≠ [] → type.literal (t ++ s) = true → type.literal t = true
  blank : ∀ t u, Text.isBlank u = true → type.literal (t ++ [u]) = false

/-- The form is one that a word can spell, and the word belongs to its family. -/
inductive Lexeme.Plain (type : NumericType σ T) : Lexeme T → Prop
  | number {a : T} {literal : Text} : type.literal literal = true →
    type.parseLiteral literal = .ok a → Plain type (.number a literal)
  | identifier {name : Text} : name.isIdentifier = true → Plain type (.identifier name)
  | punctuation (p : Punctuation) : Plain type (.punctuation p)

/-! ## Character classes -/

namespace Text

theorem isDigit_of_isBlank {u : CodeUnit} (h : isBlank u = true) : isDigit u = false := by
  simp only [isBlank, Bool.or_eq_true, beq_iff_eq] at h
  rcases h with rfl | rfl <;> rfl

theorem isLetter_of_isBlank {u : CodeUnit} (h : isBlank u = true) : isLetter u = false := by
  simp only [isBlank, Bool.or_eq_true, beq_iff_eq] at h
  rcases h with rfl | rfl <;> rfl

theorem isLetter_of_isDigit {u : CodeUnit} (h : isDigit u = true) : isLetter u = false := by
  simp only [isDigit, Bool.and_eq_true, decide_eq_true_eq, UInt16.le_iff_toNat_le] at h
  simp [isLetter, UInt16.le_iff_toNat_le] at h ⊢
  omega

theorem isIdentifier_of_append {t s : Text} (ht : t ≠ [])
    (h : isIdentifier (t ++ s) = true) : isIdentifier t = true := by
  cases t with
  | nil => exact absurd rfl ht
  | cons u rest =>
    simp only [List.cons_append, isIdentifier, Bool.and_eq_true, List.all_append] at h ⊢
    exact ⟨h.1, h.2.1⟩

theorem isIdentifier_append_blank (t : Text) {u : CodeUnit} (h : isBlank u = true) :
    isIdentifier (t ++ [u]) = false := by
  cases t with
  | nil => simp [isIdentifier, isLetter_of_isBlank h]
  | cons v rest => simp [isIdentifier, isLetter_of_isBlank h, isDigit_of_isBlank h]

theorem isSign_of_isBlank {u : CodeUnit} (h : isBlank u = true) : isSign u = false := by
  simp only [isBlank, Bool.or_eq_true, beq_iff_eq] at h
  rcases h with rfl | rfl <;> rfl

theorem dropSign_append {t : Text} (ht : t ≠ []) (s : Text) :
    dropSign (t ++ s) = dropSign t ++ s := by
  cases t with
  | nil => exact absurd rfl ht
  | cons u t =>
    rw [List.cons_append, dropSign, dropSign]
    split <;> rfl

theorem dropSign_append_blank (t : Text) {u : CodeUnit} (h : isBlank u = true) :
    dropSign (t ++ [u]) = dropSign t ++ [u] := by
  cases t with
  | nil => simp [dropSign, isSign_of_isBlank h]
  | cons v t => exact dropSign_append (List.cons_ne_nil v t) [u]

end Text

theorem Decimal.isExponentMark_of_isBlank {u : CodeUnit} (h : Text.isBlank u = true) :
    isExponentMark u = false := by
  simp only [Text.isBlank, Bool.or_eq_true, beq_iff_eq] at h
  rcases h with rfl | rfl <;> rfl

namespace Punctuation

theorem ofText?_append {t : Text} (ht : t ≠ []) (u : CodeUnit) : ofText? (t ++ [u]) = none := by
  cases t with
  | nil => exact absurd rfl ht
  | cons v rest => cases rest <;> rfl

theorem ofText?_cons_of_ne {u : CodeUnit} (h : ∀ p : Punctuation, u ≠ p.unit) (t : Text) :
    ofText? (u :: t) = none := by
  cases hp : ofText? (u :: t) with
  | none => rfl
  | some p =>
    have heq := ofText?_eq_some_iff.1 hp
    exact absurd (List.cons.inj heq).1 (h p)

theorem ne_unit_of_isDigit {u : CodeUnit} (h : Text.isDigit u = true) (p : Punctuation) :
    u ≠ p.unit := by
  rintro rfl
  cases p <;> cases h

theorem ne_unit_of_isLetter {u : CodeUnit} (h : Text.isLetter u = true) (p : Punctuation) :
    u ≠ p.unit := by
  rintro rfl
  cases p <;> cases h

end Punctuation

/-! ## Growing one word -/

/-- A literal belongs to no other family. -/
theorem NumericType.PlainLiterals.families_of_literal {type : NumericType σ T}
    (h : type.PlainLiterals) {t : Text} (ht : type.literal t = true) :
    type.families t = [.number] := by
  cases t with
  | nil => rw [h.nil] at ht; cases ht
  | cons u t =>
    have hu := h.digit u t ht
    simp [families, ht, Text.isIdentifier, Text.isLetter_of_isDigit hu,
      Punctuation.ofText?_cons_of_ne (Punctuation.ne_unit_of_isDigit hu)]

namespace Lexeme.Plain

variable {type : NumericType σ T} {l : Lexeme T}

/-- The word starts neither with a blank nor with the end of the expression. -/
theorem exists_cons (hl : l.Plain type) (h : type.PlainLiterals) :
    ∃ u t, l.text = u :: t ∧ Text.isBlank u = false ∧ u ≠ Text.newline := by
  cases hl with
  | @number a literal hliteral _ =>
    cases literal with
    | nil => rw [h.nil] at hliteral; cases hliteral
    | cons u t =>
      have hu := h.digit u t hliteral
      refine ⟨u, t, rfl, ?_, ?_⟩
      · refine Bool.eq_false_iff.2 fun hb => ?_
        rw [Text.isDigit_of_isBlank hb] at hu
        cases hu
      · rintro rfl
        cases hu
  | @identifier name hname =>
    cases name with
    | nil => cases hname
    | cons u t =>
      have hu : Text.isLetter u = true := (Bool.and_eq_true_iff.1 hname).1
      refine ⟨u, t, rfl, ?_, ?_⟩
      · refine Bool.eq_false_iff.2 fun hb => ?_
        rw [Text.isLetter_of_isBlank hb] at hu
        cases hu
      · rintro rfl
        cases hu
  | punctuation p => exact ⟨p.unit, [], rfl, by cases p <;> rfl, by cases p <;> decide⟩

/-- The word belongs to one family, in which it has the given form. -/
theorem exists_family (hl : l.Plain type) (h : type.PlainLiterals) :
    ∃ family, type.families l.text = [family] ∧ type.lexeme l.text family = .ok l := by
  cases hl with
  | number hliteral hparse =>
    refine ⟨.number, h.families_of_literal hliteral, ?_⟩
    simp [text, NumericType.lexeme, hparse, Except.map]
  | @identifier name hname =>
    cases name with
    | nil => cases hname
    | cons u t =>
      have hu : Text.isLetter u = true := (Bool.and_eq_true_iff.1 hname).1
      have hliteral : type.literal (u :: t) = false := by
        refine Bool.eq_false_iff.2 fun hl => ?_
        rw [Text.isLetter_of_isDigit (h.digit u t hl)] at hu
        cases hu
      refine ⟨.identifier, ?_, rfl⟩
      simp [text, NumericType.families, hliteral, hname,
        Punctuation.ofText?_cons_of_ne (Punctuation.ne_unit_of_isLetter hu)]
  | punctuation p =>
    have hliteral : type.literal [p.unit] = false := by
      refine Bool.eq_false_iff.2 fun hl => ?_
      exact Punctuation.ne_unit_of_isDigit (h.digit _ _ hl) p rfl
    have hname : Text.isIdentifier [p.unit] = false := by cases p <;> rfl
    refine ⟨.punctuation, ?_, ?_⟩
    · simp [text, NumericType.families, hliteral, hname, Punctuation.ofText?]
    · simp [text, NumericType.lexeme, Punctuation.ofText?]

/-- Each start of the word belongs to a family. -/
theorem families_ne_nil (hl : l.Plain type) (h : type.PlainLiterals) {t s : Text}
    (htext : l.text = t ++ s) (ht : t ≠ []) : type.families t ≠ [] := by
  cases hl with
  | @number a literal hliteral _ =>
    obtain rfl : literal = t ++ s := htext
    have hstart : type.literal t = true := h.init t s ht hliteral
    simp [NumericType.families, hstart]
  | @identifier name hname =>
    obtain rfl : name = t ++ s := htext
    have hstart : t.isIdentifier = true := Text.isIdentifier_of_append ht hname
    simp [NumericType.families, hstart]
  | punctuation p =>
    cases t with
    | nil => exact absurd rfl ht
    | cons u t =>
      obtain ⟨hu, hrest⟩ := List.cons.inj htext
      obtain ⟨rfl, _⟩ := List.append_eq_nil_iff.1 hrest.symm
      rw [← hu]
      simp [NumericType.families, Punctuation.ofText?]

end Lexeme.Plain

/-- With a blank behind it, a text belongs to no family. -/
theorem NumericType.PlainLiterals.families_append_blank {type : NumericType σ T}
    (h : type.PlainLiterals) {t : Text} (ht : t ≠ []) {u : CodeUnit}
    (hu : Text.isBlank u = true) : type.families (t ++ [u]) = [] := by
  simp [families, h.blank t u hu, Text.isIdentifier_append_blank t hu,
    Punctuation.ofText?_append ht u]

/-- A text grows to the end of a word if each start of the word belongs to a family, and the word
with the unit behind it does not. -/
theorem NumericType.growth_eq_length {type : NumericType σ T} {taken word rest : Text}
    (hgrow : ∀ t s, word = t ++ s → t ≠ [] → type.families (taken ++ t) ≠ [])
    (hstop : ∀ u ∈ rest.head?, type.families (taken ++ word ++ [u]) = []) :
    type.growth taken (word ++ rest) = word.length := by
  induction word generalizing taken with
  | nil =>
    cases rest with
    | nil => rfl
    | cons u rest =>
      rw [List.append_nil] at hstop
      exact if_pos (hstop u rfl)
  | cons u word ih =>
    have hu : type.families (taken ++ [u]) ≠ [] := hgrow [u] word rfl (List.cons_ne_nil u [])
    rw [List.cons_append, growth, if_neg hu, ih, List.length_cons]
    · intro t s hword ht
      have hnext := hgrow (u :: t) s (congrArg (u :: ·) hword) (List.cons_ne_nil u t)
      rwa [List.append_cons] at hnext
    · intro v hv
      rw [List.append_assoc taken [u] word]
      exact hstop v hv

/-! ## Reading words -/

namespace Cursor

theorem skipBlanks_append {blanks rest : Text} (hblanks : blanks.all Text.isBlank = true)
    (hrest : rest.takeWhile Text.isBlank = []) (p : Nat) :
    (⟨p, blanks ++ rest⟩ : Cursor).skipBlanks = ⟨p + blanks.length, rest⟩ := by
  have hwhile : (blanks ++ rest).takeWhile Text.isBlank = blanks := by
    rw [List.takeWhile_append_of_pos (List.all_eq_true.1 hblanks), hrest, List.append_nil]
  rw [skipBlanks, hwhile, advance, List.drop_left]

/-- **Reading one word.** Behind blanks and in front of what cannot lengthen it, a word is read as
the token that it spells. -/
theorem next_of_word {type : NumericType σ T} (h : type.PlainLiterals) {l : Lexeme T}
    (hl : l.Plain type) {blanks rest : Text} (hblanks : blanks.all Text.isBlank = true)
    (hstop : ∀ u ∈ rest.head?, type.families (l.text ++ [u]) = []) (p : Nat) :
    (⟨p, blanks ++ l.text ++ rest⟩ : Cursor).next type =
      ⟨.ok ⟨l, p + blanks.length⟩, none, ⟨p + blanks.length + l.text.length, rest⟩⟩ := by
  obtain ⟨u, t, htext, hblank, hnewline⟩ := hl.exists_cons h
  obtain ⟨family, hfamilies, hlexeme⟩ := hl.exists_family h
  have hskip : (⟨p, blanks ++ l.text ++ rest⟩ : Cursor).skipBlanks =
      ⟨p + blanks.length, l.text ++ rest⟩ := by
    rw [List.append_assoc]
    refine skipBlanks_append hblanks ?_ p
    rw [htext, List.cons_append]
    exact List.takeWhile_cons_of_neg (by simp [hblank])
  have hgrowth : type.growth [] (l.text ++ rest) = l.text.length := by
    refine NumericType.growth_eq_length ?_ hstop
    intro t s htext ht
    exact hl.families_ne_nil h htext ht
  have hmunch : (⟨p + blanks.length, l.text ++ rest⟩ : Cursor).munch type =
      ⟨.ok ⟨l, p + blanks.length⟩, none, ⟨p + blanks.length + l.text.length, rest⟩⟩ := by
    unfold munch
    dsimp only
    rw [hgrowth, List.take_left]
    split
    · next family' others _ hfamilies' =>
      rw [hfamilies] at hfamilies'
      cases hfamilies'
      simp [hlexeme, Except.map, advance]
    · next hnone => exact (hnone u t family [] htext hfamilies).elim
  unfold next
  dsimp only
  rw [hskip, hmunch, htext, List.cons_append]
  exact if_neg hnewline

/-- A word in front of a blank or the end is read as the token that it spells. -/
theorem next_of_spaced {type : NumericType σ T} (h : type.PlainLiterals) {l : Lexeme T}
    (hl : l.Plain type) {blanks rest : Text} (hblanks : blanks.all Text.isBlank = true)
    (hrest : rest.head?.all Text.isBlank = true) (p : Nat) :
    (⟨p, blanks ++ l.text ++ rest⟩ : Cursor).next type =
      ⟨.ok ⟨l, p + blanks.length⟩, none, ⟨p + blanks.length + l.text.length, rest⟩⟩ := by
  refine next_of_word h hl hblanks (fun v hv => ?_) p
  obtain ⟨u, t, htext, _, _⟩ := hl.exists_cons h
  have hne : l.text ≠ [] := by rw [htext]; exact List.cons_ne_nil u t
  rw [Option.mem_def.1 hv] at hrest
  exact h.families_append_blank hne hrest

theorem next_of_blanks (type : NumericType σ T) {blanks : Text}
    (hblanks : blanks.all Text.isBlank = true) (p : Nat) :
    (⟨p, blanks⟩ : Cursor).next type =
      ⟨.ok ⟨.finish, p + blanks.length⟩, none, ⟨p + blanks.length, []⟩⟩ := by
  have hskip := skipBlanks_append hblanks (List.takeWhile_nil) p
  rw [List.append_nil] at hskip
  unfold next
  dsimp only
  rw [hskip]

/-- Reading from the cursor on gives the forms in order, without a warning. -/
def Spells (type : NumericType σ T) (c : Cursor) : List (Lexeme T) → Prop
  | [] => True
  | l :: ls => ∃ p, (c.next type).token = .ok ⟨l, p⟩ ∧ (c.next type).warning = none ∧
    Spells type (c.next type).cursor ls

/-- **Reading words.** Words that are set apart are read as the tokens that they spell, and then the
end is found. -/
theorem spells_of_spaced {type : NumericType σ T} (h : type.PlainLiterals) {ls : List (Lexeme T)}
    (hls : ∀ l ∈ ls, l.Plain type) {input : Text} (hinput : Spaced (ls.map Lexeme.text) input)
    (p : Nat) : (⟨p, input⟩ : Cursor).Spells type (ls ++ [.finish]) := by
  induction ls generalizing input p with
  | nil =>
    cases hinput with
    | nil hblanks =>
      rw [List.nil_append, Spells, next_of_blanks type hblanks]
      exact ⟨_, rfl, rfl, trivial⟩
  | cons l ls ih =>
    cases hinput with
    | cons hblanks hrest hinput =>
      obtain ⟨hl, hls⟩ := List.forall_mem_cons.1 hls
      rw [List.cons_append, Spells, next_of_spaced h hl hblanks hrest]
      exact ⟨_, rfl, rfl, ih hls hinput _⟩

end Cursor

/-! ## Literals of the numeric types -/

theorem int64_plainLiterals : (int64 : NumericType σ Int).PlainLiterals where
  nil := rfl
  digit u t h := by
    change Int64.isLiteral (u :: t) = true at h
    simp only [Int64.isLiteral, List.all_cons, Bool.and_eq_true] at h
    exact h.2.1
  init t s ht h := by
    change Int64.isLiteral (t ++ s) = true at h
    change Int64.isLiteral t = true
    simp only [Int64.isLiteral, List.all_append, Bool.and_eq_true] at h ⊢
    exact ⟨by simpa using ht, h.2.1⟩
  blank t u hu := by
    change Int64.isLiteral (t ++ [u]) = false
    simp [Int64.isLiteral, Text.isDigit_of_isBlank hu]

namespace Decimal

/-- What a text of a form starts with has the form too. -/
def InitClosed (form : Text → Bool) : Prop := ∀ t s, form (t ++ s) = true → form t = true

/-- A form that admits no blank. -/
def Blankless (form : Text → Bool) : Prop :=
  ∀ t u, Text.isBlank u = true → form (t ++ [u]) = false

theorem InitClosed.dropWhile {form : Text → Bool} (h : InitClosed form) (hnil : form [] = true) :
    InitClosed fun t => form (t.dropWhile Text.isDigit) := by
  intro t s hts
  dsimp only at hts
  rw [List.dropWhile_append] at hts
  split at hts
  · next hempty =>
    have hdrop : t.dropWhile Text.isDigit = [] := List.isEmpty_iff.1 hempty
    show form (t.dropWhile Text.isDigit) = true
    rw [hdrop]
    exact hnil
  · exact h _ s hts

theorem Blankless.dropWhile {form : Text → Bool} (h : Blankless form) :
    Blankless fun t => form (t.dropWhile Text.isDigit) := by
  intro t u hu
  show form ((t ++ [u]).dropWhile Text.isDigit) = false
  rw [List.dropWhile_append]
  split
  · rw [List.dropWhile_cons_of_neg (by simp [Text.isDigit_of_isBlank hu])]
    exact h [] u hu
  · exact h _ u hu

theorem initClosed_isExponentPart : InitClosed isExponentPart := by
  intro t s h
  match t with
  | [] => rfl
  | [v] =>
    rw [List.singleton_append, isExponentPart, Bool.and_eq_true] at h
    rw [isExponentPart, h.1]
    rfl
  | v :: w :: t =>
    rw [List.cons_append, isExponentPart, Text.dropSign_append (List.cons_ne_nil w t),
      List.all_append, Bool.and_eq_true, Bool.and_eq_true] at h
    rw [isExponentPart, h.1, h.2.1]
    rfl

theorem blankless_isExponentPart : Blankless isExponentPart := by
  intro t u hu
  match t with
  | [] =>
    rw [List.nil_append, isExponentPart, isExponentMark_of_isBlank hu]
    rfl
  | v :: t =>
    rw [List.cons_append, isExponentPart, Text.dropSign_append_blank t hu, List.all_append,
      List.all_cons, Text.isDigit_of_isBlank hu]
    simp

theorem initClosed_isTail : InitClosed isTail := by
  intro t s h
  cases t with
  | nil => rfl
  | cons v t =>
    rw [List.cons_append, isTail] at h
    rw [isTail]
    split at h
    · next hv =>
      rw [if_pos hv]
      exact initClosed_isExponentPart.dropWhile rfl t s h
    · next hv =>
      rw [if_neg hv]
      exact initClosed_isExponentPart (v :: t) s h

theorem blankless_isTail : Blankless isTail := by
  intro t u hu
  have hpoint : u ≠ point := by
    rintro rfl
    cases hu
  cases t with
  | nil =>
    rw [List.nil_append, isTail, if_neg hpoint]
    exact blankless_isExponentPart [] u hu
  | cons v t =>
    rw [List.cons_append, isTail]
    split
    · exact blankless_isExponentPart.dropWhile t u hu
    · exact blankless_isExponentPart (v :: t) u hu

end Decimal

theorem float64_plainLiterals : (float64 : NumericType σ Float).PlainLiterals where
  nil := rfl
  digit u t h := (Bool.and_eq_true_iff.1 h).1
  init t s ht h := by
    change Decimal.isLiteral (t ++ s) = true at h
    change Decimal.isLiteral t = true
    cases t with
    | nil => exact absurd rfl ht
    | cons u t =>
      rw [List.cons_append, Decimal.isLiteral, Bool.and_eq_true] at h
      rw [Decimal.isLiteral, h.1, Bool.true_and]
      exact Decimal.initClosed_isTail.dropWhile rfl t s h.2
  blank t u hu := by
    change Decimal.isLiteral (t ++ [u]) = false
    cases t with
    | nil => simp [Decimal.isLiteral, Text.isDigit_of_isBlank hu]
    | cons v t =>
      have htail : Decimal.isTail ((t ++ [u]).dropWhile Text.isDigit) = false :=
        Decimal.blankless_isTail.dropWhile t u hu
      rw [List.cons_append, Decimal.isLiteral, htail]
      exact Bool.and_false _

end Calculator
