import Calculator.Proofs.Faults

/-!
# What reading a token gives

Reading finds the end, or a single unit that starts no token, or a piece of text in the first of its
families.

* `Cursor.piece`: the text that grows from a cursor, and its place.
* `NumericType.Reads`: the tokens that a piece can give, with the warnings about them
  (`Cursor.next_reads`).
* `Cursor.exists_parseLiteral`: what cannot be read is a literal that the type refuses.
* `Cursor.reading`: a token, or the piece for which there is none. It decides on the warning
  (`Cursor.warning_eq_of_reading`).
-/

namespace Calculator

variable {σ T : Type}

/-! ## Growing a text -/

namespace NumericType

variable (type : NumericType σ T)

/-- The warning that a text belongs to several families, if it does. -/
def ambiguity (text : Text) (position : Nat) : Option Ambiguity :=
  match type.families text with
  | [] | [_] => none
  | families => some ⟨text, position, families⟩

theorem ambiguity_of_families_eq_nil {text : Text} (h : type.families text = []) (position : Nat) :
    type.ambiguity text position = none := by
  rw [ambiguity, h]

/-- The empty text is at most a literal. -/
theorem ambiguity_nil (position : Nat) : type.ambiguity [] position = none := by
  cases h : type.literal [] <;>
    simp [ambiguity, families, h, Text.isIdentifier, Punctuation.ofText?]

/-- A text that has grown belongs to a family. -/
theorem families_take_growth_ne_nil {taken rest : Text} (h : 0 < type.growth taken rest) :
    type.families (taken ++ rest.take (type.growth taken rest)) ≠ [] := by
  induction rest generalizing taken with
  | nil => exact absurd h (Nat.lt_irrefl 0)
  | cons u rest ih =>
    rw [growth] at h ⊢
    split at h
    · exact absurd h (Nat.lt_irrefl 0)
    · next hfamilies =>
      rw [if_neg hfamilies, List.take_succ_cons]
      cases hgrowth : type.growth (taken ++ [u]) rest with
      | zero => exact hfamilies
      | succ n =>
        have hpos : 0 < type.growth (taken ++ [u]) rest := by omega
        have hrest := ih hpos
        rwa [hgrowth, List.append_assoc, List.singleton_append] at hrest

/-- Nothing grows from a unit that belongs to no family. -/
theorem families_eq_nil_of_growth {u : CodeUnit} {rest : Text}
    (h : type.growth [] (u :: rest) = 0) : type.families [u] = [] := by
  rw [growth] at h
  split at h
  · assumption
  · cases h

/-! ## The outcomes of reading -/

/-- A piece of text and its place give the token, with the warning about it. -/
inductive Reads (piece : Text × Nat) : Except Fault (Token T) → Option Ambiguity → Prop
  | finish (position : Nat) : Reads piece (.ok ⟨.finish, position⟩) none
  | invalid (u : CodeUnit) (position : Nat) (families : type.families [u] = []) :
    Reads piece (.ok ⟨.invalid [u], position⟩) none
  | lexeme {family : Family} {l : Lexeme T} (mem : family ∈ type.families piece.1)
    (lexeme : type.lexeme piece.1 family = .ok l) :
    Reads piece (.ok ⟨l, piece.2⟩) (type.ambiguity piece.1 piece.2)
  | refused {f : Fault} (literal : type.parseLiteral piece.1 = .error f) :
    Reads piece (.error f) (type.ambiguity piece.1 piece.2)

variable {type} {text : Text} {l : Lexeme T} {family : Family}

/-- A form in a family is that of its text. -/
theorem text_of_lexeme (h : type.lexeme text family = .ok l) : l.text = text := by
  cases family with
  | number =>
    dsimp only [lexeme] at h
    cases hparse : type.parseLiteral text with
    | ok a => rw [hparse] at h; cases h; rfl
    | error f => rw [hparse] at h; cases h
  | identifier => cases h; rfl
  | punctuation =>
    dsimp only [lexeme] at h
    split at h
    · next p hp => cases h; exact (Punctuation.ofText?_eq_some_iff.1 hp).symm
    · cases h; rfl

/-- Only a literal that the type refuses has no form. -/
theorem parseLiteral_of_lexeme {f : Fault} (h : type.lexeme text family = .error f) :
    type.parseLiteral text = .error f := by
  cases family with
  | number => exact Fault.error_of_map h
  | identifier => cases h
  | punctuation =>
    dsimp only [lexeme] at h
    split at h <;> cases h

/-- The form of a number is that of a literal. -/
theorem literal_of_lexeme {a : T} {literal : Text} (mem : family ∈ type.families text)
    (h : type.lexeme text family = .ok (.number a literal)) :
    type.literal literal = true ∧ type.parseLiteral literal = .ok a := by
  obtain rfl : literal = text := text_of_lexeme h
  cases family with
  | number =>
    have hliteral : type.literal literal = true := by
      by_cases hl : type.literal literal = true
      · exact hl
      · simp [families, hl] at mem
    dsimp only [lexeme] at h
    cases hparse : type.parseLiteral literal with
    | ok b => rw [hparse] at h; cases h; exact ⟨hliteral, rfl⟩
    | error f => rw [hparse] at h; cases h
  | identifier => cases h
  | punctuation =>
    dsimp only [lexeme] at h
    split at h <;> cases h

end NumericType

namespace Cursor

variable {type : NumericType σ T} {c c' : Cursor}

/-- The text that grows from the first unit that is not blank, and its place. -/
def piece (type : NumericType σ T) (c : Cursor) : Text × Nat :=
  (c.skipBlanks.rest.take (type.growth [] c.skipBlanks.rest), c.skipBlanks.position)

/-- Behind the blanks, a piece that has grown gives the token, or else a single unit does. -/
theorem munch_reads (type : NumericType σ T) (c : Cursor) (h : c.rest ≠ []) :
    let piece := (c.rest.take (type.growth [] c.rest), c.position)
    type.Reads piece (c.munch type).token (c.munch type).warning := by
  intro piece
  obtain ⟨u, rest, hrest⟩ := List.exists_cons_of_ne_nil h
  unfold munch
  dsimp only
  split
  · next family others _ hfamilies =>
    have hwarning : (if others.isEmpty then none
        else some ⟨piece.1, piece.2, family :: others⟩) = type.ambiguity piece.1 piece.2 := by
      rw [NumericType.ambiguity, hfamilies]
      cases others <;> rfl
    have hmem : family ∈ type.families piece.1 := by
      rw [hfamilies]
      exact List.mem_cons_self
    rw [hwarning]
    cases hlexeme : type.lexeme piece.1 family with
    | ok l => exact .lexeme hmem hlexeme
    | error f => exact .refused (NumericType.parseLiteral_of_lexeme hlexeme)
  · next hpiece =>
    have hgrowth : type.growth [] c.rest = 0 := by
      cases hn : type.growth [] c.rest with
      | zero => rfl
      | succ n =>
        have hfamilies := type.families_take_growth_ne_nil (Nat.lt_of_lt_of_eq n.succ_pos hn.symm)
        obtain ⟨family, others, hcons⟩ := List.exists_cons_of_ne_nil hfamilies
        exact (hpiece u (rest.take n) family others (by rw [hn, hrest]; rfl) hcons).elim
    rw [hrest] at hgrowth ⊢
    exact .invalid u c.position (type.families_eq_nil_of_growth hgrowth)

theorem next_reads (type : NumericType σ T) (c : Cursor) :
    type.Reads (c.piece type) (c.next type).token (c.next type).warning := by
  unfold next
  dsimp only
  split
  · exact .finish _
  · next u rest hrest =>
    split
    · exact .finish _
    · exact munch_reads type c.skipBlanks (by rw [hrest]; exact List.cons_ne_nil u rest)

end Cursor

/-! ## What a token tells -/

namespace NumericType.Reads

variable {type : NumericType σ T} {piece : Text × Nat} {warning : Option Ambiguity}

/-- A token decides on the warning about it. -/
theorem warning_of_ok {t : Token T} (h : type.Reads piece (.ok t) warning) :
    warning = type.ambiguity t.lexeme.text t.position := by
  cases h with
  | finish position => exact (type.ambiguity_nil position).symm
  | invalid u position families => exact (type.ambiguity_of_families_eq_nil families position).symm
  | lexeme _ hlexeme => rw [text_of_lexeme hlexeme]

/-- Where there is no token, the piece decides on the warning. -/
theorem warning_of_error {f : Fault} (h : type.Reads piece (.error f) warning) :
    warning = type.ambiguity piece.1 piece.2 := by
  cases h with
  | refused => rfl

theorem parseLiteral_of_error {f : Fault} (h : type.Reads piece (.error f) warning) :
    type.parseLiteral piece.1 = .error f := by
  cases h with
  | refused literal => exact literal

/-- A number is read from a literal. -/
theorem literal_of_number {a : T} {literal : Text} {position : Nat}
    (h : type.Reads piece (.ok ⟨.number a literal, position⟩) warning) :
    type.literal literal = true ∧ type.parseLiteral literal = .ok a := by
  cases h with
  | lexeme mem hlexeme => exact literal_of_lexeme mem hlexeme

end NumericType.Reads

namespace Cursor

variable {type : NumericType σ T} {c c' : Cursor}

/-- A token that cannot be read is a literal that the type refuses. -/
theorem exists_parseLiteral {f : Fault} (h : (c.next type).token = .error f) :
    ∃ text, type.parseLiteral text = .error f := by
  have hreads := c.next_reads type
  rw [h] at hreads
  exact ⟨_, hreads.parseLiteral_of_error⟩

/-- The next token, or why there is none, with the piece that gives none. -/
def reading (type : NumericType σ T) (c : Cursor) : Except (Fault × Text × Nat) (Token T) :=
  (c.next type).token.mapError fun f => (f, c.piece type)

theorem eq_of_reading (h : c'.reading type = c.reading type) :
    (∃ t, (c.next type).token = .ok t ∧ (c'.next type).token = .ok t) ∨
    ∃ f, (c.next type).token = .error f ∧ (c'.next type).token = .error f ∧
      c'.piece type = c.piece type := by
  unfold reading at h
  cases htoken : (c.next type).token with
  | ok t =>
    cases htoken' : (c'.next type).token with
    | ok t' =>
      rw [htoken, htoken'] at h
      cases h
      exact .inl ⟨t, rfl, rfl⟩
    | error f' =>
      rw [htoken, htoken'] at h
      cases h
  | error f =>
    cases htoken' : (c'.next type).token with
    | ok t' =>
      rw [htoken, htoken'] at h
      cases h
    | error f' =>
      rw [htoken, htoken'] at h
      obtain ⟨rfl, hpiece⟩ := Prod.mk.inj (Except.error.inj h)
      exact .inr ⟨f', rfl, rfl, hpiece⟩

/-- The same reading comes with the same warning. -/
theorem warning_eq_of_reading (h : c'.reading type = c.reading type) :
    (c'.next type).warning = (c.next type).warning := by
  have hreads := c.next_reads type
  have hreads' := c'.next_reads type
  rcases eq_of_reading h with ⟨t, ht, ht'⟩ | ⟨f, hf, hf', hpiece⟩
  · rw [ht] at hreads
    rw [ht'] at hreads'
    rw [hreads.warning_of_ok, hreads'.warning_of_ok]
  · rw [hf] at hreads
    rw [hf'] at hreads'
    rw [hreads.warning_of_error, hreads'.warning_of_error, hpiece]

end Cursor

end Calculator
