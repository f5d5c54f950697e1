import Calculator.Automaton.Run
import Calculator.Proofs.LongestMatch

/-!
# Tokens are slices of the input

`Cursor.next_slices`: whatever the literals of a type are, reading goes through the input from left
to right and loses, repeats and reorders nothing.

* `NumericType.Takes`: what was read, with the piece of input that it took.
* `Cursor.StandsIn`: the cursor stands at a place of the input.
* `Cursor.after`: the place behind a number of readings.
* `Fetch.Slices`: what one reading does, in positions of the input.

Proof. Reading takes blanks and then one piece, and what it leaves is the rest of the input. So the
cursor stands at a place of the input after each reading, and the piece is the slice in between. As
a piece is empty at the end of the input only, each reading moves on or finds the end.
-/

namespace Calculator

variable {σ T : Type}

/-! ## One piece -/

/-- What was read at a position behind the blanks, with the piece of input that it took. A token
takes its text, and a literal is taken also where it is refused. The end takes the line feed that it
was found at, or nothing where the input ends. -/
inductive NumericType.Takes (type : NumericType σ T) (position : Nat) (rest : Text) :
    Text → Except Fault (Token T) → Prop
  | lexeme {l : Lexeme T} : l.terminal ≠ .finish → l.text ≠ [] →
    Takes type position rest l.text (.ok ⟨l, position⟩)
  | newline : Takes type position rest [Text.newline] (.ok ⟨.finish, position⟩)
  | finish : rest = [] → Takes type position rest [] (.ok ⟨.finish, position⟩)
  | refused {piece : Text} {f : Fault} : type.parseLiteral piece = .error f → piece ≠ [] →
    Takes type position rest piece (.error f)

/-- Only an end has no family. -/
theorem NumericType.terminal_of_lexeme {type : NumericType σ T} {t : Text} {family : Family}
    {l : Lexeme T} (h : type.lexeme t family = .ok l) : l.terminal ≠ .finish := by
  cases family with
  | number =>
    simp only [lexeme] at h
    cases hparse : type.parseLiteral t with
    | ok a => rw [hparse] at h; cases h; simp [Lexeme.terminal]
    | error f => rw [hparse] at h; cases h
  | identifier => cases h; simp [Lexeme.terminal]
  | punctuation =>
    simp only [lexeme] at h
    split at h <;> cases h <;> simp [Lexeme.terminal]

namespace Cursor

variable {type : NumericType σ T} {c : Cursor}

theorem munch_takes (type : NumericType σ T) (c : Cursor) (h : c.rest ≠ []) :
    ∃ piece, c.rest = piece ++ (c.munch type).cursor.rest ∧
      (c.munch type).cursor.position = c.position + piece.length ∧
      type.Takes c.position (c.munch type).cursor.rest piece (c.munch type).token := by
  by_cases hgrowth : type.growth [] c.rest = 0
  · obtain ⟨u, rest, hrest⟩ := List.exists_cons_of_ne_nil h
    rw [munch_of_growth_eq_zero hgrowth]
    have htake : c.rest.take 1 = [u] := by rw [hrest]; rfl
    rw [htake]
    have hterminal : (.invalid [u] : Lexeme T).terminal ≠ .finish := by simp [Lexeme.terminal]
    exact ⟨[u], by simp [advance, hrest], rfl, .lexeme hterminal (List.cons_ne_nil u [])⟩
  · obtain ⟨family, others, hfamily, htoken, hcursor⟩ :=
      munch_of_growth_pos (Nat.pos_of_ne_zero hgrowth)
    have hle := type.growth_le_length [] c.rest
    have hne : c.rest.take (type.growth [] c.rest) ≠ [] := by
      rw [← List.length_pos_iff, List.length_take]
      omega
    rw [htoken, hcursor]
    refine ⟨c.rest.take (type.growth [] c.rest), ?_, rfl, ?_⟩
    · simp [advance, Nat.min_eq_left hle]
    · cases hlexeme : type.lexeme (c.rest.take (type.growth [] c.rest)) family with
      | ok l =>
        have htext := NumericType.text_of_lexeme hlexeme
        rw [← htext] at hne ⊢
        exact .lexeme (NumericType.terminal_of_lexeme hlexeme) hne
      | error f => exact .refused (NumericType.parseLiteral_of_lexeme hlexeme) hne

/-- **Reading takes a piece.** Reading takes blanks and then the piece that it gives an account of.
What it leaves is the rest of the input. -/
theorem next_takes (type : NumericType σ T) (c : Cursor) :
    ∃ blanks piece, (∀ u ∈ blanks, Text.isBlank u = true) ∧
      c.rest = blanks ++ (piece ++ (c.next type).cursor.rest) ∧
      (c.next type).cursor.position = c.position + blanks.length + piece.length ∧
      type.Takes (c.position + blanks.length) (c.next type).cursor.rest piece
        (c.next type).token := by
  refine ⟨c.rest.takeWhile Text.isBlank, ?_⟩
  have hblanks : ∀ u ∈ c.rest.takeWhile Text.isBlank, Text.isBlank u = true :=
    List.all_eq_true.1 List.all_takeWhile
  have hsplit : c.rest.takeWhile Text.isBlank ++ c.skipBlanks.rest = c.rest := by
    rw [skipBlanks_eq]
    exact List.takeWhile_append_dropWhile
  have hposition : c.skipBlanks.position = c.position + (c.rest.takeWhile Text.isBlank).length :=
    rfl
  rw [← hposition]
  cases hrest : c.skipBlanks.rest with
  | nil =>
    rw [next_of_nil hrest]
    refine ⟨[], hblanks, by rw [List.nil_append, hsplit], rfl, .finish hrest⟩
  | cons u rest =>
    by_cases hu : u = Text.newline
    · subst hu
      rw [next_of_newline hrest]
      have hpiece : [Text.newline] ++ c.skipBlanks.rest.drop 1 = c.skipBlanks.rest := by
        rw [hrest]; rfl
      exact ⟨[Text.newline], hblanks, by rw [advance, hpiece, hsplit], rfl, .newline⟩
    · obtain ⟨piece, hpiece, hend, htakes⟩ :=
        munch_takes type c.skipBlanks (by rw [hrest]; exact List.cons_ne_nil u rest)
      rw [next_of_ne_newline hrest hu]
      exact ⟨piece, hblanks, by rw [← hpiece, hsplit], hend, htakes⟩

/-! ## Places of the input -/

/-- The cursor stands at a place of the input. -/
structure StandsIn (input : Text) (c : Cursor) : Prop where
  le : c.position ≤ input.length
  rest : c.rest = input.drop c.position

/-- The place behind a number of readings. -/
def after (type : NumericType σ T) : Nat → Cursor → Cursor
  | 0, c => c
  | n + 1, c => ((c.after type n).next type).cursor

theorem after_succ (type : NumericType σ T) (n : Nat) (c : Cursor) :
    c.after type (n + 1) = (c.next type).cursor.after type n := by
  induction n with
  | zero => rfl
  | succ n ih => rw [after, ih, after]

theorem StandsIn.next {input : Text} (h : c.StandsIn input) :
    (c.next type).cursor.StandsIn input := by
  obtain ⟨blanks, piece, _, hrest, hposition, _⟩ := next_takes type c
  have hle := h.le
  have hlength := congrArg List.length (hrest.symm.trans h.rest)
  simp only [List.length_append, List.length_drop] at hlength
  refine ⟨by omega, ?_⟩
  rw [hposition, Nat.add_assoc, ← List.drop_drop, ← h.rest, hrest, ← List.append_assoc,
    ← List.length_append, List.drop_left]

theorem StandsIn.rest_eq_nil_iff {input : Text} (h : c.StandsIn input) :
    c.rest = [] ↔ c.position = input.length := by
  have hle := h.le
  rw [h.rest, List.drop_eq_nil_iff]
  omega

theorem standsIn_after (type : NumericType σ T) (input : Text) (n : Nat) :
    ((start input).after type n).StandsIn input := by
  induction n with
  | zero => exact ⟨Nat.zero_le _, rfl⟩
  | succ n ih => exact ih.next

end Cursor

/-- A part of the input is found where it stands. -/
theorem Text.extract_of_drop {input s rest : Text} {p : Nat} (h : input.drop p = s ++ rest) :
    input.extract p (p + s.length) = s := by
  rw [List.extract_eq_take_drop, h, Nat.add_sub_cancel_left, List.take_left]

/-! ## Slices -/

/-- What reading at a position does, in positions of the input. -/
structure Fetch.Slices (type : NumericType σ T) (input : Text) (before : Nat) (fetch : Fetch T) :
    Prop where
  /-- The position never decreases. -/
  le : before ≤ fetch.cursor.position
  /-- The position stays inside the input. -/
  le_length : fetch.cursor.position ≤ input.length
  /-- Something is read as long as there is something. -/
  advances : before < input.length → before < fetch.cursor.position
  /-- Only blanks stand in front of a token. -/
  blanks : ∀ t, fetch.token = .ok t → before ≤ t.position ∧
    ∀ u ∈ input.extract before t.position, Text.isBlank u = true
  /-- The text of a token stands in the input at its position, and reading stops behind it. -/
  text : ∀ t, fetch.token = .ok t → t.terminal ≠ .finish →
    input.extract t.position (t.position + t.lexeme.text.length) = t.lexeme.text ∧
      fetch.cursor.position = t.position + t.lexeme.text.length
  /-- An end stands at a line feed, which is read over, or at the end of the input. -/
  finish : ∀ t, fetch.token = .ok t → t.terminal = .finish →
    input[t.position]? = some Text.newline ∧ fetch.cursor.position = t.position + 1 ∨
      t.position = input.length ∧ fetch.cursor.position = input.length
  /-- A refused literal stands behind blanks only, and reading stops behind it. -/
  refused : ∀ f, fetch.token = .error f → ∃ start, before ≤ start ∧
    (∀ u ∈ input.extract before start, Text.isBlank u = true) ∧
      type.parseLiteral (input.extract start fetch.cursor.position) = .error f

namespace Cursor

variable {type : NumericType σ T} {c : Cursor} {input : Text}

/-- At a place of the input, reading takes blanks up to some position and a piece from there on. -/
theorem StandsIn.exists_piece (type : NumericType σ T) (h : c.StandsIn input) :
    ∃ p piece, c.position ≤ p ∧ (∀ u ∈ input.extract c.position p, Text.isBlank u = true) ∧
      input.drop p = piece ++ (c.next type).cursor.rest ∧
      (c.next type).cursor.position = p + piece.length ∧
      type.Takes p (c.next type).cursor.rest piece (c.next type).token := by
  obtain ⟨blanks, piece, hblanks, hrest, hposition, htakes⟩ := next_takes type c
  have hdrop : input.drop c.position = blanks ++ (piece ++ (c.next type).cursor.rest) :=
    h.rest.symm.trans hrest
  have hextract : input.extract c.position (c.position + blanks.length) = blanks :=
    Text.extract_of_drop hdrop
  refine ⟨c.position + blanks.length, piece, by omega, by rwa [hextract], ?_, hposition, htakes⟩
  rw [← List.drop_drop, hdrop, List.drop_left]

/-- **One reading.** At a place of the input, reading takes the slice that comes next. -/
theorem StandsIn.slices (type : NumericType σ T) (h : c.StandsIn input) :
    (c.next type).Slices type input c.position := by
  obtain ⟨p, piece, hle, hblanks, hdrop, hposition, htakes⟩ := h.exists_piece type
  have hnext : (c.next type).cursor.StandsIn input := h.next
  have hpiece : input.extract p (p + piece.length) = piece := Text.extract_of_drop hdrop
  refine ⟨by omega, hnext.le, ?_, ?_, ?_, ?_, ?_⟩
  all_goals generalize (c.next type).token = token at htakes
  · intro hlt
    cases htakes with
    | lexeme _ hne | refused _ hne =>
      have hpos := List.length_pos_iff.2 hne
      omega
    | newline =>
      rw [List.length_singleton] at hposition
      omega
    | finish hend =>
      have hlength := hnext.rest_eq_nil_iff.1 hend
      omega
  · intro t ht
    cases htakes with
    | lexeme | newline | finish => cases ht; exact ⟨hle, hblanks⟩
    | refused => cases ht
  · intro t ht hterminal
    cases htakes with
    | lexeme => cases ht; exact ⟨hpiece, hposition⟩
    | newline | finish => cases ht; exact absurd rfl hterminal
    | refused => cases ht
  · intro t ht hterminal
    cases htakes with
    | lexeme hne => cases ht; exact absurd hterminal hne
    | newline =>
      cases ht
      left
      have hunit := congrArg (·[0]?) hdrop
      simp only [List.getElem?_drop, Nat.add_zero] at hunit
      exact ⟨hunit, hposition⟩
    | finish hend =>
      cases ht
      right
      have hlength := hnext.rest_eq_nil_iff.1 hend
      rw [List.length_nil] at hposition
      exact ⟨by rw [← hlength, hposition]; rfl, hlength⟩
    | refused => cases ht
  · intro f hf
    cases htakes with
    | lexeme | newline | finish => cases hf
    | refused hparse =>
      cases hf
      exact ⟨p, hle, hblanks, by rwa [hposition, hpiece]⟩

theorem next_of_position_eq (h : c.StandsIn input) (hend : c.position = input.length) :
    (c.next type).token = .ok ⟨.finish, input.length⟩ ∧
      (c.next type).cursor.position = input.length := by
  have hslices : (c.next type).Slices type input c.position := h.slices type
  have hle := hslices.le
  have hle' := hslices.le_length
  have hposition : (c.next type).cursor.position = input.length := by omega
  have hrest : c.rest.length = 0 := List.length_eq_zero_iff.2 (h.rest_eq_nil_iff.2 hend)
  rcases rest_length_next type c with hlt | ⟨-, htoken⟩
  · omega
  · exact ⟨by rw [htoken, hposition], hposition⟩

theorem position_after_of_le (type : NumericType σ T) (input : Text) {n m : Nat}
    (hend : ((start input).after type n).position = input.length) (h : n ≤ m) :
    ((start input).after type m).position = input.length := by
  induction h with
  | refl => exact hend
  | step _ ih => exact (next_of_position_eq (standsIn_after type input _) ih).2

/-- The first readings take a unit each, unless the input has ended. -/
theorem le_position_after (type : NumericType σ T) (input : Text) (n : Nat) :
    min n input.length ≤ ((start input).after type n).position := by
  induction n with
  | zero => omega
  | succ n ih =>
    have hslices := (standsIn_after type input n).slices type
    have hle := hslices.le
    have hlt := hslices.advances
    simp only [after]
    omega

/-! ## Whole texts -/

theorem token_of_take {count k : Nat} {t : Token T}
    (h : (c.take type count).tokens[k]? = some t) :
    ((c.after type k).next type).token = .ok t := by
  induction count generalizing c k with
  | zero => simp [take] at h
  | succ count ih =>
    simp only [take] at h
    cases htoken : (c.next type).token with
    | error f => simp [htoken] at h
    | ok first =>
      simp only [htoken] at h
      cases k with
      | zero =>
        simp only [List.getElem?_cons_zero, Option.some.injEq] at h
        rw [after, htoken, h]
      | succ k =>
        rw [after_succ]
        split at h
        · simp at h
        · exact ih (by simpa using h)

/-- Each token but the last takes a unit of the input. -/
theorem length_take_le (type : NumericType σ T) {count : Nat} (h : c.rest.length + 1 < count) :
    (c.take type count).tokens.length ≤ c.rest.length + 1 ∧
      (c.take type count).ending ≠ .unfinished := by
  induction count generalizing c with
  | zero => omega
  | succ count ih =>
    simp only [take]
    cases htoken : (c.next type).token with
    | error f => simp
    | ok t =>
      cases hlast : t.isLast with
      | true =>
        have hcount : count ≠ 0 := by omega
        simp [hlast, hcount]
      | false =>
        have hlt := rest_length_next_lt htoken hlast
        obtain ⟨hlength, hending⟩ := ih (c := (c.next type).cursor) (by omega)
        simp only [hlast, Bool.false_eq_true, if_false, List.length_cons]
        exact ⟨by omega, hending⟩

/-- **Tokens are slices.** Whatever the literals of the type are, each reading takes the slice of
the input that comes next, and moves on while there is input left. After as many readings as the
input has units, nothing is left, and from then on the same end is read. So the tokens of a text,
which are those that are read one after the other, number one more than its units at most. -/
theorem next_slices (type : NumericType σ T) (input : Text) :
    let place := fun n => (start input).after type n
    (∀ n, ((place n).next type).Slices type input (place n).position) ∧
    (∀ n m, (place n).position = input.length → n ≤ m →
      ((place m).next type).token = .ok ⟨.finish, input.length⟩) ∧
    (place input.length).position = input.length ∧
    (tokenize type input).tokens.length ≤ input.length + 1 ∧
    (tokenize type input).ending ≠ .unfinished ∧
    ∀ k t, (tokenize type input).tokens[k]? = some t → ((place k).next type).token = .ok t := by
  intro place
  have hplace : ∀ n, (place n).StandsIn input := standsIn_after type input
  have hmin : min input.length input.length ≤ (place input.length).position :=
    le_position_after type input input.length
  have hle := (hplace input.length).le
  have hcount : (start input).rest.length + 1 < input.length + 2 := Nat.lt_succ_self _
  obtain ⟨hlength, hending⟩ := length_take_le type hcount
  refine ⟨fun n => (hplace n).slices type, fun n m hend hnm => ?_, by omega, hlength, hending,
    fun k t ht => token_of_take ht⟩
  exact (next_of_position_eq (hplace m) (position_after_of_le type input hend hnm)).1

/-- An operator behind a tab is found there, and reading past the end changes nothing. -/
theorem next_slices_tab :
    (Text.ofString "x\t+ 7").extract 2 3 = Text.ofString "+" ∧
      (((start (Text.ofString "x\t+ 7")).after (int64 : NumericType Unit Int) 4).next
        (int64 : NumericType Unit Int)).token = .ok ⟨.finish, 5⟩ := by
  obtain ⟨hslices, hfinish, -⟩ :=
    next_slices (int64 : NumericType Unit Int) (Text.ofString "x\t+ 7")
  have hplace : (start (Text.ofString "x\t+ 7")).after (int64 : NumericType Unit Int) 1
      = ⟨1, Text.ofString "\t+ 7"⟩ := by decide
  have htoken : (((start (Text.ofString "x\t+ 7")).after (int64 : NumericType Unit Int) 1).next
      (int64 : NumericType Unit Int)).token = .ok ⟨.punctuation .plus, 2⟩ := by
    rw [hplace]
    rfl
  exact ⟨((hslices 1).text _ htoken (by decide)).1, hfinish 3 4 (by decide) (by decide)⟩

end Cursor
end Calculator
