import Calculator.Proofs.Juxtaposition

/-!
# Parentheses are transparent

`Setup.run_parenthesized`: parentheses around a text that has a value change nothing at all.

Proof. The text spells a grouped tree, and with parentheses it spells the same tree in parentheses
(`NumericType.Written.parenthesized`), since no word goes on with a closing parenthesis. A tree in
parentheses is grouped if the tree is, and evaluated alike.
-/

namespace Calculator

variable {σ T : Type}

/-- The text between parentheses. -/
def Text.parenthesized (t : Text) : Text :=
  Punctuation.leftParen.unit :: t ++ [Punctuation.rightParen.unit]

theorem Text.newline_notMem_parenthesized {t : Text} (h : newline ∉ t) :
    newline ∉ t.parenthesized := by
  simp only [parenthesized, List.mem_append, List.mem_cons, not_or]
  exact ⟨⟨by decide, h⟩, by decide, List.not_mem_nil⟩

namespace NumericType.Written

variable {type : NumericType σ T} {ls : List (Lexeme T)} {input : Text}

/-- Behind a text that punctuation delimits, it stands as a word of its own. -/
theorem concat (h : type.Written ls input) (hplain : type.PlainLiterals) {p : Punctuation}
    (hp : type.Delimits p.unit) : type.Written (ls ++ [.punctuation p]) (input ++ [p.unit]) := by
  have hlast : type.Written [.punctuation p] [p.unit] := (Written.nil rfl).punctuation hplain p
  refine h.append hlast (fun u hu => ?_) hplain
  obtain rfl : p.unit = u := Option.some.inj hu
  exact hp

theorem parenthesized {t : Tree T} (h : type.Written t.lexemes input)
    (hplain : type.PlainLiterals) (hclose : type.Delimits Punctuation.rightParen.unit) :
    type.Written (Tree.paren t).lexemes input.parenthesized :=
  (h.punctuation hplain .leftParen).concat hplain hclose

end NumericType.Written

namespace Setup

/-- A pair of parentheses around a text that has a value changes nothing. -/
theorem run_paren (setup : Setup σ T) (hplain : setup.type.PlainLiterals)
    (hclose : setup.type.Delimits Punctuation.rightParen.unit)
    (hnewline : Text.newline ∉ setup.input) {store : Store σ T} {a : T}
    (ha : (setup.run store).result = .ok a) :
    Setup.run { setup with input := setup.input.parenthesized } store = setup.run store := by
  let other : Setup σ T := { setup with input := setup.input.parenthesized }
  obtain ⟨t, ht, hinput⟩ := setup.exists_written_of_ok hplain hnewline ha
  have hother : other.type.Written (Tree.paren t).lexemes other.input :=
    hinput.parenthesized hplain hclose
  have hgrouped : (Tree.paren t).isGrouped = true := ht
  calc
    other.run store
      = ⟨((Tree.paren t).evaluate setup.type setup.generator store).1,
          ((Tree.paren t).evaluate setup.type setup.generator store).2, []⟩ :=
        other.run_of_written hplain hgrouped hother store
    _ = setup.run store := (setup.run_of_written hplain ht hinput store).symm

/-- **Parentheses are transparent.** Floats and integers have literals of the kind that is asked
for, and none of their words goes on with a closing parenthesis. If a text without a line feed has a
value, then the text in any number of parentheses has the same value. It leaves the same variables
in the same order and the same state of the source, and it warns alike. So it draws alike: the
states of a source may hold a record of what has been drawn. -/
theorem run_parenthesized :
    ((float64 : NumericType σ Float).PlainLiterals ∧
      (float64 : NumericType σ Float).Delimits Punctuation.rightParen.unit) ∧
    ((int64 : NumericType σ Int).PlainLiterals ∧
      (int64 : NumericType σ Int).Delimits Punctuation.rightParen.unit) ∧
    ∀ (setup : Setup σ T) (store : Store σ T) (a : T), setup.type.PlainLiterals →
      setup.type.Delimits Punctuation.rightParen.unit → Text.newline ∉ setup.input →
      (setup.run store).result = .ok a → ∀ n,
        Setup.run { setup with input := Text.parenthesized^[n] setup.input } store
          = setup.run store := by
  refine ⟨⟨float64_plainLiterals, float64_delimits rfl⟩,
    ⟨int64_plainLiterals, int64_delimits rfl rfl⟩, ?_⟩
  intro setup store a hplain hclose hnewline ha n
  have hwrapped : Text.newline ∉ Text.parenthesized^[n] setup.input ∧
      Setup.run { setup with input := Text.parenthesized^[n] setup.input } store
        = setup.run store := by
    induction n with
    | zero => exact ⟨hnewline, rfl⟩
    | succ n ih =>
      obtain ⟨hfree, hrun⟩ := ih
      let inner : Setup σ T := { setup with input := Text.parenthesized^[n] setup.input }
      have hinner : (inner.run store).result = .ok a := by rw [hrun, ha]
      rw [Function.iterate_succ_apply']
      exact ⟨Text.newline_notMem_parenthesized hfree,
        (inner.run_paren hplain hclose hfree hinner).trans hrun⟩
  exact hwrapped.2

/-- Assignments inside a product, with the second one drawing the number of words drawn so far; the
source keeps a record of them. -/
theorem run_parenthesized_twice :
    let generator : Generator (List Int) :=
      { nextWord := fun drawn => (.ok drawn.length, drawn ++ [(drawn.length : Int)])
        nextUnit := fun drawn => (0, drawn)
        patience := 0 }
    let setup (input : String) : Setup (List Int) Int := ⟨int64, generator, Text.ofString input⟩
    let outcome := (setup "x = 2 * (y = rand())").run ⟨.empty, []⟩
    (outcome.result = .ok 2 ∧ outcome.store.source = [0, 1]) ∧
      (setup "((x = 2 * (y = rand())))").run ⟨.empty, []⟩ = outcome := by
  intro generator setup outcome
  have hvalue : outcome.result = .ok 2 ∧ outcome.store.source = [0, 1] :=
    of_descend (fun o => o.result = .ok 2 ∧ o.store.source = [0, 1]) 60 (by decide)
      (by decide +kernel)
  exact ⟨hvalue, run_parenthesized.2.2 (setup "x = 2 * (y = rand())") ⟨.empty, []⟩ 2
    int64_plainLiterals (int64_delimits rfl rfl) (by decide) hvalue.1 2⟩

end Setup

end Calculator
