import Calculator.Proofs.Tree

/-!
# Trees with a hole

A context is a tree with a hole in place of one operand. Where a tree is written with parentheses
that are not those of a call, it is a context with an operand in parentheses
(`Tree.exists_context`).

* `Lexeme.Closed`: words that open and close their parentheses. Those of a tree are such words.
* `Lexeme.Closed.split`: parentheses that are around such words stand on one side of each place
  where the tokens of an operand end.
* `Tree.Context`: trees with a hole, and what is written before it and after it.
* `Tree.Context.isGrouped_fill`: what is in the hole counts for the grouping only by its edges.

Proof. The tree is searched from the top for the operand that holds the opening parenthesis. The
tokens of an operand are closed, so they hold the closing one as well.
-/

namespace Calculator

variable {T : Type}

/-! ## Parentheses among words -/

namespace Lexeme

/-- How much deeper in parentheses it is behind the word. -/
def rise : Lexeme T → Int
  | punctuation .leftParen => 1
  | punctuation .rightParen => -1
  | _ => 0

/-- How many parentheses the words open and do not close. -/
def depth : List (Lexeme T) → Int
  | [] => 0
  | l :: ls => l.rise + depth ls

@[simp] theorem depth_nil : depth ([] : List (Lexeme T)) = 0 := rfl

@[simp] theorem depth_cons (l : Lexeme T) (ls : List (Lexeme T)) :
    depth (l :: ls) = l.rise + depth ls := rfl

@[simp] theorem depth_append (ls ls' : List (Lexeme T)) :
    depth (ls ++ ls') = depth ls + depth ls' := by
  induction ls with
  | nil => simp
  | cons l ls ih => rw [List.cons_append, depth_cons, depth_cons, ih, Int.add_assoc]

@[simp] theorem rise_leftParen : (punctuation .leftParen : Lexeme T).rise = 1 := rfl

@[simp] theorem rise_rightParen : (punctuation .rightParen : Lexeme T).rise = -1 := rfl

/-- All parentheses are closed, and none is that has not been opened. -/
structure Closed (ls : List (Lexeme T)) : Prop where
  depth : depth ls = 0
  inits : ∀ init rest, ls = init ++ rest → 0 ≤ Lexeme.depth init

namespace Closed

variable {ls ls' before inner after : List (Lexeme T)}

theorem nil : Closed ([] : List (Lexeme T)) where
  depth := rfl
  inits init rest h := by
    obtain rfl : init = [] := (List.append_eq_nil_iff.1 h.symm).1
    exact Int.le_refl 0

theorem append (h : Closed ls) (h' : Closed ls') : Closed (ls ++ ls') where
  depth := by rw [depth_append, h.depth, h'.depth]; rfl
  inits init rest heq := by
    rcases List.append_eq_append_iff.1 heq with ⟨more, rfl, hmore⟩ | ⟨more, hmore, -⟩
    · rw [depth_append, h.depth, Int.zero_add]
      exact h'.inits more rest hmore
    · exact h.inits init more hmore

/-- A word that is no parenthesis in front. -/
theorem cons (h : Closed ls) {l : Lexeme T} (hl : l.rise = 0) : Closed (l :: ls) where
  depth := by rw [depth_cons, hl, h.depth]; rfl
  inits init rest heq := by
    cases init with
    | nil => exact Int.le_refl 0
    | cons l' init =>
      obtain ⟨rfl, hls⟩ := List.cons.inj heq
      rw [depth_cons, hl, Int.zero_add]
      exact h.inits init rest hls

/-- Parentheses around the words. -/
theorem enclosed (h : Closed ls) :
    Closed (.punctuation .leftParen :: ls ++ [.punctuation .rightParen]) where
  depth := by simp [h.depth]
  inits init rest heq := by
    cases init with
    | nil => exact Int.le_refl 0
    | cons l init =>
      obtain ⟨rfl, hls⟩ := List.cons.inj heq
      rw [depth_cons, rise_leftParen]
      rcases List.append_eq_append_iff.1 hls with ⟨more, rfl, hmore⟩ | ⟨more, hmore, -⟩
      · rcases List.singleton_eq_append_iff.1 hmore with ⟨rfl, -⟩ | ⟨rfl, -⟩ <;>
          simp [h.depth]
      · have hle := h.inits init more hmore
        omega

/-- **Parentheses do not cross.** Where closed words end in front of some other word, parentheses
around closed words stand on one side of it or on the other. -/
theorem split (h : Closed ls) (hinner : Closed inner) {l : Lexeme T}
    (hl : l ≠ .punctuation .leftParen)
    (heq : ls ++ l :: ls'
      = before ++ .punctuation .leftParen :: (inner ++ .punctuation .rightParen :: after)) :
    (∃ rest, before = ls ++ l :: rest ∧
      ls' = rest ++ .punctuation .leftParen :: (inner ++ .punctuation .rightParen :: after)) ∨
    ∃ rest, after = rest ++ l :: ls' ∧
      ls = before ++ .punctuation .leftParen :: (inner ++ .punctuation .rightParen :: rest) := by
  rcases List.append_eq_append_iff.1 heq with ⟨more, hbefore, hmore⟩ | ⟨more, hls, hmore⟩
  · cases more with
    | nil => exact absurd (List.cons.inj hmore).1 hl
    | cons l' more =>
      obtain ⟨rfl, hbehind⟩ := List.cons.inj hmore
      exact .inl ⟨more, hbefore, hbehind⟩
  · cases more with
    | nil => exact absurd (List.cons.inj hmore).1.symm hl
    | cons l' more =>
      obtain ⟨rfl, hbehind⟩ := List.cons.inj hmore
      -- What the words hold behind the opening parenthesis goes below the depth in front of it.
      have hdepth : Lexeme.depth more < 0 := by
        have hzero := h.depth
        have hle := h.inits before _ hls
        rw [hls, depth_append, depth_cons, rise_leftParen] at hzero
        omega
      rcases List.append_eq_append_iff.1 hbehind with ⟨rest, rfl, hrest⟩ | ⟨rest, hrest, -⟩
      · cases rest with
        | nil =>
          rw [List.append_nil, hinner.depth] at hdepth
          exact absurd hdepth (Int.lt_irrefl 0)
        | cons r rest =>
          obtain ⟨rfl, hafter⟩ := List.cons.inj hrest
          exact .inr ⟨rest, hafter, hls⟩
      · exact absurd (hinner.inits more rest hrest) (Int.not_le.2 hdepth)

/-- Parentheses that end in front of the closing one stand on this side of it. -/
theorem inside (h : Closed ls) (hinner : Closed inner)
    (heq : ls ++ [.punctuation .rightParen]
      = before ++ .punctuation .leftParen :: (inner ++ .punctuation .rightParen :: after)) :
    ∃ rest, after = rest ++ [.punctuation .rightParen] ∧
      ls = before ++ .punctuation .leftParen :: (inner ++ .punctuation .rightParen :: rest) := by
  rcases h.split hinner (by simp) heq with ⟨rest, -, hrest⟩ | hinside
  · simp at hrest
  · exact hinside

/-- The parenthesis that closes the one in front of closed words stands behind them. -/
theorem eq_of_enclosed (h : Closed ls) (hinner : Closed inner)
    (heq : ls ++ [.punctuation .rightParen] = inner ++ .punctuation .rightParen :: after) :
    inner = ls ∧ after = [] := by
  rcases List.append_eq_append_iff.1 heq with ⟨more, rfl, hmore⟩ | ⟨more, hls, hmore⟩
  · rcases List.singleton_eq_append_iff.1 hmore with ⟨rfl, hafter⟩ | ⟨-, hafter⟩
    · exact ⟨List.append_nil ls, (List.cons.inj hafter).2⟩
    · cases hafter
  · cases more with
    | nil => exact ⟨by rw [hls, List.append_nil], (List.cons.inj hmore).2⟩
    | cons l more =>
      obtain ⟨rfl, -⟩ := List.cons.inj hmore
      have hle := h.inits (inner ++ [.punctuation .rightParen]) more (by rw [hls]; simp)
      rw [depth_append, hinner.depth] at hle
      exact absurd hle (by simp)

end Closed

/-- The last of the words, if there is one, is no identifier. -/
def LastUnnamed (ls : List (Lexeme T)) : Prop := ∀ name, ¬ [.identifier name] <:+ ls

theorem LastUnnamed.of_append {ls ls' : List (Lexeme T)} (h : LastUnnamed (ls ++ ls')) :
    LastUnnamed ls' := fun name hsuffix =>
  h name (hsuffix.trans (List.suffix_append ls ls'))

theorem LastUnnamed.of_cons {l : Lexeme T} {ls : List (Lexeme T)} (h : LastUnnamed (l :: ls)) :
    LastUnnamed ls := fun name hsuffix =>
  h name (hsuffix.trans (List.suffix_cons l ls))

end Lexeme

namespace Tree

/-- A tree closes its parentheses. -/
theorem closed (t : Tree T) : Lexeme.Closed t.lexemes := by
  induction t with
  | num a literal => exact Lexeme.Closed.nil.cons rfl
  | var name => exact Lexeme.Closed.nil.cons rfl
  | paren t ih => exact ih.enclosed
  | sign s t ih => exact ih.cons (by cases s <;> rfl)
  | bin op l r ihl ihr => exact ihl.append (ihr.cons (by cases op <;> rfl))
  | assign name t ih => exact (ih.cons rfl).cons rfl
  | call0 name => exact Lexeme.Closed.nil.enclosed.cons rfl
  | call1 name t ih => exact ih.enclosed.cons rfl
  | call2 name l r ihl ihr =>
    have harguments := (ihl.append (ihr.cons (l := .punctuation .comma) rfl)).enclosed
    simpa [lexemes] using harguments.cons (l := .identifier name) rfl

/-- A tree with a hole in place of one operand. -/
inductive Context (T : Type)
  | hole
  | paren (c : Context T)
  | sign (s : Sign) (c : Context T)
  | binLeft (op : BinaryOp) (c : Context T) (r : Tree T)
  | binRight (op : BinaryOp) (l : Tree T) (c : Context T)
  | assign (name : Text) (c : Context T)
  | call1 (name : Text) (c : Context T)
  | call2Left (name : Text) (c : Context T) (r : Tree T)
  | call2Right (name : Text) (l : Tree T) (c : Context T)

namespace Context

/-- The tree with an operand in the hole. -/
def fill (t : Tree T) : Context T → Tree T
  | hole => t
  | paren c => .paren (c.fill t)
  | sign s c => .sign s (c.fill t)
  | binLeft op c r => .bin op (c.fill t) r
  | binRight op l c => .bin op l (c.fill t)
  | assign name c => .assign name (c.fill t)
  | call1 name c => .call1 name (c.fill t)
  | call2Left name c r => .call2 name (c.fill t) r
  | call2Right name l c => .call2 name l (c.fill t)

/-- The words in front of the hole. -/
def before : Context T → List (Lexeme T)
  | hole => []
  | paren c => .punctuation .leftParen :: c.before
  | sign s c => .punctuation s.punctuation :: c.before
  | binLeft _ c _ => c.before
  | binRight op l c => l.lexemes ++ .punctuation op.punctuation :: c.before
  | assign name c => .identifier name :: .punctuation .equals :: c.before
  | call1 name c | call2Left name c _ => .identifier name :: .punctuation .leftParen :: c.before
  | call2Right name l c =>
    .identifier name :: .punctuation .leftParen :: l.lexemes ++ .punctuation .comma :: c.before

/-- The words behind the hole. -/
def after : Context T → List (Lexeme T)
  | hole => []
  | paren c | call1 _ c | call2Right _ _ c => c.after ++ [.punctuation .rightParen]
  | sign _ c | binRight _ _ c | assign _ c => c.after
  | binLeft op c r => c.after ++ .punctuation op.punctuation :: r.lexemes
  | call2Left _ c r =>
    c.after ++ .punctuation .comma :: r.lexemes ++ [.punctuation .rightParen]

theorem lexemes_fill (c : Context T) (t : Tree T) :
    (c.fill t).lexemes = c.before ++ t.lexemes ++ c.after := by
  induction c with
  | hole => simp [fill, before, after]
  | paren c ih | sign s c ih | binLeft op c r ih | binRight op l c ih | assign name c ih
  | call1 name c ih | call2Left name c r ih | call2Right name l c ih =>
    simp [fill, lexemes, ih, before, after]

variable {t t' : Tree T}

/-- Only the edges of what is in the hole can become edges of the whole tree. -/
theorem spines_fill (c : Context T) (hleft : t.leftSpine = t'.leftSpine)
    (hright : t.rightSpine = t'.rightSpine) :
    (c.fill t).leftSpine = (c.fill t').leftSpine ∧
      (c.fill t).rightSpine = (c.fill t').rightSpine := by
  induction c with
  | hole => exact ⟨hleft, hright⟩
  | binLeft op c r ih => exact ⟨congrArg (op :: ·) ih.1, rfl⟩
  | binRight op l c ih => exact ⟨rfl, congrArg (_ :: ·) ih.2⟩
  | sign s c ih => exact ⟨rfl, congrArg (_ :: ·) ih.2⟩
  | assign name c ih => exact ⟨rfl, congrArg (_ :: ·) ih.2⟩
  | paren | call1 | call2Left | call2Right => exact ⟨rfl, rfl⟩

/-- What is in the hole counts for the grouping only by its edges. -/
theorem isGrouped_fill (c : Context T) (hleft : t.leftSpine = t'.leftSpine)
    (hright : t.rightSpine = t'.rightSpine) (h : t.isGrouped = t'.isGrouped) :
    (c.fill t).isGrouped = (c.fill t').isGrouped := by
  induction c with
  | hole => exact h
  | paren c ih | assign name c ih | call1 name c ih => exact ih
  | sign s c ih =>
    obtain ⟨hleft, -⟩ := c.spines_fill hleft hright
    simp only [fill, isGrouped, ih, hleft]
  | binLeft op c r ih =>
    obtain ⟨-, hright⟩ := c.spines_fill hleft hright
    simp only [fill, isGrouped, ih, hright]
  | binRight op l c ih =>
    obtain ⟨hleft, -⟩ := c.spines_fill hleft hright
    simp only [fill, isGrouped, ih, hleft]
  | call2Left name c r ih | call2Right name l c ih => simp only [fill, isGrouped, ih]

theorem isGrouped_of_fill (c : Context T) (h : (c.fill t).isGrouped = true) :
    t.isGrouped = true := by
  induction c with
  | hole => exact h
  | paren c ih | assign name c ih | call1 name c ih => exact ih h
  | sign s c ih | binRight op l c ih | call2Right name l c ih =>
    rw [fill, isGrouped, Bool.and_eq_true] at h
    exact ih h.2
  | call2Left name c r ih =>
    rw [fill, isGrouped, Bool.and_eq_true] at h
    exact ih h.1
  | binLeft op c r ih =>
    rw [fill, isGrouped, Bool.and_eq_true, Bool.and_eq_true] at h
    exact ih h.1.2

end Context

section search

variable {before inner after : List (Lexeme T)}

/-- Parentheses that follow no identifier stand behind what follows one. -/
theorem exists_of_named {name : Text} {l : Lexeme T} {rest : List (Lexeme T)}
    (hbefore : Lexeme.LastUnnamed before)
    (h : .identifier name :: l :: rest
      = before ++ .punctuation .leftParen :: (inner ++ .punctuation .rightParen :: after)) :
    ∃ before', before = .identifier name :: l :: before' ∧
      rest
        = before' ++ .punctuation .leftParen :: (inner ++ .punctuation .rightParen :: after) := by
  match before, h with
  | [], h => cases (List.cons.inj h).1
  | [_], h =>
    obtain ⟨rfl, -⟩ := List.cons.inj h
    exact absurd List.suffix_rfl (hbefore name)
  | _ :: _ :: before', h =>
    obtain ⟨rfl, h₁⟩ := List.cons.inj h
    obtain ⟨rfl, h₂⟩ := List.cons.inj h₁
    exact ⟨before', rfl, h₂⟩

open Context in
/-- **Parentheses are around an operand.** Where a tree is written with closed words in parentheses
that follow no identifier, these words are an operand of it, in parentheses. -/
theorem exists_context (t : Tree T) (hinner : Lexeme.Closed inner) (hbefore : Lexeme.LastUnnamed before)
    (h : t.lexemes
      = before ++ .punctuation .leftParen :: (inner ++ .punctuation .rightParen :: after)) :
    ∃ (c : Context T) (u : Tree T), t = c.fill (.paren u) ∧
      c.before = before ∧ u.lexemes = inner ∧ c.after = after := by
  induction t generalizing before inner after with
  | num a literal | var name =>
    have hlength := congrArg List.length h
    simp only [lexemes, List.length_append, List.length_cons, List.length_nil] at hlength
    omega
  | paren t ih =>
    cases before with
    | nil =>
      obtain ⟨rfl, rfl⟩ := t.closed.eq_of_enclosed hinner (List.cons.inj h).2
      exact ⟨.hole, t, rfl, rfl, rfl, rfl⟩
    | cons l before =>
      obtain ⟨rfl, hrest⟩ := List.cons.inj h
      obtain ⟨after, rfl, ht⟩ := t.closed.inside hinner hrest
      obtain ⟨c, u, rfl, rfl, hu, rfl⟩ := ih hinner hbefore.of_cons ht
      exact ⟨.paren c, u, rfl, rfl, hu, rfl⟩
  | sign s t ih =>
    cases before with
    | nil => cases s <;> cases (List.cons.inj h).1
    | cons l before =>
      obtain ⟨rfl, ht⟩ := List.cons.inj h
      obtain ⟨c, u, rfl, rfl, hu, rfl⟩ := ih hinner hbefore.of_cons ht
      exact ⟨.sign s c, u, rfl, rfl, hu, rfl⟩
  | bin op l r ihl ihr =>
    rcases l.closed.split hinner (by cases op <;> simp [BinaryOp.punctuation]) h with
      ⟨before, rfl, hr⟩ | ⟨after, rfl, hl⟩
    · obtain ⟨c, u, rfl, rfl, hu, rfl⟩ := ihr hinner hbefore.of_append.of_cons hr
      exact ⟨.binRight op l c, u, rfl, rfl, hu, rfl⟩
    · obtain ⟨c, u, rfl, rfl, hu, rfl⟩ := ihl hinner hbefore hl
      exact ⟨.binLeft op c r, u, rfl, rfl, hu, rfl⟩
  | assign name t ih =>
    obtain ⟨before, rfl, ht⟩ := exists_of_named hbefore h
    obtain ⟨c, u, rfl, rfl, hu, rfl⟩ := ih hinner hbefore.of_cons.of_cons ht
    exact ⟨.assign name c, u, rfl, rfl, hu, rfl⟩
  | call0 name =>
    obtain ⟨before, rfl, hrest⟩ := exists_of_named hbefore h
    have hlength := congrArg List.length hrest
    simp only [List.length_append, List.length_cons, List.length_nil] at hlength
    omega
  | call1 name t ih =>
    obtain ⟨before, rfl, hrest⟩ := exists_of_named hbefore h
    obtain ⟨after, rfl, ht⟩ := t.closed.inside hinner hrest
    obtain ⟨c, u, rfl, rfl, hu, rfl⟩ := ih hinner hbefore.of_cons.of_cons ht
    exact ⟨.call1 name c, u, rfl, rfl, hu, rfl⟩
  | call2 name l r ihl ihr =>
    have hcall : .identifier name :: .punctuation .leftParen ::
        (l.lexemes ++ .punctuation .comma :: (r.lexemes ++ [.punctuation .rightParen]))
          = before ++ .punctuation .leftParen :: (inner ++ .punctuation .rightParen :: after) := by
      rw [← h]
      simp [lexemes]
    obtain ⟨before, rfl, hrest⟩ := exists_of_named hbefore hcall
    rcases l.closed.split hinner (by simp) hrest with ⟨before, rfl, hr⟩ | ⟨after, rfl, hl⟩
    · obtain ⟨after, rfl, hr'⟩ := r.closed.inside hinner hr
      obtain ⟨c, u, rfl, rfl, hu, rfl⟩ := ihr hinner hbefore.of_cons.of_cons.of_append.of_cons hr'
      exact ⟨.call2Right name l c, u, rfl, rfl, hu, rfl⟩
    · obtain ⟨c, u, rfl, rfl, hu, rfl⟩ := ihl hinner hbefore.of_cons.of_cons hl
      exact ⟨.call2Left name c r, u, rfl, rfl, hu, by simp [after]⟩

end search

end Tree

end Calculator
