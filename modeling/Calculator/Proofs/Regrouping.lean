import Calculator.Proofs.Acceptance
import Calculator.Proofs.Precedence
import Calculator.Proofs.Respacing

/-!
# Every sentence is a grouped tree

`Setup.exists_tree_of_ok`: a text that has a value spells a grouped tree.

* `Head`: what stands in front of its last operand.
* `Tree.attach`: the tree of a head with the tokens of a tree behind it.
* `Tree.join`: the tree of an operator between the tokens of two trees.
* `Phrase.exists_grouped`: each derivation of the grammar has a grouped tree with the same tokens.

Proof. The grammar says nothing about precedence, so its derivations give trees that need not be
grouped, and operators have to change places. A head goes down the left edge of a tree, past the
operators that it binds tighter than, and takes what it finds there (`Tree.attach`). For an operator
between two trees, the constructs at the right edge of the left one are such heads, innermost first
(`Tree.join`). Neither changes the tokens.
-/

namespace Calculator

variable {σ T : Type}

/-! ## Heads -/

/-- What stands in front of its last operand: a sign, a binary operator with its left operand, or
the name that is assigned to. -/
inductive Head (T : Type)
  | sign (s : Sign)
  | bin (op : BinaryOp) (l : Tree T)
  | assign (name : Text)

namespace Head

/-- The construct as a pending operator; an assignment is none. -/
def pending : Head T → Option Pending
  | sign _ => some .sign
  | bin op _ => some (.binary op)
  | assign _ => none

def lexemes : Head T → List (Lexeme T)
  | sign s => [.punctuation s.punctuation]
  | bin op l => l.lexemes ++ [.punctuation op.punctuation]
  | assign name => [.identifier name, .punctuation .equals]

/-- The tree with the given last operand. -/
def apply : Head T → Tree T → Tree T
  | sign s => .sign s
  | bin op l => .bin op l
  | assign name => .assign name

/-- Whether the left operand, if there is one, is what the operator takes. -/
def isGrouped : Head T → Bool
  | bin op l => l.rightSpine.all (fun q => !q.all op.bindsTighter) && l.isGrouped
  | _ => true

theorem lexemes_apply (h : Head T) (t : Tree T) : (h.apply t).lexemes = h.lexemes ++ t.lexemes := by
  cases h with
  | bin op l => simp [apply, Tree.lexemes, lexemes]
  | _ => rfl

theorem rightSpine_apply (h : Head T) (t : Tree T) :
    (h.apply t).rightSpine = h.pending :: t.rightSpine := by
  cases h <;> rfl

/-- A grouped head takes a grouped operand if all operators at its left edge bind tighter. -/
theorem isGrouped_apply {h : Head T} {t : Tree T} (hh : h.isGrouped = true)
    (ht : t.isGrouped = true) (hleft : ∀ q ∈ t.leftSpine, h.pending.all q.bindsTighter = true) :
    (h.apply t).isGrouped = true := by
  cases h with
  | sign s =>
    rw [apply, Tree.isGrouped, ht, Bool.and_true, List.all_eq_true]
    exact hleft
  | bin op l =>
    rw [isGrouped, Bool.and_eq_true] at hh
    rw [apply, Tree.isGrouped, hh.1, hh.2, ht, Bool.true_and, Bool.and_true, Bool.and_true,
      List.all_eq_true]
    exact hleft
  | assign name => exact ht

end Head

/-! ## Moving operators -/

/-- An operator that is left to `q` binds tighter than whatever `q` binds tighter than. -/
theorem BinaryOp.bindsTighter_of_not {q p : BinaryOp} {pending : Pending}
    (hq : q.bindsTighter pending = true) (hp : q.bindsTighter (.binary p) = false) :
    p.bindsTighter pending = true := by
  revert hq hp
  cases q <;> cases p <;> rcases pending with _ | op <;> first | decide | (cases op <;> decide)

namespace Tree

/-- The operators further down the left edge of a grouped tree bind tighter than whatever the first
one binds tighter than. -/
theorem bindsTighter_of_mem_leftSpine {q : BinaryOp} {l r : Tree T} {pending : Option Pending}
    (h : (bin q l r).isGrouped = true) (hq : pending.all q.bindsTighter = true) :
    ∀ p ∈ (bin q l r).leftSpine, pending.all p.bindsTighter = true := by
  cases pending with
  | none => exact fun _ _ => rfl
  | some pending =>
    induction l generalizing q r with
    | bin p l₁ l₂ ih _ =>
      simp only [isGrouped, Bool.and_eq_true, rightSpine, List.all_cons, Option.all_some,
        Bool.not_eq_true'] at h
      have hp := BinaryOp.bindsTighter_of_not hq h.1.1.1.1
      rw [leftSpine, List.forall_mem_cons]
      exact ⟨hq, ih (by simp only [isGrouped, Bool.and_eq_true]; exact h.1.2) hp⟩
    | _ =>
      rw [leftSpine, List.forall_mem_cons]
      exact ⟨hq, fun p hp => absurd hp List.not_mem_nil⟩

/-- The tree of the head with the tokens of the tree behind it. Operators at the left edge that do
not bind tighter than the head take it into their left operand. -/
def attach (h : Head T) : Tree T → Tree T
  | bin q l r => if h.pending.all q.bindsTighter then h.apply (bin q l r) else bin q (l.attach h) r
  | t => h.apply t

theorem lexemes_attach (h : Head T) (t : Tree T) :
    (t.attach h).lexemes = h.lexemes ++ t.lexemes := by
  induction t with
  | bin q l r ihl _ =>
    rw [attach]
    split
    · exact h.lexemes_apply _
    · rw [lexemes, lexemes, ihl, List.append_assoc]
  | _ => exact h.lexemes_apply _

theorem mem_rightSpine_attach (h : Head T) (t : Tree T) :
    ∀ q ∈ (t.attach h).rightSpine, q = h.pending ∨ q ∈ t.rightSpine := by
  have happly : ∀ q ∈ (h.apply t).rightSpine, q = h.pending ∨ q ∈ t.rightSpine := by
    rw [h.rightSpine_apply]
    exact fun q hq => List.mem_cons.1 hq
  cases t with
  | bin q l r =>
    rw [attach]
    split
    · exact happly
    · exact fun _ hq => .inr hq
  | _ => exact happly

theorem isGrouped_attach {h : Head T} {t : Tree T} (hh : h.isGrouped = true)
    (ht : t.isGrouped = true) : (t.attach h).isGrouped = true := by
  induction t with
  | bin q l r ihl _ =>
    rw [attach]
    split
    · next hq => exact Head.isGrouped_apply hh ht (bindsTighter_of_mem_leftSpine ht hq)
    · next hq =>
      rw [Bool.not_eq_true] at hq
      simp only [isGrouped, Bool.and_eq_true, List.all_eq_true, Bool.not_eq_true'] at ht ⊢
      obtain ⟨⟨⟨hright, hleft⟩, hl⟩, hr⟩ := ht
      refine ⟨⟨⟨fun p hp => ?_, hleft⟩, ihl hl⟩, hr⟩
      -- The operator is left to the head, or it would have been taken.
      rcases mem_rightSpine_attach h l p hp with rfl | hp
      · exact hq
      · exact hright p hp
  | _ => exact Head.isGrouped_apply hh ht fun q hq => absurd hq List.not_mem_nil

/-- The tree of the operator between the tokens of the left tree and the tokens of the right one. -/
def join (op : BinaryOp) (r : Tree T) : Tree T → Tree T
  | sign s l => (join op r l).attach (.sign s)
  | bin q l₁ l₂ => (join op r l₂).attach (.bin q l₁)
  | assign name l => (join op r l).attach (.assign name)
  | l => r.attach (.bin op l)

theorem lexemes_join (op : BinaryOp) (r l : Tree T) :
    (join op r l).lexemes = l.lexemes ++ .punctuation op.punctuation :: r.lexemes := by
  induction l with
  | bin q l₁ l₂ _ ih => simp [join, lexemes_attach, ih, Head.lexemes, lexemes]
  | sign | assign => simp_all [join, lexemes_attach, Head.lexemes, lexemes]
  | _ => simp [join, lexemes_attach, Head.lexemes]

theorem isGrouped_join (op : BinaryOp) {r l : Tree T} (hr : r.isGrouped = true)
    (hl : l.isGrouped = true) : (join op r l).isGrouped = true := by
  induction l with
  | bin q l₁ l₂ _ ih =>
    simp only [isGrouped, Bool.and_eq_true] at hl
    refine isGrouped_attach ?_ (ih hl.2)
    rw [Head.isGrouped, hl.1.1.1, hl.1.2]
    rfl
  | sign s l ih =>
    rw [isGrouped, Bool.and_eq_true] at hl
    exact isGrouped_attach rfl (ih hl.2)
  | assign name l ih => exact isGrouped_attach rfl (ih hl)
  | _ =>
    refine isGrouped_attach ?_ hr
    rw [Head.isGrouped, hl]
    rfl

end Tree

/-! ## Phrases -/

namespace Lexeme

variable {l : Lexeme T} {ls : List (Lexeme T)} {e e' : List Terminal}

theorem eq_punctuation {p : Punctuation} (h : l.terminal = .punctuation p) :
    l = .punctuation p := by
  cases l with
  | punctuation q => cases h; rfl
  | number | identifier | finish | invalid => cases h

theorem exists_punctuation {p : Punctuation} (h : ls.map terminal = .punctuation p :: e) :
    ∃ ls', ls'.map terminal = e ∧ ls = .punctuation p :: ls' := by
  obtain ⟨l, ls', rfl, hl, he⟩ := List.map_eq_cons_iff.1 h
  exact ⟨ls', he, by rw [eq_punctuation hl]⟩

theorem exists_identifier (h : ls.map terminal = .identifier :: e) :
    ∃ name ls', ls'.map terminal = e ∧ ls = .identifier name :: ls' := by
  obtain ⟨l, ls', rfl, hl, he⟩ := List.map_eq_cons_iff.1 h
  cases l with
  | identifier name => exact ⟨name, ls', he, rfl⟩
  | punctuation | number | finish | invalid => cases hl

theorem exists_append_punctuation {p : Punctuation}
    (h : ls.map terminal = e ++ .punctuation p :: e') :
    ∃ ls₁ ls₂, ls₁.map terminal = e ∧ ls₂.map terminal = e' ∧
      ls = ls₁ ++ .punctuation p :: ls₂ := by
  obtain ⟨ls₁, ls', rfl, he, h⟩ := List.map_eq_append_iff.1 h
  obtain ⟨ls₂, he', rfl⟩ := exists_punctuation h
  exact ⟨ls₁, ls₂, he, he', rfl⟩

theorem exists_append_rightParen (h : ls.map terminal = e ++ [.punctuation .rightParen]) :
    ∃ ls', ls'.map terminal = e ∧ ls = ls' ++ [.punctuation .rightParen] := by
  obtain ⟨ls', ls₂, he, hnil, rfl⟩ := exists_append_punctuation h
  obtain rfl := List.map_eq_nil_iff.1 hnil
  exact ⟨ls', he, rfl⟩

end Lexeme

/-- **Every phrase is a grouped tree.** -/
theorem Phrase.exists_grouped {e : List Terminal} (h : Phrase e) {ls : List (Lexeme T)}
    (hls : ls.map Lexeme.terminal = e) :
    ∃ t : Tree T, t.isGrouped = true ∧ t.lexemes = ls := by
  induction h generalizing ls with
  | number =>
    obtain ⟨l, rfl, hl⟩ := List.map_eq_singleton_iff.1 hls
    cases l with
    | number a literal => exact ⟨.num a literal, rfl, rfl⟩
    | punctuation | identifier | finish | invalid => cases hl
  | identifier =>
    obtain ⟨name, ls₁, h₁, rfl⟩ := Lexeme.exists_identifier hls
    obtain rfl := List.map_eq_nil_iff.1 h₁
    exact ⟨.var name, rfl, rfl⟩
  | sign s _ ih =>
    obtain ⟨ls₁, h₁, rfl⟩ := Lexeme.exists_punctuation hls
    obtain ⟨t, ht, rfl⟩ := ih h₁
    exact ⟨t.attach (.sign s), Tree.isGrouped_attach rfl ht, t.lexemes_attach _⟩
  | binary op _ _ ihl ihr =>
    obtain ⟨ls₁, ls₂, h₁, h₂, rfl⟩ := Lexeme.exists_append_punctuation hls
    obtain ⟨l, hl, rfl⟩ := ihl h₁
    obtain ⟨r, hr, rfl⟩ := ihr h₂
    exact ⟨Tree.join op r l, Tree.isGrouped_join op hr hl, Tree.lexemes_join op r l⟩
  | bracket _ ih =>
    obtain ⟨ls₁, h₁, rfl⟩ := Lexeme.exists_punctuation hls
    obtain ⟨ls₂, h₂, rfl⟩ := Lexeme.exists_append_rightParen h₁
    obtain ⟨t, ht, rfl⟩ := ih h₂
    exact ⟨.paren t, ht, rfl⟩
  | assign _ ih =>
    obtain ⟨name, ls₁, h₁, rfl⟩ := Lexeme.exists_identifier hls
    obtain ⟨ls₂, h₂, rfl⟩ := Lexeme.exists_punctuation h₁
    obtain ⟨t, ht, rfl⟩ := ih h₂
    exact ⟨.assign name t, ht, rfl⟩
  | call0 =>
    obtain ⟨name, ls₁, h₁, rfl⟩ := Lexeme.exists_identifier hls
    obtain ⟨ls₂, h₂, rfl⟩ := Lexeme.exists_punctuation h₁
    obtain ⟨ls₃, h₃, rfl⟩ := Lexeme.exists_punctuation h₂
    obtain rfl := List.map_eq_nil_iff.1 h₃
    exact ⟨.call0 name, rfl, rfl⟩
  | call1 _ ih =>
    obtain ⟨name, ls₁, h₁, rfl⟩ := Lexeme.exists_identifier hls
    obtain ⟨ls₂, h₂, rfl⟩ := Lexeme.exists_punctuation h₁
    obtain ⟨ls₃, h₃, rfl⟩ := Lexeme.exists_append_rightParen h₂
    obtain ⟨t, ht, rfl⟩ := ih h₃
    exact ⟨.call1 name t, ht, rfl⟩
  | call2 _ _ ihl ihr =>
    obtain ⟨name, ls₁, h₁, rfl⟩ := Lexeme.exists_identifier hls
    obtain ⟨ls₂, h₂, rfl⟩ := Lexeme.exists_punctuation h₁
    obtain ⟨ls₃, h₃, rfl⟩ := Lexeme.exists_append_rightParen h₂
    obtain ⟨ls₄, ls₅, h₄, h₅, rfl⟩ := Lexeme.exists_append_punctuation h₃
    obtain ⟨l, hl, rfl⟩ := ihl h₄
    obtain ⟨r, hr, rfl⟩ := ihr h₅
    refine ⟨.call2 name l r, ?_, rfl⟩
    rw [Tree.isGrouped, hl, hr]
    rfl

/-- **A text that has a value spells a grouped tree.** -/
theorem Setup.exists_tree_of_ok {setup : Setup σ T} (hplain : setup.type.PlainLiterals)
    {store : Store σ T} {a : T} (ha : (setup.run store).result = .ok a) :
    ∃ t : Tree T, t.isGrouped = true ∧ (∀ l ∈ t.lexemes, l.Plain setup.type) ∧
      (Cursor.start setup.input).Spells setup.type (t.lexemes ++ [.finish]) := by
  obtain ⟨read, hends, phrase⟩ := exists_ends_of_ok ha
  obtain ⟨t, ht, hforms⟩ := phrase.exists_grouped (List.map_map (l := read))
  refine ⟨t, ht, ?_, ?_⟩
  · rw [hforms]
    exact hends.plain
  · rw [hforms]
    exact hends.spells hplain

end Calculator
