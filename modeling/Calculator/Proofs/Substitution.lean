import Calculator.Proofs.Context
import Calculator.Proofs.Frame
import Calculator.Proofs.Parentheses

/-!
# A name for a part of a text

`Setup.run_abbreviated`: where a text in parentheses stands inside of another one, a variable with
its value can stand instead.

* `Evaluation.Carries`: a computation repeats another one from a related store.
* `Evaluation.Respects`: what a relation has to stand of trees with the given words.
* `Tree.carries`, `Tree.Context.carries`: trees and contexts repeat themselves.
* `SymbolTable.Extends`: a table that has one more variable, or another value of it.
* `NumericType.Abbreviates`: when a name may stand for a text between two others.

Proof. The whole text spells a tree, in which the parentheses are around an operand
(`Tree.exists_context`), and the name in place of them leaves it grouped. The two trees are
evaluated side by side. In front of the hole, the stores differ in the variable only, and agree with
the first one on the names of the text in parentheses. So that text gives its value there as well,
and it changes nothing, as reading the variable does. Behind the hole the stores differ in the
variable only.
-/

namespace Calculator

variable {σ T : Type}

/-! ## Computations side by side -/

namespace Evaluation

variable {α β : Type} {P Q R : Store σ T → Store σ T → Prop}

/-- Where the first computation gives a value, so does the second one from a related store, and the
stores behind them are related. -/
def Carries (P Q : Store σ T → Store σ T → Prop) (x x' : Evaluation σ T α) : Prop :=
  ∀ s s' a s₁, P s s' → x s = (.ok a, s₁) → ∃ s₁', x' s' = (.ok a, s₁') ∧ Q s₁ s₁'

theorem Carries.bind {x x' : Evaluation σ T α} {f f' : α → Evaluation σ T β}
    (hx : Carries P Q x x') (hf : ∀ a, Carries Q R (f a) (f' a)) :
    Carries P R (x >>= f) (x' >>= f') := by
  intro s s' b s₂ hP h
  rcases hxs : x s with ⟨fault | a, s₁⟩
  · rw [bind_apply_of_error hxs] at h
    cases h
  · rw [bind_apply_of_ok hxs] at h
    obtain ⟨s₁', hx', hQ⟩ := hx s s' a s₁ hP hxs
    obtain ⟨s₂', hf', hR⟩ := hf a s₁ s₁' b s₂ hQ h
    exact ⟨s₂', by rw [bind_apply_of_ok hx', hf'], hR⟩

theorem carries_liftM (r : Except Fault α) :
    Carries P P (liftM r : Evaluation σ T α) (liftM r) := by
  intro s s' a s₁ hP h
  rw [liftM_apply] at h
  cases h
  exact ⟨s', liftM_apply _ s', hP⟩

/-- What trees with the given words do keeps the relation: it is kept by stores under their names,
by draws if they call `rand`, and their variables have the same values on both sides. -/
structure Respects (P : Store σ T → Store σ T → Prop) (ls : List (Lexeme T)) : Prop where
  read : ∀ name, .identifier name ∈ ls → ∀ s s', P s s' →
    s'.symbols.get? name = s.symbols.get? name
  store : ∀ name, [.identifier name, .punctuation .equals] <:+: ls → ∀ a s s', P s s' →
    P ⟨s.symbols.insert name a, s.source⟩ ⟨s'.symbols.insert name a, s'.source⟩
  draw : [.identifier randName, .punctuation .leftParen] <:+: ls → ∀ s s', P s s' →
    s'.source = s.source ∧ ∀ source, P ⟨s.symbols, source⟩ ⟨s'.symbols, source⟩

theorem Respects.mono {ls ls' : List (Lexeme T)} (h : Respects P ls) (hsub : ls' <:+: ls) :
    Respects P ls' where
  read name hmem := h.read name (hsub.subset hmem)
  store name hequals := h.store name (hequals.trans hsub)
  draw hcall := h.draw (hcall.trans hsub)

variable {ls : List (Lexeme T)}

theorem Respects.carries_resolve (h : Respects P ls) {name : Text}
    (hname : .identifier name ∈ ls) :
    Carries P P (resolve (.identifier name) : Evaluation σ T T) (resolve (.identifier name)) := by
  intro s s' a s₁ hP hread
  rw [resolve_identifier_apply] at hread ⊢
  obtain ⟨hvalue, rfl⟩ := Prod.mk.inj hread
  refine ⟨s', ?_, hP⟩
  rw [SymbolTable.read, h.read name hname s s' hP, ← hvalue]
  rfl

theorem Respects.carries_store (h : Respects P ls) {name : Text}
    (hname : [.identifier name, .punctuation .equals] <:+: ls) (a : T) :
    Carries P P (do Evaluation.store name a; return a : Evaluation σ T T)
      (do Evaluation.store name a; return a) := by
  intro s s' b s₁ hP hstore
  rw [store_apply] at hstore ⊢
  obtain ⟨hb, rfl⟩ := Prod.mk.inj hstore
  exact ⟨_, by rw [hb], h.store name hname a s s' hP⟩

/-- A call draws if it is one of `rand`, and otherwise it does not look at the source. -/
theorem Respects.carries_draw (h : Respects P ls) {name : Text}
    (hname : [.identifier name, .punctuation .leftParen] <:+: ls)
    {x : σ → Except Fault T × σ} (hx : name ≠ randName → ∀ s s', x s' = ((x s).1, s')) :
    Carries P P (Evaluation.draw x : Evaluation σ T T) (Evaluation.draw x) := by
  intro s s' a s₁ hP hdraw
  rw [draw_apply] at hdraw ⊢
  obtain ⟨ha, rfl⟩ := Prod.mk.inj hdraw
  by_cases hrand : name = randName
  · subst hrand
    obtain ⟨hsource, hP'⟩ := h.draw hname s s' hP
    rw [hsource]
    exact ⟨_, by rw [ha], hP' _⟩
  · rw [hx hrand s.source s'.source, hx hrand s.source s.source]
    exact ⟨_, by rw [ha], hP⟩

end Evaluation

namespace Tree

open Evaluation

variable {P Q : Store σ T → Store σ T → Prop} {type : NumericType σ T} {g : Generator σ}

/-- A tree that keeps a relation repeats itself from a related store. -/
theorem carries {t : Tree T} (h : Respects P t.lexemes) :
    Carries P P (t.evaluate type g) (t.evaluate type g) := by
  induction t with
  | num a literal => exact carries_liftM (.ok a)
  | var name => exact h.carries_resolve List.mem_cons_self
  | paren t ih => exact ih (h.mono ⟨[.punctuation .leftParen], [.punctuation .rightParen], rfl⟩)
  | sign s t ih =>
    exact (ih (h.mono ⟨[.punctuation s.punctuation], [], by simp [lexemes]⟩)).bind
      fun a => carries_liftM _
  | bin op l r ihl ihr =>
    refine (ihl (h.mono ⟨[], .punctuation op.punctuation :: r.lexemes, rfl⟩)).bind fun a => ?_
    exact (ihr (h.mono ⟨l.lexemes ++ [.punctuation op.punctuation], [], by simp [lexemes]⟩)).bind
      fun b => carries_liftM _
  | assign name t ih =>
    refine (ih (h.mono ⟨[.identifier name, .punctuation .equals], [], by simp [lexemes]⟩)).bind
      fun a => h.carries_store ⟨[], t.lexemes, rfl⟩ a
  | call0 name =>
    exact h.carries_draw ⟨[], [.punctuation .rightParen], rfl⟩ (type.call0_of_ne g)
  | call1 name t ih =>
    exact (ih (h.mono ⟨[.identifier name, .punctuation .leftParen], [.punctuation .rightParen],
      rfl⟩)).bind fun a => carries_liftM _
  | call2 name l r ihl ihr =>
    have hleft : l.lexemes <:+: (call2 name l r).lexemes :=
      ⟨[.identifier name, .punctuation .leftParen],
        .punctuation .comma :: r.lexemes ++ [.punctuation .rightParen], by simp [lexemes]⟩
    have hright : r.lexemes <:+: (call2 name l r).lexemes :=
      ⟨.identifier name :: .punctuation .leftParen :: l.lexemes ++ [.punctuation .comma],
        [.punctuation .rightParen], by simp [lexemes]⟩
    have hname : [.identifier name, .punctuation .leftParen] <:+: (call2 name l r).lexemes :=
      ⟨[], l.lexemes ++ .punctuation .comma :: r.lexemes ++ [.punctuation .rightParen],
        by simp [lexemes]⟩
    exact (ihl (h.mono hleft)).bind fun a => (ihr (h.mono hright)).bind fun b =>
      h.carries_draw hname fun hne => type.call2_of_ne g hne a b

namespace Context

/-- A context repeats itself around computations that lead from one relation to another. In front
of the hole it keeps the first relation, and behind it the second one. An assignment or a call
around the hole takes place behind it. -/
theorem carries (c : Context T) {t t' : Tree T} (hbefore : Respects P c.before)
    (hbefore' : Respects Q c.before) (hafter : Respects Q c.after)
    (hhole : Carries P Q (t.evaluate type g) (t'.evaluate type g)) :
    Carries P Q ((c.fill t).evaluate type g) ((c.fill t').evaluate type g) := by
  induction c with
  | hole => exact hhole
  | paren c ih =>
    have hfront : c.before <:+: (paren c).before := ⟨[.punctuation .leftParen], [], by simp [before]⟩
    exact ih (hbefore.mono hfront) (hbefore'.mono hfront)
      (hafter.mono ⟨[], [.punctuation .rightParen], rfl⟩)
  | sign s c ih =>
    have hfront : c.before <:+: (sign s c).before :=
      ⟨[.punctuation s.punctuation], [], by simp [before]⟩
    exact (ih (hbefore.mono hfront) (hbefore'.mono hfront) hafter).bind fun a => carries_liftM _
  | binLeft op c r ih =>
    have hleft : c.after <:+: (binLeft op c r).after :=
      ⟨[], .punctuation op.punctuation :: r.lexemes, rfl⟩
    have hright : r.lexemes <:+: (binLeft op c r).after :=
      ⟨c.after ++ [.punctuation op.punctuation], [], by simp [after]⟩
    exact (ih hbefore hbefore' (hafter.mono hleft)).bind fun a =>
      (Tree.carries (hafter.mono hright)).bind fun b => carries_liftM _
  | binRight op l c ih =>
    have hleft : l.lexemes <:+: (binRight op l c).before :=
      ⟨[], .punctuation op.punctuation :: c.before, rfl⟩
    have hright : c.before <:+: (binRight op l c).before :=
      ⟨l.lexemes ++ [.punctuation op.punctuation], [], by simp [before]⟩
    exact (Tree.carries (hbefore.mono hleft)).bind fun a =>
      (ih (hbefore.mono hright) (hbefore'.mono hright) hafter).bind fun b => carries_liftM _
  | assign name c ih =>
    have hfront : c.before <:+: (assign name c).before :=
      ⟨[.identifier name, .punctuation .equals], [], by simp [before]⟩
    exact (ih (hbefore.mono hfront) (hbefore'.mono hfront) hafter).bind fun a =>
      hbefore'.carries_store ⟨[], c.before, rfl⟩ a
  | call1 name c ih =>
    have hfront : c.before <:+: (call1 name c).before :=
      ⟨[.identifier name, .punctuation .leftParen], [], by simp [before]⟩
    exact (ih (hbefore.mono hfront) (hbefore'.mono hfront)
      (hafter.mono ⟨[], [.punctuation .rightParen], rfl⟩)).bind fun a => carries_liftM _
  | call2Left name c r ih =>
    have hfront : c.before <:+: (call2Left name c r).before :=
      ⟨[.identifier name, .punctuation .leftParen], [], by simp [before]⟩
    have hleft : c.after <:+: (call2Left name c r).after :=
      ⟨[], .punctuation .comma :: r.lexemes ++ [.punctuation .rightParen], by simp [after]⟩
    have hright : r.lexemes <:+: (call2Left name c r).after :=
      ⟨c.after ++ [.punctuation .comma], [.punctuation .rightParen], by simp [after]⟩
    exact (ih (hbefore.mono hfront) (hbefore'.mono hfront) (hafter.mono hleft)).bind fun a =>
      (Tree.carries (hafter.mono hright)).bind fun b =>
        hbefore'.carries_draw ⟨[], c.before, rfl⟩ fun hne => type.call2_of_ne g hne a b
  | call2Right name l c ih =>
    have hleft : l.lexemes <:+: (call2Right name l c).before :=
      ⟨[.identifier name, .punctuation .leftParen], .punctuation .comma :: c.before,
        by simp [before]⟩
    have hright : c.before <:+: (call2Right name l c).before :=
      ⟨.identifier name :: .punctuation .leftParen :: l.lexemes ++ [.punctuation .comma], [],
        by simp [before]⟩
    have hname : [.identifier name, .punctuation .leftParen] <:+: (call2Right name l c).before :=
      ⟨[], l.lexemes ++ .punctuation .comma :: c.before, by simp [before]⟩
    exact (Tree.carries (hbefore.mono hleft)).bind fun a =>
      (ih (hbefore.mono hright) (hbefore'.mono hright)
        (hafter.mono ⟨[], [.punctuation .rightParen], rfl⟩)).bind fun b =>
        hbefore'.carries_draw hname fun hne => type.call2_of_ne g hne a b

end Context

end Tree

/-! ## One more variable -/

namespace SymbolTable

/-- The second table is the first one with a variable of the given value in addition, or in place of
its value there. -/
structure Extends (name : Text) (a : T) (t t' : SymbolTable T) : Prop where
  value : t'.get? name = some a
  others : t'.erase name = t.erase name

theorem extends_insert (name : Text) (a : T) (t : SymbolTable T) :
    Extends name a t (t.insert name a) where
  value := by rw [get?_insert, if_pos rfl]
  others := t.erase_insert_self name a

namespace Extends

variable {name other : Text} {a : T} {t t' : SymbolTable T}

theorem get?_of_ne (h : Extends name a t t') (hne : other ≠ name) :
    t'.get? other = t.get? other := by
  have hget := congrArg (get? · other) h.others
  simpa only [get?_erase, if_neg hne.symm] using hget

theorem insert (h : Extends name a t t') (hne : other ≠ name) (b : T) :
    Extends name a (t.insert other b) (t'.insert other b) where
  value := by rw [get?_insert, if_neg hne, h.value]
  others := by rw [erase_insert_of_ne t' hne, erase_insert_of_ne t hne, h.others]

end Extends

end SymbolTable

/-- The stores differ in one variable only, which has the given value in the second one. -/
structure Store.Extends (name : Text) (a : T) (s s' : Store σ T) : Prop where
  symbols : SymbolTable.Extends name a s.symbols s'.symbols
  source : s'.source = s.source

namespace Evaluation

variable {x : Text} {a : T} {ls : List (Lexeme T)} {names : List Text} {store : Store σ T}

/-- Trees without the variable keep the difference. -/
theorem respects_extends (hx : .identifier x ∉ ls) :
    Respects (Store.Extends (σ := σ) x a) ls where
  read _ hmem _ _ h := h.symbols.get?_of_ne fun heq => hx (heq ▸ hmem)
  store _ hequals b _ _ h :=
    ⟨h.symbols.insert (fun heq => hx (heq ▸ hequals.subset List.mem_cons_self)) b, h.source⟩
  draw _ _ _ h := ⟨h.source, fun _ => ⟨h.symbols, rfl⟩⟩

/-- The stores differ in one variable only, and the names have the values that they had at first. -/
def Prepared (x : Text) (a : T) (names : List Text) (store s s' : Store σ T) : Prop :=
  Store.Extends x a s s' ∧ SymbolTable.AgreeOn names store.symbols s.symbols

/-- Trees that store under none of the names keep their values as well. -/
theorem respects_prepared (hx : .identifier x ∉ ls)
    (hnames : ∀ y ∈ names, ¬ [.identifier y, .punctuation .equals] <:+: ls) :
    Respects (Prepared x a names store) ls where
  read y hmem s s' h := (respects_extends hx).read y hmem s s' h.1
  store y hequals b s s' h := by
    refine ⟨(respects_extends hx).store y hequals b s s' h.1, fun z hz => ?_⟩
    have hne : y ≠ z := fun heq => hnames z hz (heq ▸ hequals)
    rw [SymbolTable.get?_insert, if_neg hne]
    exact h.2 z hz
  draw _ _ _ h := ⟨h.1.source, fun _ => ⟨⟨h.1.symbols, rfl⟩, h.2⟩⟩

end Evaluation

namespace Tree

variable {type : NumericType σ T} {g : Generator σ} {u : Tree T} {x : Text} {a : T}
  {names : List Text} {store : Store σ T}

/-- A tree that stores and draws nothing has the same value wherever its variables have the same
values, and changes nothing. -/
theorem evaluate_of_agree (hread : ∀ y, .identifier y ∈ u.lexemes → y ∈ names)
    (hstore : .punctuation .equals ∉ u.lexemes)
    (hdraw : ¬ [.identifier randName, .punctuation .leftParen] <:+: u.lexemes)
    (ha : (u.evaluate type g store).1 = .ok a) {s : Store σ T}
    (hagree : SymbolTable.AgreeOn names store.symbols s.symbols) :
    u.evaluate type g s = (.ok a, s) := by
  have hrespects : Evaluation.Respects (fun s₁ s₂ => s₁ = store ∧ s₂ = s) u.lexemes := by
    refine ⟨?_, fun y hequals => ?_, fun hcall => absurd hcall hdraw⟩
    · rintro y hy _ _ ⟨rfl, rfl⟩
      exact hagree y (hread y hy)
    · exact absurd (hequals.subset (List.mem_cons_of_mem _ List.mem_cons_self)) hstore
  obtain ⟨s', hs', -, rfl⟩ := carries hrespects store s a _ ⟨rfl, rfl⟩ (Prod.ext ha rfl)
  exact hs'

/-- In place of such a tree, a variable with its value can be read. -/
theorem carries_var (hread : ∀ y, .identifier y ∈ u.lexemes → y ∈ names)
    (hstore : .punctuation .equals ∉ u.lexemes)
    (hdraw : ¬ [.identifier randName, .punctuation .leftParen] <:+: u.lexemes)
    (ha : (u.evaluate type g store).1 = .ok a) :
    Evaluation.Carries (Evaluation.Prepared x a names store) (Store.Extends x a)
      ((paren u).evaluate type g) ((var x).evaluate type g) := by
  rintro s s' b s₁ ⟨hextends, hagree⟩ hu
  rw [evaluate, evaluate_of_agree hread hstore hdraw ha hagree] at hu
  cases hu
  refine ⟨s', ?_, hextends⟩
  rw [evaluate, Evaluation.resolve_identifier_apply, SymbolTable.read, hextends.symbols.value]

end Tree

/-! ## Names among the tokens -/

namespace Token

variable {ts : List (Token T)} {name : Text} {l : Lexeme T}

/-- The names of all identifiers. -/
def names (ts : List (Token T)) : List Text := (uses ts).map (·.1)

theorem mem_names (h : .identifier name ∈ ts.map lexeme) (last : Token T) :
    name ∈ names (ts ++ [last]) := by
  obtain ⟨⟨_, position⟩, ht, rfl⟩ := List.mem_map.1 h
  obtain ⟨before, after, rfl⟩ := List.append_of_mem ht
  have huse := mem_uses before (after ++ [last]) name position
  rw [List.append_assoc]
  exact List.mem_map.2 ⟨_, huse, rfl⟩

/-- A word behind an identifier tells its use. -/
theorem mem_uses_of_infix (h : [.identifier name, l] <:+: ts.map lexeme) (last : Token T) :
    (name, some l.terminal) ∈ uses (ts ++ [last]) := by
  obtain ⟨_, _, h⟩ := h
  obtain ⟨ts₁, after, rfl, hfront, -⟩ := List.map_eq_append_iff.1 h.symm
  obtain ⟨before, ts₂, rfl, -, hpair⟩ := List.map_eq_append_iff.1 hfront
  obtain ⟨⟨_, position⟩, ts₃, rfl, rfl, hsecond⟩ := List.map_eq_cons_iff.1 hpair
  obtain ⟨t, rfl, rfl⟩ := List.map_eq_singleton_iff.1 hsecond
  have huse := mem_uses before (t :: (after ++ [last])) name position
  simpa [terminal] using huse

end Token

namespace NumericType.Written

variable {type : NumericType σ T} {ls : List (Lexeme T)} {input name : Text}

theorem mem_names (h : type.Written ls input) (hplain : type.PlainLiterals)
    (hname : .identifier name ∈ ls) : name ∈ Token.names (tokenize type input).tokens := by
  obtain ⟨ts, p, htokens, rfl⟩ := h.exists_tokenize hplain
  rw [htokens]
  exact Token.mem_names hname _

theorem mem_uses (h : type.Written ls input) (hplain : type.PlainLiterals) {l : Lexeme T}
    (hpair : [.identifier name, l] <:+: ls) :
    (name, some l.terminal) ∈ Token.uses (tokenize type input).tokens := by
  obtain ⟨ts, p, htokens, rfl⟩ := h.exists_tokenize hplain
  rw [htokens]
  exact Token.mem_uses_of_infix hpair _

theorem mem_assignedNames (h : type.Written ls input) (hplain : type.PlainLiterals)
    (hname : [.identifier name, .punctuation .equals] <:+: ls) :
    name ∈ Token.assignedNames (tokenize type input).tokens :=
  List.mem_map.2 ⟨_, List.mem_filter.2 ⟨h.mem_uses hplain hname, decide_eq_true rfl⟩, rfl⟩

theorem mem_calledNames (h : type.Written ls input) (hplain : type.PlainLiterals)
    (hname : [.identifier name, .punctuation .leftParen] <:+: ls) :
    name ∈ Token.calledNames (tokenize type input).tokens :=
  List.mem_map.2 ⟨_, List.mem_filter.2 ⟨h.mem_uses hplain hname, decide_eq_true rfl⟩, rfl⟩

theorem exists_token (h : type.Written ls input) (hplain : type.PlainLiterals) {l : Lexeme T}
    (hl : l ∈ ls) : ∃ t ∈ (tokenize type input).tokens, t.lexeme = l := by
  obtain ⟨ts, p, htokens, rfl⟩ := h.exists_tokenize hplain
  obtain ⟨t, ht, rfl⟩ := List.mem_map.1 hl
  exact ⟨t, by rw [htokens]; exact List.mem_append_left _ ht, rfl⟩

theorem lastUnnamed (h : type.Written ls input) (hplain : type.PlainLiterals)
    (hlast : ∀ t ∈ (tokenize type input).tokens.dropLast.getLast?, t.terminal ≠ .identifier) :
    Lexeme.LastUnnamed ls := by
  obtain ⟨ts, p, htokens, rfl⟩ := h.exists_tokenize hplain
  rintro name ⟨init, hinit⟩
  obtain ⟨ts₁, ts₂, rfl, -, hname⟩ := List.map_eq_append_iff.1 hinit.symm
  obtain ⟨t, rfl, ht⟩ := List.map_eq_singleton_iff.1 hname
  refine hlast t ?_ (congrArg Lexeme.terminal ht)
  rw [htokens, List.dropLast_concat, List.getLast?_concat]
  rfl

end NumericType.Written

/-! ## Texts -/

namespace NumericType

variable {type : NumericType σ T} {x left inner right : Text}

/-- The name may stand for the inner text between the two others. -/
structure Abbreviates (type : NumericType σ T) (x left inner right : Text) : Prop where
  isIdentifier : x.isIdentifier = true
  newline : ∀ t ∈ [left, inner, right], Text.newline ∉ t
  fresh : ∀ t ∈ [left, inner, right], x ∉ Token.names (tokenize type t).tokens
  /-- The inner text stores nothing. -/
  stores : ∀ t ∈ (tokenize type inner).tokens, t.terminal ≠ .punctuation .equals
  /-- It draws nothing. -/
  draws : randName ∉ Token.calledNames (tokenize type inner).tokens
  /-- Nothing is stored under its names in front of it. -/
  keeps : ∀ y ∈ Token.names (tokenize type inner).tokens,
    y ∉ Token.assignedNames (tokenize type left).tokens
  /-- The word in front of it is no identifier, whose call it would be an argument of. -/
  last : ∀ t ∈ (tokenize type left).tokens.dropLast.getLast?, t.terminal ≠ .identifier

/-- The name between the two texts, with blanks around it. -/
theorem Written.abbreviated {before after : List (Lexeme T)} (hleft : type.Written before left)
    (hright : type.Written after right) (hplain : type.PlainLiterals)
    (hx : x.isIdentifier = true) :
    type.Written (before ++ .identifier x :: after)
      (left ++ Text.ofString " " ++ x ++ Text.ofString " " ++ right) := by
  have hblank : (Text.ofString " ").all Text.isBlank = true := rfl
  have hne : x ≠ [] := by
    rintro rfl
    cases hx
  have hname : type.Written (.identifier x :: after)
      (Text.ofString " " ++ x ++ (Text.ofString " " ++ right)) := by
    refine .cons hblank (.identifier hx) (fun u hu => ?_) (hright.blanks_append hblank)
    obtain rfl : (32 : CodeUnit) = u := Option.some.inj hu
    exact hplain.families_append_blank hne rfl
  have hall := hleft.append hname (fun u hu t ht => ?_) hplain
  · simpa using hall
  · obtain rfl : (32 : CodeUnit) = u := Option.some.inj hu
    exact hplain.families_append_blank ht rfl

/-- The parentheses are around an operand, and the two texts are written around them. -/
theorem Abbreviates.exists_context (h : type.Abbreviates x left inner right)
    (hplain : type.PlainLiterals) (hopen : type.Delimits Punctuation.leftParen.unit)
    (hclose : type.Delimits Punctuation.rightParen.unit) {t part : Tree T}
    (ht : type.Written t.lexemes (left ++ inner.parenthesized ++ right))
    (hpart : type.Written part.lexemes inner) :
    ∃ (c : Tree.Context T) (u : Tree T), t = c.fill (.paren u) ∧ type.Written c.before left ∧
      type.Written u.lexemes inner ∧ type.Written c.after right := by
  have htext : left ++ inner.parenthesized ++ right = left ++ Punctuation.leftParen.unit ::
      (inner ++ Punctuation.rightParen.unit :: right) := by
    simp [Text.parenthesized]
  rw [htext] at ht
  obtain ⟨before, rest, hlexemes, hleft, hrest⟩ := ht.exists_split hplain hopen
  obtain ⟨words, after, rfl, hinner, hright⟩ := hrest.exists_split hplain hclose
  obtain rfl : words = part.lexemes := hinner.unique hpart hplain
  obtain ⟨c, u, rfl, rfl, hu, rfl⟩ :=
    t.exists_context part.closed (hleft.lastUnnamed hplain h.last) hlexemes
  exact ⟨c, u, rfl, hleft, hu ▸ hinner, hright⟩

/-- The name repeats what the text in parentheses does, up to the end of the whole text. -/
theorem Abbreviates.carries (h : type.Abbreviates x left inner right)
    (hplain : type.PlainLiterals) {c : Tree.Context T} {u : Tree T} {g : Generator σ}
    (hleft : type.Written c.before left) (hinner : type.Written u.lexemes inner)
    (hright : type.Written c.after right) {store : Store σ T} {v : T}
    (hv : (u.evaluate type g store).1 = .ok v) :
    Evaluation.Carries
      (Evaluation.Prepared x v (Token.names (tokenize type inner).tokens) store)
      (Store.Extends x v) ((c.fill (.paren u)).evaluate type g)
      ((c.fill (.var x)).evaluate type g) := by
  have hbefore : .identifier x ∉ c.before := fun hx =>
    h.fresh left (by simp) (hleft.mem_names hplain hx)
  have hafter : .identifier x ∉ c.after := fun hx =>
    h.fresh right (by simp) (hright.mem_names hplain hx)
  have hkeeps : ∀ y ∈ Token.names (tokenize type inner).tokens,
      ¬ [.identifier y, .punctuation .equals] <:+: c.before := fun y hy hequals =>
    h.keeps y hy (hleft.mem_assignedNames hplain hequals)
  have hstores : .punctuation .equals ∉ u.lexemes := fun hequals => by
    obtain ⟨t, ht, hlexeme⟩ := hinner.exists_token hplain hequals
    exact h.stores t ht (congrArg Lexeme.terminal hlexeme)
  have hdraws : ¬ [.identifier randName, .punctuation .leftParen] <:+: u.lexemes := fun hcall =>
    h.draws (hinner.mem_calledNames hplain hcall)
  exact c.carries (Evaluation.respects_prepared hbefore hkeeps)
    (Evaluation.respects_extends hbefore) (Evaluation.respects_extends hafter)
    (Tree.carries_var (fun _ => hinner.mem_names hplain) hstores hdraws hv)

end NumericType

namespace Setup

/-- **A name for a part of a text.** Floats and integers have literals of the kind that is asked
for, and none of their words goes on with a parenthesis. Suppose that a text has a value, and that
another text which holds it in parentheses has a value too. Then the other text has the same value
with a name in place of the parentheses, if a variable of the name has the value of the part at the
start. It draws alike, and it leaves the same variables in the same order, and the name with its
value. -/
theorem run_abbreviated :
    ((float64 : NumericType σ Float).PlainLiterals ∧
      (float64 : NumericType σ Float).Delimits Punctuation.leftParen.unit ∧
      (float64 : NumericType σ Float).Delimits Punctuation.rightParen.unit) ∧
    ((int64 : NumericType σ Int).PlainLiterals ∧
      (int64 : NumericType σ Int).Delimits Punctuation.leftParen.unit ∧
      (int64 : NumericType σ Int).Delimits Punctuation.rightParen.unit) ∧
    ∀ (type : NumericType σ T) (g : Generator σ), type.PlainLiterals →
      type.Delimits Punctuation.leftParen.unit → type.Delimits Punctuation.rightParen.unit →
      ∀ x left inner right : Text, type.Abbreviates x left inner right →
      ∀ (store : Store σ T) (v w : T),
        let space := Text.ofString " "
        let whole := Setup.run ⟨type, g, left ++ inner.parenthesized ++ right⟩ store
        let short := Setup.run ⟨type, g, left ++ space ++ x ++ space ++ right⟩
          ⟨store.symbols.insert x v, store.source⟩
        (Setup.run ⟨type, g, inner⟩ store).result = .ok v → whole.result = .ok w →
          short.result = .ok w ∧ whole.store.Extends x v short.store ∧ short.warnings = [] := by
  refine ⟨⟨float64_plainLiterals, float64_delimits rfl, float64_delimits rfl⟩,
    ⟨int64_plainLiterals, int64_delimits rfl rfl, int64_delimits rfl rfl⟩, ?_⟩
  intro type g hplain hopen hclose x left inner right h store v w space whole short hv hw
  have hnewline : Text.newline ∉ left ++ inner.parenthesized ++ right := by
    have hinner := Text.newline_notMem_parenthesized (h.newline inner (by simp))
    simp only [List.mem_append, not_or]
    exact ⟨⟨h.newline left (by simp), hinner⟩, h.newline right (by simp)⟩
  obtain ⟨t, ht, hwhole, hvalueWhole⟩ := exists_evaluate_of_ok ⟨type, g, _⟩ hplain hnewline hw
  obtain ⟨part, -, hpart⟩ :=
    exists_written_of_ok ⟨type, g, inner⟩ hplain (h.newline inner (by simp)) hv
  obtain ⟨c, u, rfl, hleft, hinner, hright⟩ := h.exists_context hplain hopen hclose hwhole hpart
  have hparen : (Tree.paren u).isGrouped = true := c.isGrouped_of_fill ht
  have hu : u.isGrouped = true := hparen
  have hvalue : (u.evaluate type g store).1 = .ok v := by
    rw [← hv, run_of_written ⟨type, g, inner⟩ hplain hu hinner]
  have hfill : (c.fill (.var x)).isGrouped = (c.fill (.paren u)).isGrouped :=
    c.isGrouped_fill rfl rfl hparen.symm
  have hshort : type.Written (c.fill (.var x)).lexemes (left ++ space ++ x ++ space ++ right) := by
    rw [c.lexemes_fill, List.append_assoc]
    exact hleft.abbreviated hright hplain h.isIdentifier
  have hrun : short = _ := run_of_written ⟨type, g, _⟩ hplain (hfill.trans ht) hshort _
  obtain ⟨s', hs', hextends⟩ := h.carries hplain hleft hinner hright hvalue store
    ⟨store.symbols.insert x v, store.source⟩ w _
    ⟨⟨SymbolTable.extends_insert x v store.symbols, rfl⟩, fun _ _ => rfl⟩ hvalueWhole
  rw [hrun, hs']
  exact ⟨rfl, hextends, rfl⟩

/-- A sum has a name in a text that assigns and draws. -/
theorem run_abbreviated_sum :
    let generator : Generator (List Int) :=
      { nextWord := fun drawn => (.ok drawn.length, drawn ++ [(drawn.length : Int)])
        nextUnit := fun drawn => (0, drawn)
        patience := 0 }
    let run (input : Text) := Setup.run ⟨int64, generator, input⟩
    let left := Text.ofString "y = 2 * "
    let inner := Text.ofString "a + 3"
    let right := Text.ofString " ^ 2 - rand()"
    let x := Text.ofString "b"
    let symbols : SymbolTable Int := SymbolTable.empty.insert (Text.ofString "a") 4
    let whole := run (left ++ inner.parenthesized ++ right) ⟨symbols, []⟩
    let short := run (left ++ Text.ofString " " ++ x ++ Text.ofString " " ++ right)
      ⟨symbols.insert x 7, []⟩
    (whole.result = .ok 97 ∧ whole.store.source = [0, 1]) ∧
      short.result = .ok 97 ∧ whole.store.Extends x 7 short.store := by
  intro generator run left inner right x symbols whole short
  have habbreviates : (int64 : NumericType (List Int) Int).Abbreviates x left inner right :=
    ⟨by decide, by decide, by decide, by decide, by decide, by decide, by decide⟩
  have hinner : (run inner ⟨symbols, []⟩).result = .ok 7 :=
    of_descend (fun o => o.result = .ok 7) 20 (by decide) (by decide +kernel)
  have hwhole : whole.result = .ok 97 ∧ whole.store.source = [0, 1] :=
    of_descend (fun o => o.result = .ok 97 ∧ o.store.source = [0, 1]) 70 (by decide)
      (by decide +kernel)
  obtain ⟨hshort, hextends, -⟩ := run_abbreviated.2.2 int64 generator int64_plainLiterals
    (int64_delimits rfl rfl) (int64_delimits rfl rfl) x left inner right habbreviates
    ⟨symbols, []⟩ 7 97 hinner hwhole.1
  exact ⟨hwhole, hshort, hextends⟩

end Setup

end Calculator
