import Calculator.Proofs.Frame
import Calculator.Proofs.Parentheses
import Calculator.Proofs.TwosComplement
import Mathlib.Data.List.Infix

/-!
# Signs in front of integer products

`Setup.run_signed_product`: a sign takes the whole product behind it. Over integers, that makes a
difference only where the least value is negated on the way.

* `ProductOp`, `Link`: the operators of a product, and what a product goes on with.
* `Factor`: texts that stand for an operand of a product, with their values.
* `IsProduct`: a grouped tree of such operators for a text, with its value.
* `Link.product_neg`: negation can be moved out of a product.

Proof. Products are grouped to the left, so the tree of a product grows by one operator and its
right operand at a time (`IsProduct.link`), and an induction on what the product goes on with gives
its value (`IsProduct.chain`). All operators in it bind tighter than a sign. That negation can be
moved out is another induction: truncation toward zero is odd, and so is wrapping in but one place.
-/

namespace Calculator

variable {σ : Type}

/-! ## Products -/

/-- The operators of a product. -/
inductive ProductOp
  | mul | div | rem
  deriving DecidableEq, Repr

namespace ProductOp

/-- The operator as it is written. -/
def binaryOp : ProductOp → BinaryOp
  | mul => .mul
  | div => .div
  | rem => .rem

/-- The operator on 64-bit integers. -/
def value : ProductOp → Int → Int → Int
  | mul, a, b => Int64.wrap (a * b)
  | div, a, b => Int64.wrap (a.tdiv b)
  | rem, a, b => a.tmod b

/-- The integer may be on the right of the operator. -/
def Admits (op : ProductOp) (b : Int) : Prop := op = mul ∨ b ≠ 0

theorem apply_eq {op : ProductOp} {b : Int} (h : op.Admits b) (a : Int) :
    (int64 : NumericType σ Int).apply op.binaryOp a b = .ok (op.value a b) := by
  cases op with
  | mul => rfl
  | div => exact Int64.divide_of_ne_zero (h.resolve_left nofun)
  | rem => exact Int64.remainder_of_ne_zero (h.resolve_left nofun)

theorem value_inRange {op : ProductOp} {a b : Int} (h : op.Admits b) (hb : Int64.InRange b) :
    Int64.InRange (op.value a b) :=
  Int64.apply_inRange (σ := Unit) hb (apply_eq h a)

/-- In a product no operator is taken away from the one in front, and none from a sign. -/
theorem bindsTighter_eq_false (op op' : ProductOp) :
    op.binaryOp.bindsTighter (.binary op'.binaryOp) = false := by
  cases op <;> cases op' <;> rfl

theorem bindsTighter_sign (op : ProductOp) : op.binaryOp.bindsTighter .sign = true := by
  cases op <;> rfl

theorem delimits (op : ProductOp) :
    (int64 : NumericType σ Int).Delimits op.binaryOp.punctuation.unit := by
  cases op <;> exact int64_delimits rfl rfl

end ProductOp

/-- An operator with the text and the value of its right operand. -/
structure Link where
  op : ProductOp
  text : Text
  value : Int
  deriving DecidableEq, Repr

namespace Link

/-- The operators and operands one after the other. -/
def written (links : List Link) : Text :=
  links.flatMap fun link => link.op.binaryOp.punctuation.unit :: link.text

/-- The value of a product that starts with the given one, from left to right. -/
def product (a : Int) (links : List Link) : Int :=
  links.foldl (fun v link => link.op.value v link.value) a

end Link

/-! ## Factors -/

/-- Texts that stand for an operand of a product and change nothing: literals, variables with a
value in range, and expressions in parentheses that have a value in range and leave the variables
and the source as they were, as all do that neither assign nor draw (`Setup.store_run_of_pure`). A
line feed would end the expression. There may be blanks around. -/
inductive Factor (g : Generator σ) (store : Store σ Int) : Text → Int → Prop
  | literal {text : Text} {n : Int} : Int64.isLiteral text = true →
    Int64.parseLiteral text = .ok n → Factor g store text n
  | var {name : Text} {n : Int} : name.isIdentifier = true → store.symbols.get? name = some n →
    Int64.InRange n → Factor g store name n
  | group {input : Text} {n : Int} : Text.newline ∉ input →
    ((Setup.mk int64 g input).run store).result = .ok n →
    ((Setup.mk int64 g input).run store).store = store → Int64.InRange n →
    Factor g store input.parenthesized n
  | spaced {before text after : Text} {n : Int} : before.all Text.isBlank = true →
    after.all Text.isBlank = true → Factor g store text n →
    Factor g store (before ++ text ++ after) n

/-- A grouped tree with the text and the value, made of operands and the operators of a product. -/
structure IsProduct (g : Generator σ) (store : Store σ Int) (t : Tree Int) (text : Text)
    (v : Int) : Prop where
  isGrouped : t.isGrouped = true
  left : ∀ q ∈ t.leftSpine, ∃ op : ProductOp, q = op.binaryOp
  right : ∀ q ∈ t.rightSpine, ∃ op : ProductOp, q = some (.binary op.binaryOp)
  written : (int64 : NumericType σ Int).Written t.lexemes text
  evaluate : t.evaluate int64 g store = (.ok v, store)

/-- A tree without operators at its edges is a product by itself. -/
theorem IsProduct.of_edges {g : Generator σ} {store : Store σ Int} {t : Tree Int} {text : Text}
    {v : Int} (isGrouped : t.isGrouped = true) (left : t.leftSpine = []) (right : t.rightSpine = [])
    (written : (int64 : NumericType σ Int).Written t.lexemes text)
    (evaluate : t.evaluate int64 g store = (.ok v, store)) : IsProduct g store t text v where
  isGrouped := isGrouped
  left _ hq := absurd (left ▸ hq) List.not_mem_nil
  right _ hq := absurd (right ▸ hq) List.not_mem_nil
  written := written
  evaluate := evaluate

namespace Factor

variable {g : Generator σ} {store : Store σ Int} {text : Text} {n : Int}

theorem inRange (h : Factor g store text n) : Int64.InRange n := by
  induction h with
  | literal hliteral hparse => exact Int64.parseLiteral_inRange hliteral hparse
  | var _ _ hrange => exact hrange
  | group _ _ _ hrange => exact hrange
  | spaced _ _ _ ih => exact ih

/-- A factor has a tree without operators at its edges. -/
theorem exists_tree (h : Factor g store text n) :
    ∃ t : Tree Int, IsProduct g store t text n ∧ t.leftSpine = [] := by
  induction h with
  | @literal text n hliteral hparse =>
    exact ⟨.num n text, .of_edges rfl rfl rfl (.word (.number hliteral hparse)) rfl, rfl⟩
  | @var name n hname hget =>
    refine ⟨.var name, .of_edges rfl rfl rfl (.word (.identifier hname)) ?_, rfl⟩
    rw [Tree.evaluate, Evaluation.resolve_identifier_apply, SymbolTable.read, hget]
  | @group input n hnewline hvalue hstore =>
    let setup : Setup σ Int := ⟨int64, g, input⟩
    obtain ⟨t, ht, hinput, hevaluate⟩ :=
      setup.exists_evaluate_of_ok int64_plainLiterals hnewline hvalue
    rw [hstore] at hevaluate
    exact ⟨.paren t, .of_edges ht rfl rfl (hinput.parenthesized int64_plainLiterals
      (int64_delimits rfl rfl)) hevaluate, rfl⟩
  | spaced hbefore hafter _ ih =>
    obtain ⟨t, ht, hleft⟩ := ih
    exact ⟨t, { ht with
      written := (ht.written.blanks_append hbefore).append_blanks int64_plainLiterals hafter },
      hleft⟩

end Factor

/-! ## Trees of products -/

namespace IsProduct

variable {g : Generator σ} {store : Store σ Int} {t r : Tree Int} {text text' : Text} {v b : Int}

/-- A product goes on with an operator and an operand. -/
theorem link (h : IsProduct g store t text v) {op : ProductOp} (hr : IsProduct g store r text' b)
    (hleft : r.leftSpine = []) (hop : op.Admits b) :
    IsProduct g store (.bin op.binaryOp t r)
      (text ++ op.binaryOp.punctuation.unit :: text') (op.value v b) where
  isGrouped := by
    have hright : t.rightSpine.all (fun q => !q.all op.binaryOp.bindsTighter) = true := by
      refine List.all_eq_true.2 fun q hq => ?_
      obtain ⟨op', rfl⟩ := h.right q hq
      rw [Option.all_some, op.bindsTighter_eq_false op']
      rfl
    rw [Tree.isGrouped, hright, hleft, h.isGrouped, hr.isGrouped]
    rfl
  left := by
    rw [Tree.leftSpine, List.forall_mem_cons]
    exact ⟨⟨op, rfl⟩, h.left⟩
  right := by
    rw [Tree.rightSpine, List.forall_mem_cons]
    exact ⟨⟨op, rfl⟩, hr.right⟩
  written := by
    refine h.written.append (hr.written.punctuation int64_plainLiterals _) (fun u hu => ?_)
      int64_plainLiterals
    obtain rfl : op.binaryOp.punctuation.unit = u := Option.some.inj hu
    exact op.delimits
  evaluate := by
    rw [Tree.evaluate, Evaluation.bind_apply_of_ok h.evaluate,
      Evaluation.bind_apply_of_ok hr.evaluate, Evaluation.liftM_apply, ProductOp.apply_eq hop]

/-- A product goes on with factors. -/
theorem chain (h : IsProduct g store t text v) {links : List Link}
    (hlinks : ∀ link ∈ links, Factor g store link.text link.value ∧ link.op.Admits link.value) :
    ∃ t', IsProduct g store t' (text ++ Link.written links) (Link.product v links) := by
  induction links generalizing t text v with
  | nil => exact ⟨t, by simpa [Link.written, Link.product] using h⟩
  | cons link links ih =>
    obtain ⟨⟨hfactor, hop⟩, hlinks⟩ := List.forall_mem_cons.1 hlinks
    obtain ⟨r, hr, hleft⟩ := hfactor.exists_tree
    obtain ⟨t', ht'⟩ := ih (h.link hr hleft hop) hlinks
    rw [List.append_assoc] at ht'
    exact ⟨t', ht'⟩

/-! A sign takes the whole product behind it. -/

theorem isGrouped_sign (h : IsProduct g store t text v) (s : Sign) :
    (Tree.sign s t).isGrouped = true := by
  have hleft : t.leftSpine.all (·.bindsTighter .sign) = true := by
    refine List.all_eq_true.2 fun q hq => ?_
    obtain ⟨op, rfl⟩ := h.left q hq
    exact op.bindsTighter_sign
  rw [Tree.isGrouped, hleft, h.isGrouped]
  rfl

theorem evaluate_negated (h : IsProduct g store t text v) :
    (Tree.sign .minus t).evaluate int64 g store = (.ok (Int64.wrap (-v)), store) := by
  rw [Tree.evaluate, Evaluation.bind_apply_of_ok h.evaluate, Evaluation.liftM_apply]
  rfl

theorem written_sign (h : IsProduct g store t text v) (s : Sign) :
    (int64 : NumericType σ Int).Written (Tree.sign s t).lexemes (s.punctuation.unit :: text) :=
  h.written.punctuation int64_plainLiterals s.punctuation

/-- A product with a minus in front, in parentheses. -/
theorem paren_negated (h : IsProduct g store t text v) :
    IsProduct g store (.paren (.sign .minus t))
      (Text.parenthesized (Sign.minus.punctuation.unit :: text)) (Int64.wrap (-v)) :=
  .of_edges (h.isGrouped_sign .minus) rfl rfl
    ((h.written_sign .minus).parenthesized int64_plainLiterals (int64_delimits rfl rfl))
    h.evaluate_negated

end IsProduct

/-! ## Negation -/

theorem Int64.wrap_neg_wrap (n : Int) : wrap (-wrap n) = wrap (-n) := wrap_congr (wrap_modEq n).neg

/-- An operator commutes with negation, unless the least value is negated. -/
theorem ProductOp.value_neg {op : ProductOp} {a b : Int} (ha : Int64.InRange a)
    (hleast : a ≠ -2 ^ 63) (h : op.Admits b) (hb : Int64.InRange b) :
    op.value (Int64.wrap (-a)) b = Int64.wrap (-op.value a b) := by
  have hneg : Int64.wrap (-a) = -a := by
    refine Int64.wrap_of_inRange ?_
    rw [Int64.InRange] at *
    omega
  rw [hneg]
  cases op with
  | mul => rw [value, value, Int64.wrap_neg_wrap, Int.neg_mul]
  | div => rw [value, value, Int64.wrap_neg_wrap, Int.neg_tdiv]
  | rem =>
    -- A remainder is not wrapped, so that its opposite has to be in range.
    have hrange : Int64.InRange ((-a).tmod b) := value_inRange h hb
    rw [value, value, ← Int.neg_tmod, Int64.wrap_of_inRange hrange]

/-- Negation can be moved out of a product in which the least value comes up at the end at most. -/
theorem Link.product_neg {a : Int} (ha : Int64.InRange a) {links : List Link}
    (hlinks : ∀ link ∈ links, Int64.InRange link.value ∧ link.op.Admits link.value)
    (hleast : ∀ init, init <+: links → init ≠ links → product a init ≠ -2 ^ 63) :
    product (Int64.wrap (-a)) links = Int64.wrap (-product a links) := by
  induction links generalizing a with
  | nil => rfl
  | cons link links ih =>
    obtain ⟨⟨hrange, hop⟩, hlinks⟩ := List.forall_mem_cons.1 hlinks
    have hfirst : link.op.value (Int64.wrap (-a)) link.value
        = Int64.wrap (-link.op.value a link.value) :=
      ProductOp.value_neg ha (hleast [] List.nil_prefix (List.cons_ne_nil link links).symm) hop
        hrange
    have hrest : ∀ init, init <+: links → init ≠ links →
        product (link.op.value a link.value) init ≠ -2 ^ 63 := fun init hinit hne =>
      hleast (link :: init) (List.cons_prefix_cons.2 ⟨rfl, hinit⟩) fun heq =>
        hne (List.cons.inj heq).2
    calc
      product (Int64.wrap (-a)) (link :: links)
        = product (Int64.wrap (-link.op.value a link.value)) links := by
          rw [← hfirst]
          rfl
      _ = Int64.wrap (-product (link.op.value a link.value) links) :=
        ih (ProductOp.value_inRange hop hrange) hlinks hrest

/-! ## Signed products -/

namespace Setup

/-- A text with neither an equals sign nor a call of `rand` changes nothing. -/
theorem store_run_of_pure {T : Type} (setup : Setup σ T) (store : Store σ T)
    (hequals : ∀ t ∈ (tokenize setup.type setup.input).tokens, t.terminal ≠ .punctuation .equals)
    (hrand : randName ∉ Token.calledNames (tokenize setup.type setup.input).tokens) :
    (setup.run store).store = store := by
  obtain ⟨hsymbols, hsource⟩ := store_run setup store
  have hnil : setup.stores store = [] := by
    refine List.eq_nil_iff_forall_not_mem.2 fun p hp => ?_
    have hoccur := stores_occur setup store (List.mem_map.2 ⟨p, hp, rfl⟩)
    rw [Token.assignedNames_eq_nil hequals] at hoccur
    cases hoccur
  rw [hnil] at hsymbols
  exact congrArg₂ Store.mk hsymbols (hsource hrand)

/-- **A sign takes the whole product behind it.** A text that consists of a minus and a product of
factors has the negated value of the product, and changes nothing. Where the minus and the first
factor stand in parentheses, the outcome is the same, unless the least value comes up as the value
of the first factor or of what follows it up to some operator but the last. -/
theorem run_signed_product (g : Generator σ) (store : Store σ Int) {first : Text} {a : Int}
    (hfirst : Factor g store first a) {links : List Link}
    (hlinks : ∀ link ∈ links, Factor g store link.text link.value ∧ link.op.Admits link.value) :
    let type : NumericType σ Int := int64
    let minus := Sign.minus.punctuation.unit
    let signed : Setup σ Int := ⟨type, g, minus :: first ++ Link.written links⟩
    let parenthesized : Setup σ Int :=
      ⟨type, g, Text.parenthesized (minus :: first) ++ Link.written links⟩
    signed.run store = ⟨type.negate (Link.product a links), store, []⟩ ∧
    ((∀ init, init <+: links → init ≠ links → Link.product a init ≠ -2 ^ 63) →
      parenthesized.run store = signed.run store) := by
  intro type minus signed parenthesized
  obtain ⟨t, ht, -⟩ := hfirst.exists_tree
  obtain ⟨t₁, ht₁⟩ := ht.chain hlinks
  have hsigned : signed.run store = ⟨type.negate (Link.product a links), store, []⟩ := by
    rw [signed.run_of_written int64_plainLiterals (ht₁.isGrouped_sign .minus)
      (ht₁.written_sign .minus) store, ht₁.evaluate_negated]
    rfl
  refine ⟨hsigned, fun hleast => ?_⟩
  obtain ⟨t₂, ht₂⟩ := ht.paren_negated.chain hlinks
  have hneg : Link.product (Int64.wrap (-a)) links = Int64.wrap (-Link.product a links) :=
    Link.product_neg hfirst.inRange (fun link hlink => ⟨(hlinks link hlink).1.inRange,
      (hlinks link hlink).2⟩) hleast
  rw [parenthesized.run_of_written int64_plainLiterals ht₂.isGrouped ht₂.written store,
    ht₂.evaluate, hneg, hsigned]
  rfl

/-- A variable, an expression in parentheses and two literals. -/
theorem run_signed_product_mixed :
    let setup (input : String) : Setup RandomSource Int :=
      ⟨int64, RandomSource.generator, Text.ofString input⟩
    let store : Store RandomSource Int := ⟨.ofList [(Text.ofString "x", -7)], .seeded 1⟩
    (setup "-x* (1 + 2) / 2 % 4").run store = ⟨.ok 2, store, []⟩ ∧
      (setup "(-x)* (1 + 2) / 2 % 4").run store = ⟨.ok 2, store, []⟩ := by
  intro setup store
  have hx : Factor RandomSource.generator store (Text.ofString "x") (-7) :=
    .var rfl (by decide) (by decide)
  have hsum : Factor RandomSource.generator store (Text.ofString " (1 + 2) ") 3 := by
    have hvalue : ((setup "1 + 2").run store).result = .ok 3 :=
      of_descend (fun o => o.result = .ok 3) 12 (by decide) (by decide +kernel)
    have hstore : ((setup "1 + 2").run store).store = store :=
      store_run_of_pure _ _ (by decide +kernel) (by decide +kernel)
    have hgroup := Factor.group (by decide) hvalue hstore (by decide)
    exact @Factor.spaced _ _ _ [32] _ [32] _ rfl rfl hgroup
  have htwo : Factor RandomSource.generator store (Text.ofString " 2 ") 2 :=
    @Factor.spaced _ _ _ [32] (Text.ofString "2") [32] _ rfl rfl (.literal rfl rfl)
  have hfour : Factor RandomSource.generator store (Text.ofString " 4") 4 :=
    @Factor.spaced _ _ _ [32] (Text.ofString "4") [] _ rfl rfl (.literal rfl rfl)
  let links : List Link :=
    [⟨.mul, Text.ofString " (1 + 2) ", 3⟩, ⟨.div, Text.ofString " 2 ", 2⟩,
      ⟨.rem, Text.ofString " 4", 4⟩]
  have hlinks : ∀ link ∈ links, Factor RandomSource.generator store link.text link.value ∧
      link.op.Admits link.value := by
    simp only [links, List.forall_mem_cons]
    exact ⟨⟨hsum, .inl rfl⟩, ⟨htwo, .inr (by decide)⟩, ⟨hfour, .inr (by decide)⟩,
      List.forall_mem_nil _⟩
  have hleast : ∀ init ∈ links.inits, init ≠ links → Link.product (-7) init ≠ -2 ^ 63 := by decide
  obtain ⟨hsigned, hparenthesized⟩ :=
    run_signed_product RandomSource.generator store hx hlinks
  have hmem : ∀ init, init <+: links → init ∈ links.inits := fun init =>
    (List.mem_inits init links).2
  exact ⟨hsigned, (hparenthesized fun init hinit => hleast init (hmem init hinit)).trans hsigned⟩

end Setup

end Calculator
