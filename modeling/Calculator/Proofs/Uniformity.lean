import Calculator.Proofs.Range
import Mathlib.Data.Int.CardIntervalMod
import Mathlib.SetTheory.Cardinal.Finite

/-!
# Random integers are uniform

`Int64.randomBetween_uniform`: of the pairs of words that an integer between two bounds can be drawn
with, each integer has the same number, and the pairs that are left over are drawn again.

* `WordPair`: two words, which make up a 64-bit draw.
* `Drawing.Gives`, `Drawing.Redraws`: what becomes of a pair, whatever source it is drawn from.
* `Drawing.IsUniform`: the number of pairs for each value.
* `Drawing.IsUniform.exists_accepted`: the first pair that is not rejected gives the value.

Proof. Pairs are in bijection with the draws below `2 ^ 64`. The accepted draws are those below a
multiple of the number of values, and a value is the remainder of the draw. Below a multiple, each
remainder comes up equally often (`Nat.count_modEq_card`). The whole range has as many values as
there are draws, so that none is rejected.
-/

namespace Calculator

variable {σ : Type}

/-! ## Pairs of words -/

/-- Two words of 32 bits in the order in which they are drawn. -/
structure WordPair where
  high : Fin (2 ^ 32)
  low : Fin (2 ^ 32)

namespace WordPair

/-- The 64-bit draw that two words make up. -/
def value (u : WordPair) : Nat := u.high * 2 ^ 32 + u.low

theorem value_lt (u : WordPair) : u.value < 2 ^ 64 := by
  have hhigh := u.high.isLt
  have hlow := u.low.isLt
  rw [value]
  omega

theorem value_injective : Function.Injective value := by
  rintro ⟨high, low⟩ ⟨high', low'⟩ h
  simp only [value] at h
  have hhigh : high = high' := Fin.ext (by omega)
  have hlow : low = low' := Fin.ext (by omega)
  rw [hhigh, hlow]

theorem exists_value {d : Nat} (h : d < 2 ^ 64) : ∃ u : WordPair, u.value = d := by
  refine ⟨⟨⟨d / 2 ^ 32, by omega⟩, ⟨d % 2 ^ 32, by omega⟩⟩, ?_⟩
  simp only [value]
  omega

/-- There are as many pairs as draws. -/
theorem card_value (p : Nat → Prop) [DecidablePred p] {limit : Nat} (h : limit ≤ 2 ^ 64) :
    Nat.card {u : WordPair // u.value < limit ∧ p u.value} = Nat.count p limit := by
  let toDraw : {u : WordPair // u.value < limit ∧ p u.value} → {d // d < limit ∧ p d} :=
    fun u => ⟨u.1.value, u.2⟩
  have hbijective : Function.Bijective toDraw := by
    refine ⟨fun u u' heq => ?_, fun d => ?_⟩
    · exact Subtype.ext (value_injective (congrArg Subtype.val heq))
    · obtain ⟨u, hu⟩ := exists_value (Nat.lt_of_lt_of_le d.2.1 h)
      exact ⟨⟨u, hu ▸ d.2⟩, Subtype.ext hu⟩
  rw [Nat.card_eq_of_bijective toDraw hbijective, Nat.count_eq_card_fintype]
  exact @Nat.card_eq_fintype_card _ (Nat.CountSet.fintype p limit)

end WordPair

namespace Generator

variable {g : Generator σ} {s s' : σ} {u : WordPair}

/-- From the state on, the two words are drawn. -/
def DrawsPair (g : Generator σ) (s : σ) (u : WordPair) (s' : σ) : Prop :=
  ∃ middle, g.nextWord s = (.ok u.high, middle) ∧ g.nextWord middle = (.ok u.low, s')

/-- From the state on, the pairs are drawn one after the other. -/
def DrawsPairs (g : Generator σ) : σ → List WordPair → σ → Prop
  | s, [], s' => s = s'
  | s, u :: us, s' => ∃ next, g.DrawsPair s u next ∧ g.DrawsPairs next us s'

theorem bitOr_shift (high : Nat) {low : Nat} (h : low < 2 ^ 32) :
    bitOr ((high : Int) * 4294967296) low = ((high * 2 ^ 32 + low : Nat) : Int) := by
  have hshift : (high : Int) * (4294967296 : Int) = ((high <<< 32 : Nat) : Int) := by
    rw [Nat.shiftLeft_eq]
    omega
  rw [hshift, ← Nat.shiftLeft_eq, Nat.shiftLeft_add_eq_or_of_lt h]
  rfl

theorem DrawsPair.draw64 (h : g.DrawsPair s u s') : g.draw64 s = (.ok u.value, s') := by
  obtain ⟨middle, hhigh, hlow⟩ := h
  rw [Generator.draw64, hhigh]
  dsimp only
  rw [hlow]
  dsimp only
  rw [bitOr_shift _ u.low.isLt, WordPair.value]

theorem DrawsPair.drawBelow (h : g.DrawsPair s u s') (limit : Int) (tries : Nat) :
    g.drawBelow limit (tries + 1) s =
      if (u.value : Int) < limit then (.ok (u.value : Int), s')
      else g.drawBelow limit tries s' := by
  rw [Generator.drawBelow, h.draw64]

theorem drawBelow_patience (g : Generator σ) (n : Nat) (limit : Int) (tries : Nat) (s : σ) :
    { g with patience := n }.drawBelow limit tries s = g.drawBelow limit tries s := by
  induction tries generalizing s with
  | zero => rfl
  | succ tries ih =>
    have hdraw : { g with patience := n }.draw64 s = g.draw64 s := rfl
    rw [drawBelow, drawBelow, hdraw]
    rcases g.draw64 s with ⟨f | d, s'⟩
    · rfl
    · dsimp only
      rw [ih]

end Generator

/-- A generator that draws the pair again and again. Its state counts the words, and it bears with
no rejection. -/
def WordPair.repeated (u : WordPair) : Generator Nat where
  nextWord n := (.ok (if n % 2 = 0 then u.high else u.low), n + 1)
  nextUnit n := (0, n)
  patience := 0

theorem WordPair.drawsPair_repeated (u : WordPair) (n : Nat) :
    u.repeated.DrawsPair (2 * n) u (2 * n + 2) := by
  refine ⟨2 * n + 1, ?_, ?_⟩
  · simp [repeated]
  · simp [repeated]

/-! ## Drawing with a pair -/

/-- A way to draw an integer. -/
abbrev Drawing := ∀ σ : Type, Generator σ → σ → Except Fault Int × σ

namespace Drawing

variable {draw : Drawing} {u : WordPair} {v : Int}

/-- Wherever the pair comes next, the value is drawn with it. -/
def Gives (draw : Drawing) (u : WordPair) (v : Int) : Prop :=
  ∀ (σ : Type) (g : Generator σ) s s', g.DrawsPair s u s' → draw σ g s = (.ok v, s')

/-- Wherever the pair comes next, the drawing starts again behind it, with one rejection less to be
borne with. -/
def Redraws (draw : Drawing) (u : WordPair) : Prop :=
  ∀ (σ : Type) (g : Generator σ) s s', g.DrawsPair s u s' → ∀ n,
    draw σ { g with patience := n + 1 } s = draw σ { g with patience := n } s'

theorem Gives.unique {v' : Int} (h : draw.Gives u v) (h' : draw.Gives u v') : v' = v := by
  have hpair := u.drawsPair_repeated 0
  have heq := (h' _ _ _ _ hpair).symm.trans (h _ _ _ _ hpair)
  exact Except.ok.inj (Prod.mk.inj heq).1

/-- A pair is not both accepted and rejected: it would have to be drawn once and twice. -/
theorem Gives.not_redraws (h : draw.Gives u v) : ¬ draw.Redraws u := by
  intro hredraws
  have honce : draw Nat { u.repeated with patience := 1 } 0 = (.ok v, 2) :=
    h _ _ _ _ (u.drawsPair_repeated 0)
  have htwice : draw Nat { u.repeated with patience := 0 } 2 = (.ok v, 4) :=
    h _ _ _ _ (u.drawsPair_repeated 1)
  have heq := hredraws _ u.repeated 0 2 (u.drawsPair_repeated 0) 0
  rw [honce, htwice] at heq
  cases heq

/-- Each pair gives a value from `low` to `high`, the same number of pairs each value, or else is
rejected. -/
structure IsUniform (draw : Drawing) (low high : Int) : Prop where
  gives_or_redraws : ∀ u, (∃ v, (low ≤ v ∧ v ≤ high) ∧ draw.Gives u v) ∨ draw.Redraws u
  card_gives : ∀ v, low ≤ v → v ≤ high →
    (Nat.card {u // draw.Gives u v} : Int) = 2 ^ 64 / (high - low + 1)

/-- **The first accepted pair.** If a pair is accepted before too many are rejected, then the first
such pair gives the value. -/
theorem IsUniform.exists_accepted {low high : Int} (h : draw.IsUniform low high) {g : Generator σ}
    {s s' : σ} {pairs : List WordPair} (hpairs : g.DrawsPairs s pairs s') {n : Nat}
    (hlength : pairs.length ≤ n + 1) (haccepted : ∃ u ∈ pairs, ∃ v, draw.Gives u v) :
    ∃ rejected u rest v s'', pairs = rejected ++ u :: rest ∧ (∀ w ∈ rejected, draw.Redraws w) ∧
      draw.Gives u v ∧ (low ≤ v ∧ v ≤ high) ∧ g.DrawsPairs s (rejected ++ [u]) s'' ∧
      draw σ { g with patience := n } s = (.ok v, s'') := by
  induction pairs generalizing s n with
  | nil =>
    obtain ⟨u, hu, -⟩ := haccepted
    cases hu
  | cons u pairs ih =>
    obtain ⟨next, hu, hpairs⟩ := hpairs
    rcases h.gives_or_redraws u with ⟨v, hv, hgives⟩ | hredraws
    · exact ⟨[], u, pairs, v, next, rfl, List.forall_mem_nil _, hgives, hv, ⟨next, hu, rfl⟩,
        hgives _ _ s next hu⟩
    · have haccepted' : ∃ u ∈ pairs, ∃ v, draw.Gives u v := by
        obtain ⟨w, hw, v, hgives⟩ := haccepted
        rcases List.mem_cons.1 hw with rfl | hw
        · exact absurd hredraws hgives.not_redraws
        · exact ⟨w, hw, v, hgives⟩
      have hpos : 0 < pairs.length := List.length_pos_iff.2 fun hnil => by
        simp [hnil] at haccepted'
      rw [List.length_cons] at hlength
      obtain ⟨m, rfl⟩ : ∃ m, n = m + 1 := ⟨n - 1, by omega⟩
      obtain ⟨rejected, u', rest, v, s'', hsplit, hrejected, hgives, hv, hdrawn, hresult⟩ :=
        ih (n := m) hpairs (by omega) haccepted'
      refine ⟨u :: rejected, u', rest, v, s'', by rw [hsplit]; rfl,
        List.forall_mem_cons.2 ⟨hredraws, hrejected⟩, hgives, hv, ⟨next, hu, hdrawn⟩, ?_⟩
      rw [hredraws _ g s next hu m, hresult]

end Drawing

namespace Int64

variable {a b v : Int} {u : WordPair}

/-- The drawing of an integer between two bounds. -/
def between (a b : Int) : Drawing := fun _ g => randomBetween g a b

/-- The drawing of an integer from the whole range. -/
def whole : Drawing := fun _ => random

theorem randomBetween_comm (g : Generator σ) (a b : Int) (s : σ) :
    randomBetween g a b s = randomBetween g b a s := by
  rw [randomBetween, randomBetween, min_comm, max_comm]

/-! ### The whole range -/

theorem whole_gives (u : WordPair) : whole.Gives u (wrap u.value) := by
  intro σ g s s' hpair
  simp only [whole, random, hpair.draw64]
  rfl

/-- Each integer in range is drawn with one pair. -/
theorem existsUnique_whole_gives (hv : InRange v) : ∃! u, whole.Gives u v := by
  obtain ⟨u, hu⟩ := WordPair.exists_value (d := (v % 2 ^ 64).toNat) (by omega)
  have hvalue : wrap u.value = v := by
    have hclass : (u.value : Int) % 18446744073709551616 = v % 18446744073709551616 := by omega
    rw [wrap_congr hclass, wrap_of_inRange hv]
  refine ⟨u, hvalue ▸ whole_gives u, fun u' hu' => WordPair.value_injective ?_⟩
  have hvalue' : wrap u'.value = v := hu'.unique (whole_gives u')
  have hclass := wrap_emod u.value
  have hclass' := wrap_emod u'.value
  have hlt := u.value_lt
  have hlt' := u'.value_lt
  rw [hvalue] at hclass
  rw [hvalue'] at hclass'
  omega

/-! ### Between two bounds -/

/-- The number of values from one bound to the other. -/
def span (a b : Int) : Nat := (max a b - min a b + 1).toNat

/-- How many draws are shared out among the values. -/
def accepted (a b : Int) : Nat := span a b * (2 ^ 64 / span a b)

theorem span_pos (a b : Int) : 0 < span a b := by
  rw [span]
  omega

theorem natCast_span (a b : Int) : (span a b : Int) = max a b - min a b + 1 := by
  rw [span]
  omega

theorem drawLimit_span (a b : Int) : drawLimit (span a b) = accepted a b := by
  have hdiv := Int.mul_ediv_add_emod 18446744073709551616 (span a b)
  rw [drawLimit, count_eq, accepted]
  push_cast
  linarith

theorem between_eq_whole (h : span a b = 2 ^ 64) : between a b = whole := by
  funext σ g s
  have hspan : (count : Int) ≤ max a b - min a b + 1 := by
    rw [← natCast_span, h, count_eq]
    norm_num
  simp only [between, whole, randomBetween]
  rw [if_pos hspan]

theorem randomBetween_eq (h : span a b < 2 ^ 64) (g : Generator σ) (s : σ) :
    randomBetween g a b s =
      let (draw, s) := g.drawBelow (accepted a b) (g.patience + 1) s
      (draw.map fun d => min a b + d.tmod (span a b), s) := by
  have hspan : ¬ (count : Int) ≤ span a b := by
    rw [count_eq]
    omega
  rw [← drawLimit_span]
  simp only [randomBetween, ← natCast_span]
  rw [if_neg hspan]

theorem between_gives (h : span a b < 2 ^ 64) (hu : u.value < accepted a b) :
    (between a b).Gives u (min a b + (u.value % span a b : Nat)) := by
  intro σ g s s' hpair
  have hlimit : (u.value : Int) < accepted a b := by exact_mod_cast hu
  simp only [between]
  rw [randomBetween_eq h, hpair.drawBelow, if_pos hlimit, Int.ofNat_tmod]
  rfl

theorem between_redraws (h : span a b < 2 ^ 64) (hu : accepted a b ≤ u.value) :
    (between a b).Redraws u := by
  intro σ g s s' hpair n
  have hlimit : ¬ (u.value : Int) < accepted a b := by
    rw [Int.not_lt]
    exact_mod_cast hu
  simp only [between]
  rw [randomBetween_eq h, Generator.drawBelow_patience g (n + 1), hpair.drawBelow, if_neg hlimit,
    randomBetween_eq h, Generator.drawBelow_patience g n]

theorem between_gives_iff (h : span a b < 2 ^ 64) :
    (between a b).Gives u v ↔
      u.value < accepted a b ∧ v = min a b + (u.value % span a b : Nat) := by
  constructor
  · intro hgives
    by_cases hu : u.value < accepted a b
    · exact ⟨hu, (between_gives h hu).unique hgives⟩
    · exact absurd (between_redraws h (Nat.not_lt.1 hu)) hgives.not_redraws
  · rintro ⟨hu, rfl⟩
    exact between_gives h hu

/-- The accepted draws are shared out evenly. -/
theorem card_between_gives (h : span a b < 2 ^ 64) (hlow : min a b ≤ v) (hhigh : v ≤ max a b) :
    Nat.card {u // (between a b).Gives u v} = 2 ^ 64 / span a b := by
  have hspan := natCast_span a b
  obtain ⟨offset, rfl⟩ : ∃ offset : Nat, v = min a b + offset := ⟨(v - min a b).toNat, by omega⟩
  have hoffset : offset % span a b = offset := Nat.mod_eq_of_lt (by omega)
  -- A value is told by its offset from the lower bound, which is the remainder of the draw.
  have hgives : ∀ u : WordPair, (between a b).Gives u (min a b + offset) ↔
      u.value < accepted a b ∧ u.value ≡ offset [MOD span a b] := by
    intro u
    rw [between_gives_iff h, Nat.ModEq, hoffset]
    refine and_congr_right fun _ => ?_
    omega
  have hle : accepted a b ≤ 2 ^ 64 := Nat.mul_div_le _ _
  rw [Nat.card_congr (Equiv.subtypeEquivRight hgives),
    WordPair.card_value (· ≡ offset [MOD span a b]) hle, Nat.count_modEq_card _ (span_pos a b),
    accepted, Nat.mul_div_cancel_left _ (span_pos a b), Nat.mul_mod_right]
  simp

theorem whole_isUniform : whole.IsUniform (-2 ^ 63) (2 ^ 63 - 1) where
  gives_or_redraws u := by
    have hvalue := wrap_inRange u.value
    rw [InRange] at hvalue
    exact .inl ⟨_, by omega, whole_gives u⟩
  card_gives v hlow hhigh := by
    obtain ⟨u, hu, hunique⟩ := existsUnique_whole_gives (v := v) (by rw [InRange]; omega)
    have hcard : Nat.card {u // whole.Gives u v} = 1 :=
      Nat.card_eq_one_iff_exists.2 ⟨⟨u, hu⟩, fun u' => Subtype.ext (hunique u' u'.2)⟩
    rw [hcard]
    norm_num

theorem between_isUniform (ha : InRange a) (hb : InRange b) :
    (between a b).IsUniform (min a b) (max a b) := by
  have hspan := natCast_span a b
  rw [InRange] at ha hb
  by_cases hwhole : span a b = 2 ^ 64
  · have hlow : min a b = -2 ^ 63 := by omega
    have hhigh : max a b = 2 ^ 63 - 1 := by omega
    rw [between_eq_whole hwhole, hlow, hhigh]
    exact whole_isUniform
  have hlt : span a b < 2 ^ 64 := by omega
  refine ⟨fun u => ?_, fun v hlow hhigh => ?_⟩
  · by_cases hu : u.value < accepted a b
    · have hmod := Nat.mod_lt u.value (span_pos a b)
      exact .inl ⟨_, by omega, between_gives hlt hu⟩
    · exact .inr (between_redraws hlt (Nat.not_lt.1 hu))
  · rw [card_between_gives hlt hlow hhigh, ← hspan]
    push_cast
    rfl

/-- **Random integers are uniform.** Let the bounds be in range, in either order. All values from
the one to the other, and no others, are drawn with the same number of pairs of words, which is as
great as can be; the pairs left over are rejected, and the first pair that is not decides. From the
whole range each value is drawn with one pair. -/
theorem randomBetween_uniform (ha : InRange a) (hb : InRange b) :
    (between a b).IsUniform (min a b) (max a b) ∧
    (∀ (σ : Type) (g : Generator σ) s, randomBetween g a b s = randomBetween g b a s) ∧
    (∀ (σ : Type) (g : Generator σ) s s' pairs, g.DrawsPairs s pairs s' →
      pairs.length ≤ g.patience + 1 → (∃ u ∈ pairs, ∃ v, (between a b).Gives u v) →
      ∃ rejected u rest v s'', pairs = rejected ++ u :: rest ∧
        (∀ w ∈ rejected, (between a b).Redraws w) ∧ (between a b).Gives u v ∧
        (min a b ≤ v ∧ v ≤ max a b) ∧ g.DrawsPairs s (rejected ++ [u]) s'' ∧
        randomBetween g a b s = (.ok v, s'')) ∧
    (∀ (σ : Type) (g : Generator σ) s, g.DrawsWords s → ∀ v, (randomBetween g a b s).1 = .ok v →
      min a b ≤ v ∧ v ≤ max a b) ∧
    (max a b - min a b + 1 = 2 ^ 64 → ∀ v, InRange v → ∃! u, (between a b).Gives u v) ∧
    ∀ v, InRange v → ∃! u, whole.Gives u v := by
  have huniform := between_isUniform ha hb
  refine ⟨huniform, fun σ g s => randomBetween_comm g a b s,
    fun σ g s s' pairs hpairs hlength haccepted =>
      huniform.exists_accepted hpairs hlength haccepted,
    fun σ g s hs => (randomBetween_mem ha hb hs).1, fun hspan v hv => ?_,
    fun v hv => existsUnique_whole_gives hv⟩
  have hwhole : span a b = 2 ^ 64 := by
    rw [← natCast_span] at hspan
    exact_mod_cast hspan
  rw [between_eq_whole hwhole]
  exact existsUnique_whole_gives hv

/-- A third of the pairs gives the middle one of three values. -/
theorem randomBetween_uniform_three :
    (Nat.card {u // (between 2 0).Gives u 1} : Int) = 6148914691236517205 := by
  have huniform := (randomBetween_uniform (a := 2) (b := 0) (by decide) (by decide)).1
  rw [huniform.card_gives 1 (by decide) (by decide)]
  rfl

end Int64
end Calculator
