import Calculator.Proofs.Uniformity

/-!
# Rejection ends early

`Int64.randomBetween_ends_early`: the first draw below the limit decides, and the limit is more than
half of the range of a draw.

* `Generator.wordsLater`, `Generator.Supplies`: the words that a source draws from a state on.
* `WordPair.nth`: the words two by two.
* `Generator.drawBelow_of_first`, `Generator.drawBelow_of_none`: what comes of the draws below a
  limit, with what is drawn for it.
* `Int64.lt_accepted`: the bound of the limit.
* `Int64.randomBetween_of_first`, `Int64.randomBetween_of_none`: what comes of it for integers.

Proof. The limit is the greatest multiple of the number of values up to `2 ^ 64`. If there are at
most `2 ^ 63` values, then less than that is left over above the limit. If there are more, then the
limit is their number itself. A draw whose high word is below `2 ^ 31` is below `2 ^ 63`, whatever
its low word is.
-/

namespace Calculator

variable {σ : Type}

/-! ## The words of a source -/

namespace Generator

variable {g : Generator σ} {s : σ} {words : ℕ → Fin (2 ^ 32)}

/-- The state when some more words have been drawn. -/
def wordsLater (g : Generator σ) (n : ℕ) (s : σ) : σ := (fun s => (g.nextWord s).2)^[n] s

/-- From the state on, these are the words that are drawn. -/
def Supplies (g : Generator σ) (s : σ) (words : ℕ → Fin (2 ^ 32)) : Prop :=
  ∀ n, (g.nextWord (g.wordsLater n s)).1 = .ok (words n : Int)

theorem wordsLater_add (g : Generator σ) (m n : ℕ) (s : σ) :
    g.wordsLater (m + n) s = g.wordsLater m (g.wordsLater n s) :=
  Function.iterate_add_apply _ m n s

theorem Supplies.later (h : g.Supplies s words) (m : ℕ) :
    g.Supplies (g.wordsLater m s) fun n => words (n + m) := by
  intro n
  rw [← wordsLater_add]
  exact h (n + m)

end Generator

/-- The words two by two, counted from zero. -/
def WordPair.nth (words : ℕ → Fin (2 ^ 32)) (k : ℕ) : WordPair :=
  ⟨words (2 * k), words (2 * k + 1)⟩

/-- A low high word makes a low draw. -/
theorem WordPair.value_lt_of_high {u : WordPair} (h : (u.high : ℕ) < 2 ^ 31) :
    u.value < 2 ^ 63 := by
  have hlow := u.low.isLt
  rw [value]
  omega

/-! ## Drawing again and again -/

namespace Generator

variable {g : Generator σ} {s : σ} {words : ℕ → Fin (2 ^ 32)} {limit : ℕ}

theorem Supplies.drawsPair (h : g.Supplies s words) :
    g.DrawsPair s (WordPair.nth words 0) (g.wordsLater 2 s) :=
  ⟨g.wordsLater 1 s, Prod.ext (h 0) rfl, Prod.ext (h 1) rfl⟩

/-- One round of the loop. -/
theorem Supplies.drawBelow (h : g.Supplies s words) (limit tries : ℕ) :
    g.drawBelow limit (tries + 1) s =
      if (WordPair.nth words 0).value < limit then
        (.ok ((WordPair.nth words 0).value : Int), g.wordsLater 2 s)
      else g.drawBelow limit tries (g.wordsLater 2 s) := by
  rw [h.drawsPair.drawBelow]
  exact if_congr Nat.cast_lt rfl rfl

/-- **The first draw below the limit decides.** Two words are drawn for it, and two for each draw
before. -/
theorem drawBelow_of_first (h : g.Supplies s words) {k : ℕ}
    (hbefore : ∀ j < k, limit ≤ (WordPair.nth words j).value)
    (hk : (WordPair.nth words k).value < limit) {tries : ℕ} (htries : k < tries) :
    g.drawBelow limit tries s =
      (.ok ((WordPair.nth words k).value : Int), g.wordsLater (2 * (k + 1)) s) := by
  induction k generalizing s words tries with
  | zero =>
    obtain ⟨tries, rfl⟩ : ∃ n, tries = n + 1 := ⟨tries - 1, by omega⟩
    rw [h.drawBelow, if_pos hk]
  | succ k ih =>
    obtain ⟨tries, rfl⟩ : ∃ n, tries = n + 1 := ⟨tries - 1, by omega⟩
    rw [h.drawBelow, if_neg (Nat.not_lt.2 (hbefore 0 (Nat.succ_pos k))),
      ih (h.later 2) (fun j hj => hbefore (j + 1) (by omega)) hk (by omega), ← wordsLater_add]
    rfl

/-- As long as no draw is below the limit, the loop goes on and draws two words each time. -/
theorem drawBelow_of_none (h : g.Supplies s words) {tries : ℕ}
    (hnone : ∀ j < tries, limit ≤ (WordPair.nth words j).value) :
    g.drawBelow limit tries s = (.error .starved, g.wordsLater (2 * tries) s) := by
  induction tries generalizing s words with
  | zero => rfl
  | succ tries ih =>
    rw [h.drawBelow, if_neg (Nat.not_lt.2 (hnone 0 (Nat.succ_pos tries))),
      ih (h.later 2) (fun j hj => hnone (j + 1) (by omega)), ← wordsLater_add]
    rfl

end Generator

/-! ## The limit -/

/-- The draw with that number is the first one below the limit. -/
def FirstBelow (limit : Int) (words : ℕ → Fin (2 ^ 32)) (k : ℕ) : Prop :=
  (∀ j < k, limit ≤ (WordPair.nth words j).value) ∧ (WordPair.nth words k).value < limit

/-- If any draw is below the limit, then one up to it is the first. -/
theorem FirstBelow.exists_le {limit : Int} {words : ℕ → Fin (2 ^ 32)} {k : ℕ}
    (h : (WordPair.nth words k).value < limit) : ∃ j ≤ k, FirstBelow limit words j := by
  classical
  have hex : ∃ j, ((WordPair.nth words j).value : Int) < limit := ⟨k, h⟩
  exact ⟨Nat.find hex, Nat.find_min' hex h,
    fun j hj => Int.not_lt.1 (Nat.find_min hex hj), Nat.find_spec hex⟩

theorem WordPair.card_value_lt {limit : ℕ} (h : limit ≤ 2 ^ 64) :
    Nat.card {u : WordPair // u.value < limit} = limit := by
  have hcard := card_value (fun _ => True) h
  simpa using hcard

theorem WordPair.card_eq : Nat.card WordPair = 2 ^ 64 := by
  rw [← card_value_lt le_rfl, Nat.card_congr (Equiv.subtypeUnivEquiv value_lt)]

namespace Int64

variable {a b : Int}

theorem natCast_span_abs (a b : Int) : (span a b : Int) = |b - a| + 1 := by
  rw [natCast_span, max_sub_min_eq_abs]

/-- More than half of the range of a draw is below the limit. -/
theorem lt_accepted (h : span a b < 2 ^ 64) : 2 ^ 63 < accepted a b := by
  have hsum : accepted a b + 2 ^ 64 % span a b = 2 ^ 64 := Nat.div_add_mod _ _
  by_cases hhalf : span a b ≤ 2 ^ 63
  · have hrest : 2 ^ 64 % span a b < span a b := Nat.mod_lt _ (span_pos a b)
    have hnone : span a b = 2 ^ 63 → 2 ^ 64 % span a b = 0 := fun heq => by rw [heq]; rfl
    omega
  · -- Above the half, the multiple is a single one.
    have hone : 2 ^ 64 / span a b = 1 := Nat.div_eq_of_lt_le (by omega) (by omega)
    rw [accepted, hone]
    omega

theorem randomBetween_patience (h : span a b < 2 ^ 64) (g : Generator σ) (n : ℕ) (s : σ) :
    randomBetween { g with patience := n } a b s =
      let (draw, s) := g.drawBelow (accepted a b) (n + 1) s
      (draw.map fun d => min a b + d.tmod (span a b), s) := by
  rw [randomBetween_eq h]
  dsimp only
  rw [Generator.drawBelow_patience]

/-- The first draw below the limit gives the value, with two words for each draw up to it. -/
theorem randomBetween_of_first {g : Generator σ} {s : σ} {words : ℕ → Fin (2 ^ 32)}
    (h : span a b < 2 ^ 64) (hwords : g.Supplies s words) {k n : ℕ}
    (hfirst : FirstBelow (accepted a b) words k) (hn : k ≤ n) :
    randomBetween { g with patience := n } a b s =
      (.ok (min a b + (WordPair.nth words k).value % (span a b)),
        g.wordsLater (2 * (k + 1)) s) := by
  obtain ⟨hbefore, hk⟩ := hfirst
  have hdraw := Generator.drawBelow_of_first hwords
    (fun j hj => Int.ofNat_le.1 (hbefore j hj)) (Int.ofNat_lt.1 hk) (Nat.lt_succ_of_le hn)
  rw [randomBetween_patience h, hdraw]
  dsimp only [Except.map]
  rw [Int.tmod_eq_emod_of_nonneg (Int.natCast_nonneg _)]

/-- The loop goes on for as long as no draw is below the limit. -/
theorem randomBetween_of_none {g : Generator σ} {s : σ} {words : ℕ → Fin (2 ^ 32)}
    (h : span a b < 2 ^ 64) (hwords : g.Supplies s words) {n : ℕ}
    (hnone : ∀ j ≤ n, (accepted a b : Int) ≤ (WordPair.nth words j).value) :
    randomBetween { g with patience := n } a b s =
      (.error .starved, g.wordsLater (2 * (n + 1)) s) := by
  have hdraw : g.drawBelow (accepted a b) (n + 1) s = _ := Generator.drawBelow_of_none hwords
    fun j hj => Int.ofNat_le.1 (hnone j (Nat.le_of_lt_succ hj))
  rw [randomBetween_patience h, hdraw]
  rfl

/-- **Rejection ends early.** Let the bounds, in either order, not span the full range. Then the
limit is a positive multiple of the number of values, and more than half of all draws are below it.
From a source of 32-bit words, a draw takes two words, the high one first. The first draw below the
limit gives the value, and no further word is drawn; the loop does not end before. So it ends with
the first draw whose high word is below `2 ^ 31`, if not before. -/
theorem randomBetween_ends_early (h : |b - a| + 1 < 2 ^ 64) :
    let span := |b - a| + 1
    let limit := drawLimit span
    (∃ multiple > 0, limit = multiple * span) ∧ 2 ^ 63 < limit ∧
    Nat.card WordPair < 2 * Nat.card {u : WordPair // u.value < limit} ∧
    ∀ (σ : Type) (g : Generator σ) s words, g.Supplies s words →
      (∀ k, FirstBelow limit words k → ∀ n ≥ k,
        randomBetween { g with patience := n } a b s =
          (.ok (min a b + (WordPair.nth words k).value % span), g.wordsLater (2 * (k + 1)) s)) ∧
      (∀ n, (∀ j ≤ n, limit ≤ (WordPair.nth words j).value) →
        randomBetween { g with patience := n } a b s =
          (.error .starved, g.wordsLater (2 * (n + 1)) s)) ∧
      ∀ k, (words (2 * k) : ℕ) < 2 ^ 31 → ∃ j ≤ k, FirstBelow limit words j := by
  rw [← natCast_span_abs] at h ⊢
  have hlt : span a b < 2 ^ 64 := by exact_mod_cast h
  have hhalf := lt_accepted hlt
  intro values limit
  have hlimit : limit = accepted a b := drawLimit_span a b
  have hvalues : values = span a b := rfl
  clear_value limit values
  subst hlimit hvalues
  refine ⟨⟨2 ^ 64 / span a b, ?_, ?_⟩, by exact_mod_cast hhalf, ?_, ?_⟩
  · exact_mod_cast Nat.div_pos hlt.le (span_pos a b)
  · exact_mod_cast Nat.mul_comm (span a b) (2 ^ 64 / span a b)
  · have hle : accepted a b ≤ 2 ^ 64 := Nat.mul_div_le _ _
    simp only [Nat.cast_lt]
    rw [WordPair.card_eq, WordPair.card_value_lt hle]
    omega
  · intro σ g s words hwords
    refine ⟨fun k hfirst n hn => randomBetween_of_first hlt hwords hfirst hn,
      fun n hnone => randomBetween_of_none hlt hwords hnone, fun k hk => ?_⟩
    have hvalue : (WordPair.nth words k).value < 2 ^ 63 := WordPair.value_lt_of_high hk
    exact FirstBelow.exists_le (by omega)

/-- One value more than half of all integers, and a source whose first draw is too high: four words
are drawn. -/
theorem randomBetween_ends_early_second :
    let generator : Generator ℕ :=
      { nextWord := fun n => (.ok (if n < 2 then 4294967295 else 5), n + 1)
        nextUnit := fun n => (0, n)
        patience := 1 }
    randomBetween generator 9223372036854775807 (-1) 0 = (.ok 21474836484, 4) := by
  intro generator
  let words : ℕ → Fin (2 ^ 32) := fun n => if n < 2 then 4294967295 else 5
  have hlater : ∀ n, generator.wordsLater n 0 = n := fun n => by
    rw [Generator.wordsLater, Nat.succ_iterate, Nat.zero_add]
  have hwords : generator.Supplies 0 words := by
    intro n
    rw [hlater]
    refine congrArg Except.ok ?_
    show (if n < 2 then (4294967295 : Int) else 5) = ((words n : ℕ) : Int)
    dsimp only [words]
    split <;> rfl
  obtain ⟨-, -, -, hdraws⟩ :=
    @randomBetween_ends_early 9223372036854775807 (-1) (by decide)
  obtain ⟨hfirst, -, -⟩ := hdraws ℕ generator 0 words hwords
  have hsecond : FirstBelow (drawLimit (|-1 - 9223372036854775807| + 1)) words 1 := by
    refine ⟨fun j hj => ?_, by decide⟩
    obtain rfl : j = 0 := by omega
    decide
  have hvalue : min 9223372036854775807 (-1) +
      ((WordPair.nth words 1).value : Int) % (|-1 - 9223372036854775807| + 1) = 21474836484 := by
    decide
  have hresult := hfirst 1 hsecond 1 le_rfl
  rwa [hlater, hvalue] at hresult

end Int64

end Calculator
