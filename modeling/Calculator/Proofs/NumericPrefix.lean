import Calculator.Arithmetic.Float64
import Calculator.Proofs.DecimalRounding
import Calculator.Proofs.RoundTrip
import Mathlib.Data.List.TakeWhile

/-!
# The number of a literal

A literal may end in a point or in an incomplete exponent. It is read as the float nearest to the
number at its start, and so as the same float however that number is written.

* `Literal`: the parts of a literal, with its text and the number that it denotes.
* `Literal.exists_text_eq`, `Literal.isLiteral_text`: the literals are the texts of such parts.
* `Literal.value_read_text`: reading a literal gives its number.
* `Literal.IsLongestNumeral`: the longest start of a text that is complete as a number.
* `Literal.Respells`: other ways to write the same number.
* `Float64.parseLiteral_isNearest`: the float of a literal.

Proof. Each part of a literal ends where the next one starts, since a point, a mark and a sign are
not digits. No complete number ends in a mark or a sign, so that what is left without an incomplete
exponent is the longest one. Numbers that are equal are rounded to the same float.
-/

namespace Calculator

variable {σ : Type}

/-! ## Runs of digits -/

namespace Text

theorem natValue_append (s t : Text) :
    natValue (s ++ t) = natValue s * 10 ^ t.length + natValue t := by
  induction t using List.reverseRecOn with
  | nil =>
    rw [List.append_nil, List.length_nil, pow_zero, mul_one]
    rfl
  | append_singleton t u ih =>
    rw [← List.append_assoc, natValue_append_singleton, natValue_append_singleton, ih,
      List.length_append, List.length_singleton, pow_succ]
    ring

theorem natValue_replicate_zero (n : ℕ) : natValue (List.replicate n 48) = 0 := by
  induction n with
  | zero => rfl
  | succ n ih =>
    rw [List.replicate_succ', natValue_append_singleton, ih]
    rfl

/-- The text does not go on with a digit. -/
def StopsDigits (t : Text) : Prop := ∀ u ∈ t.head?, isDigit u = false

section Digits

variable {digits t : Text}

theorem StopsDigits.takeWhile_eq (h : StopsDigits t) : t.takeWhile isDigit = [] := by
  cases t with
  | nil => rfl
  | cons u t => exact List.takeWhile_cons_of_neg (Bool.eq_false_iff.1 (h u rfl))

theorem StopsDigits.dropWhile_eq (h : StopsDigits t) : t.dropWhile isDigit = t := by
  cases t with
  | nil => rfl
  | cons u t => exact List.dropWhile_cons_of_neg (Bool.eq_false_iff.1 (h u rfl))

theorem StopsDigits.takeWhile_append (h : StopsDigits t) (hdigits : digits.all isDigit = true) :
    (digits ++ t).takeWhile isDigit = digits := by
  rw [List.takeWhile_append_of_pos (List.all_eq_true.1 hdigits), h.takeWhile_eq, List.append_nil]

theorem StopsDigits.dropWhile_append (h : StopsDigits t) (hdigits : digits.all isDigit = true) :
    (digits ++ t).dropWhile isDigit = t := by
  rw [List.dropWhile_append_of_pos (List.all_eq_true.1 hdigits), h.dropWhile_eq]

end Digits

end Text

namespace Decimal

/-! ## The parts of a literal -/

/-- An exponent, whose sign and digits may be missing. -/
structure ExponentPart where
  mark : CodeUnit
  sign : Option CodeUnit
  digits : Text
  isExponentMark_mark : isExponentMark mark = true
  isSign_sign : ∀ u ∈ sign, Text.isSign u = true
  all_digits : digits.all Text.isDigit = true

namespace ExponentPart

def text (e : ExponentPart) : Text := e.mark :: (e.sign.toList ++ e.digits)

/-- The power of ten. It is zero without digits. -/
def value (e : ExponentPart) : ℤ :=
  if e.sign = some 45 then -(Text.natValue e.digits : ℤ) else Text.natValue e.digits

theorem dropSign_append (e : ExponentPart) :
    Text.dropSign (e.sign.toList ++ e.digits) = e.digits := by
  obtain ⟨mark, sign, digits, -, hsign, hdigits⟩ := e
  cases sign with
  | none =>
    cases digits with
    | nil => rfl
    | cons u digits => exact Text.dropSign_of_isDigit (List.all_eq_true.1 hdigits u (by simp)) _
  | some u => exact if_pos (hsign u rfl)

theorem isNegative_append (e : ExponentPart) :
    Text.isNegative (e.sign.toList ++ e.digits) = true ↔ e.sign = some 45 := by
  obtain ⟨mark, sign, digits, -, hsign, hdigits⟩ := e
  cases sign with
  | none =>
    refine iff_of_false (Bool.eq_false_iff.1 ?_) nofun
    cases digits with
    | nil => rfl
    | cons u digits => exact Text.isNegative_of_isDigit (List.all_eq_true.1 hdigits u (by simp)) _
  | some u => exact beq_iff_eq

theorem isExponentPart_text (e : ExponentPart) : isExponentPart e.text = true := by
  rw [text, isExponentPart, e.isExponentMark_mark, e.dropSign_append, e.all_digits]
  rfl

theorem readExponent_text (e : ExponentPart) : readExponent e.text = e.value := by
  have hdigits : e.digits.takeWhile Text.isDigit = e.digits :=
    List.takeWhile_eq_self_iff.2 (List.all_eq_true.1 e.all_digits)
  rw [text, readExponent, if_pos e.isExponentMark_mark, e.dropSign_append, hdigits, value]
  exact if_congr e.isNegative_append rfl rfl

theorem value_of_digits_eq_nil (e : ExponentPart) (h : e.digits = []) : e.value = 0 := by
  rw [value, h]
  exact ite_self 0

/-- The mark and the sign cannot end a number. -/
theorem not_digit_or_point (e : ExponentPart) {u : CodeUnit} (hu : u ∈ e.mark :: e.sign.toList) :
    ¬(Text.isDigit u = true ∨ u = point) := by
  have hunit : u = 69 ∨ u = 101 ∨ u = 43 ∨ u = 45 := by
    rcases List.mem_cons.1 hu with rfl | hu
    · have hmark := e.isExponentMark_mark
      rw [isExponentMark, Bool.or_eq_true, beq_iff_eq, beq_iff_eq] at hmark
      exact hmark.elim .inl fun h => .inr (.inl h)
    · have hsign := e.isSign_sign u (Option.mem_toList.1 hu)
      rw [Text.isSign, Bool.or_eq_true, beq_iff_eq, beq_iff_eq] at hsign
      exact .inr (.inr hsign)
  rcases hunit with rfl | rfl | rfl | rfl <;> decide

end ExponentPart

/-- A literal: digits, a fraction that may be missing or without digits, and an exponent that may be
missing or incomplete. -/
structure Literal where
  whole : Text
  fraction : Option Text
  exponent : Option ExponentPart
  whole_ne_nil : whole ≠ []
  all_whole : whole.all Text.isDigit = true
  all_fraction : ∀ f ∈ fraction, f.all Text.isDigit = true

namespace Literal

def fractionDigits (l : Literal) : Text := l.fraction.getD []

def exponentText (l : Literal) : Text := l.exponent.elim [] ExponentPart.text

def exponentValue (l : Literal) : ℤ := l.exponent.elim 0 ExponentPart.value

def fractionText (l : Literal) : Text := l.fraction.elim [] (point :: ·)

def text (l : Literal) : Text := l.whole ++ (l.fractionText ++ l.exponentText)

/-- The number that the digits before and behind the point and the exponent denote. -/
def value (l : Literal) : ℚ :=
  (Text.natValue l.whole + Text.natValue l.fractionDigits / 10 ^ l.fractionDigits.length) *
    10 ^ l.exponentValue

/-! ### The texts of literals -/

theorem stopsDigits_exponentText (l : Literal) : Text.StopsDigits l.exponentText := by
  rw [exponentText]
  cases l.exponent with
  | none => exact nofun
  | some e =>
    intro u hu
    obtain rfl : e.mark = u := Option.some.inj hu
    exact Bool.eq_false_iff.2 fun hdigit => e.not_digit_or_point List.mem_cons_self (.inl hdigit)

/-- An exponent does not start with the point. -/
theorem head?_exponentText (l : Literal) : l.exponentText.head? ≠ some point := by
  rw [exponentText]
  cases l.exponent with
  | none => exact nofun
  | some e =>
    exact fun hpoint => e.not_digit_or_point List.mem_cons_self (.inr (Option.some.inj hpoint))

theorem stopsDigits_fractionText (l : Literal) :
    Text.StopsDigits (l.fractionText ++ l.exponentText) := by
  rw [fractionText]
  cases l.fraction with
  | none => exact l.stopsDigits_exponentText
  | some f =>
    intro u hu
    obtain rfl : point = u := Option.some.inj hu
    rfl

theorem isExponentPart_exponentText (l : Literal) : isExponentPart l.exponentText = true := by
  rw [exponentText]
  cases l.exponent with
  | none => rfl
  | some e => exact e.isExponentPart_text

theorem readExponent_exponentText (l : Literal) :
    readExponent l.exponentText = l.exponentValue := by
  rw [exponentText, exponentValue]
  cases l.exponent with
  | none => rfl
  | some e => exact e.readExponent_text

theorem isTail_text (l : Literal) : isTail (l.fractionText ++ l.exponentText) = true := by
  have hexponent := l.isExponentPart_exponentText
  have hpoint := l.head?_exponentText
  have hstop := l.stopsDigits_exponentText
  have hdigits := l.all_fraction
  rw [fractionText]
  generalize l.exponentText = t at hexponent hpoint hstop ⊢
  cases h : l.fraction with
  | none =>
    show isTail t = true
    cases t with
    | nil => rfl
    | cons u t => exact (if_neg fun hu => hpoint (congrArg some hu)).trans hexponent
  | some f =>
    show isTail (point :: (f ++ t)) = true
    rw [isTail, if_pos rfl, hstop.dropWhile_append (hdigits f h)]
    exact hexponent

theorem isLiteral_text (l : Literal) : isLiteral l.text = true := by
  have hdrop := l.stopsDigits_fractionText.dropWhile_append l.all_whole
  rw [text]
  cases hwhole : l.whole with
  | nil => exact absurd hwhole l.whole_ne_nil
  | cons u whole =>
    have hall := l.all_whole
    rw [hwhole, List.all_cons, Bool.and_eq_true] at hall
    rw [hwhole, List.cons_append, List.dropWhile_cons_of_pos hall.1] at hdrop
    rw [List.cons_append, isLiteral, hall.1, hdrop, l.isTail_text]
    rfl

theorem readFraction_text (l : Literal) :
    readFraction (l.fractionText ++ l.exponentText) = (l.fractionDigits, l.exponentText) := by
  have hpoint := l.head?_exponentText
  have hstop := l.stopsDigits_exponentText
  have hdigits := l.all_fraction
  rw [fractionText, fractionDigits]
  generalize l.exponentText = t at hpoint hstop ⊢
  cases h : l.fraction with
  | none =>
    show readFraction t = ([], t)
    cases t with
    | nil => rfl
    | cons u t => exact if_neg fun hu => hpoint (congrArg some hu)
  | some f =>
    show readFraction (point :: (f ++ t)) = (f, t)
    rw [readFraction, if_pos rfl, hstop.dropWhile_append (hdigits f h),
      hstop.takeWhile_append (hdigits f h)]

theorem read_text (l : Literal) :
    read l.text = ⟨Text.natValue (l.whole ++ l.fractionDigits),
      l.exponentValue - l.fractionDigits.length⟩ := by
  rw [read, text, l.stopsDigits_fractionText.takeWhile_append l.all_whole,
    l.stopsDigits_fractionText.dropWhile_append l.all_whole, readFraction_text]
  dsimp only
  rw [readExponent_exponentText]

/-- The point is moved behind the last digit of the fraction. -/
theorem value_read_text (l : Literal) : (read l.text).value = l.value := by
  rw [read_text, Decimal.value, value, Text.natValue_append, zpow_sub₀ (by norm_num), zpow_natCast]
  push_cast
  field_simp

theorem exists_exponent_of_isExponentPart {t : Text} (h : isExponentPart t = true) :
    ∃ e : Option ExponentPart, e.elim [] ExponentPart.text = t := by
  have hunsigned : ∀ u ∈ (none : Option CodeUnit), Text.isSign u = true :=
    fun u hu => absurd hu (Option.not_mem_none u)
  rcases t with _ | ⟨u, t⟩
  · exact ⟨none, rfl⟩
  rw [isExponentPart, Bool.and_eq_true] at h
  obtain ⟨hmark, hall⟩ := h
  rcases t with _ | ⟨v, t⟩
  · exact ⟨some ⟨u, none, [], hmark, hunsigned, rfl⟩, rfl⟩
  rw [Text.dropSign] at hall
  split at hall
  case isTrue hsign =>
    have hsign' : ∀ w ∈ some v, Text.isSign w = true := fun w hw => Option.some.inj hw ▸ hsign
    exact ⟨some ⟨u, some v, t, hmark, hsign', hall⟩, rfl⟩
  case isFalse => exact ⟨some ⟨u, none, v :: t, hmark, hunsigned, hall⟩, rfl⟩

theorem exists_parts_of_isTail {t : Text} (h : isTail t = true) :
    ∃ (fraction : Option Text) (e : Option ExponentPart),
      (∀ f ∈ fraction, f.all Text.isDigit = true) ∧
        fraction.elim [] (point :: ·) ++ e.elim [] ExponentPart.text = t := by
  cases t with
  | nil => exact ⟨none, none, nofun, rfl⟩
  | cons u t =>
    rw [isTail] at h
    split at h
    · next hpoint =>
      obtain ⟨e, he⟩ := exists_exponent_of_isExponentPart h
      refine ⟨some (t.takeWhile Text.isDigit), e, ?_, ?_⟩
      · rintro f ⟨⟩
        exact List.all_takeWhile
      · rw [he, hpoint]
        exact congrArg (point :: ·) List.takeWhile_append_dropWhile
    · obtain ⟨e, he⟩ := exists_exponent_of_isExponentPart h
      exact ⟨none, e, nofun, he⟩

/-- The literals are the texts of these parts. -/
theorem exists_text_eq {t : Text} (h : isLiteral t = true) : ∃ l : Literal, l.text = t := by
  cases t with
  | nil => cases h
  | cons u t =>
    rw [isLiteral, Bool.and_eq_true] at h
    obtain ⟨fraction, e, hfraction, htail⟩ := exists_parts_of_isTail h.2
    have hwhole : (u :: t.takeWhile Text.isDigit).all Text.isDigit = true := by
      rw [List.all_cons, h.1, List.all_takeWhile]
      rfl
    refine ⟨⟨u :: t.takeWhile Text.isDigit, fraction, e, List.cons_ne_nil _ _, hwhole,
      hfraction⟩, ?_⟩
    exact (congrArg (u :: t.takeWhile Text.isDigit ++ ·) htail).trans
      (congrArg (u :: ·) List.takeWhile_append_dropWhile)

/-! ### The longest numeral at the start -/

/-- A literal without an incomplete exponent. -/
def IsNumeral (l : Literal) : Prop := ∀ e ∈ l.exponent, e.digits ≠ []

/-- The numeral at the start of a text that no longer one contains. -/
structure IsLongestNumeral (l : Literal) (t : Text) : Prop where
  isNumeral : l.IsNumeral
  isPrefix : l.text <+: t
  longest {l' : Literal} : l'.IsNumeral → l'.text <+: t → l'.text.length ≤ l.text.length

/-- The literal without its exponent. -/
def dropExponent (l : Literal) : Literal := { l with exponent := none }

/-- A numeral ends in a digit or in the point. -/
theorem IsNumeral.of_mem_getLast? {l : Literal} (h : l.IsNumeral) {u : CodeUnit}
    (hu : u ∈ l.text.getLast?) : Text.isDigit u = true ∨ u = point := by
  rw [text, exponentText, fractionText] at hu
  cases he : l.exponent with
  | none =>
    cases hf : l.fraction with
    | none =>
      rw [he, hf, Option.elim_none, Option.elim_none, List.append_nil, List.append_nil] at hu
      exact .inl (List.all_eq_true.1 l.all_whole u (List.mem_of_getLast? hu))
    | some f =>
      rw [he, hf, Option.elim_none, Option.elim_some, List.append_nil,
        List.getLast?_append_of_ne_nil _ (List.cons_ne_nil _ _)] at hu
      rcases List.mem_cons.1 (List.mem_of_getLast? hu) with hpoint | hdigit
      · exact .inr hpoint
      · exact .inl (List.all_eq_true.1 (l.all_fraction f hf) u hdigit)
  | some e =>
    rw [he, Option.elim_some, ExponentPart.text, ← List.cons_append, ← List.append_assoc,
      ← List.append_assoc, List.getLast?_append_of_ne_nil _ (h e he)] at hu
    exact .inl (List.all_eq_true.1 e.all_digits u (List.mem_of_getLast? hu))

theorem isLongestNumeral_self {l : Literal} (h : l.IsNumeral) : l.IsLongestNumeral l.text :=
  ⟨h, List.prefix_rfl, fun _ hprefix => hprefix.length_le⟩

/-- An incomplete exponent is what follows the longest numeral. -/
theorem isLongestNumeral_dropExponent {l : Literal} {e : ExponentPart} (he : l.exponent = some e)
    (hdigits : e.digits = []) : l.dropExponent.IsLongestNumeral l.text := by
  have htext : l.text = l.dropExponent.text ++ (e.mark :: e.sign.toList) := by
    have hexponent : l.exponentText = e.mark :: e.sign.toList := by
      rw [exponentText, he, Option.elim_some, ExponentPart.text, hdigits, List.append_nil]
    have hnone : l.dropExponent.text = l.whole ++ (l.fractionText ++ []) := rfl
    rw [text, hexponent, hnone, List.append_nil, List.append_assoc]
  refine ⟨nofun, ⟨_, htext.symm⟩, fun {l'} hnumeral hprefix => ?_⟩
  by_contra hlonger
  obtain ⟨q, hq⟩ := List.prefix_of_prefix_length_le ⟨_, htext.symm⟩ hprefix (not_le.1 hlonger).le
  have hne : q ≠ [] := by
    rintro rfl
    rw [← hq, List.append_nil] at hlonger
    exact hlonger le_rfl
  -- a longer numeral would end in a unit of the exponent
  have hmem : q.getLast hne ∈ e.mark :: e.sign.toList := by
    rw [← hq, htext, List.prefix_append_right_inj] at hprefix
    exact hprefix.subset (List.getLast_mem hne)
  have hlast : q.getLast hne ∈ l'.text.getLast? := by
    rw [← hq, List.getLast?_append_of_ne_nil _ hne, List.getLast?_eq_some_getLast hne]
    rfl
  exact e.not_digit_or_point hmem (hnumeral.of_mem_getLast? hlast)

/-- It stands for the power of ten to zero. -/
theorem value_dropExponent {l : Literal} {e : ExponentPart} (he : l.exponent = some e)
    (hdigits : e.digits = []) : l.dropExponent.value = l.value := by
  have hzero : l.exponentValue = 0 := by
    rw [exponentValue, he, Option.elim_some, e.value_of_digits_eq_nil hdigits]
  rw [value, value, hzero]
  rfl

/-- Every literal starts with a longest numeral, and denotes the same number. -/
theorem exists_isLongestNumeral (l : Literal) :
    ∃ l' : Literal, l'.IsLongestNumeral l.text ∧ l'.value = l.value := by
  by_cases h : l.IsNumeral
  · exact ⟨l, isLongestNumeral_self h, rfl⟩
  · obtain ⟨e, he, hdigits⟩ : ∃ e ∈ l.exponent, e.digits = [] := by
      simpa only [IsNumeral, not_forall, not_not, exists_prop] using h
    exact ⟨_, isLongestNumeral_dropExponent he hdigits, value_dropExponent he hdigits⟩

theorem IsLongestNumeral.value_eq {l l' : Literal} {t : Text} (h : l.IsLongestNumeral t)
    (h' : l'.IsLongestNumeral t) : l.value = l'.value := by
  have hprefix := List.prefix_of_prefix_length_le h.isPrefix h'.isPrefix
    (h'.longest h.isNumeral h.isPrefix)
  have htext : l.text = l'.text :=
    hprefix.eq_of_length_le (h.longest h'.isNumeral h'.isPrefix)
  rw [← value_read_text, htext, value_read_text]

theorem IsLongestNumeral.value_eq_of_text {n l : Literal} (h : n.IsLongestNumeral l.text) :
    n.value = l.value := by
  obtain ⟨n', hn', hvalue⟩ := l.exists_isLongestNumeral
  exact (h.value_eq hn').trans hvalue

/-! ### Other ways to write a number -/

/-- Ways to write a literal differently: without an incomplete exponent or a bare point, with more
zeros in front of it or at the end of its fraction, or with the point moved and the exponent
adjusted to it. -/
inductive Respells : Literal → Literal → Prop
  | incompleteExponent {l : Literal} {e : ExponentPart} : l.exponent = some e → e.digits = [] →
      Respells l l.dropExponent
  | barePoint {l l' : Literal} : l.fraction = some [] → l'.fraction = none → l'.whole = l.whole →
      l'.exponent = l.exponent → Respells l l'
  | leadingZeros {l l' : Literal} (n : ℕ) : l'.whole = List.replicate n 48 ++ l.whole →
      l'.fraction = l.fraction → l'.exponent = l.exponent → Respells l l'
  | trailingZeros {l l' : Literal} {f : Text} (n : ℕ) : l.fraction = some f →
      l'.fraction = some (f ++ List.replicate n 48) → l'.whole = l.whole →
      l'.exponent = l.exponent → Respells l l'
  | movedPoint {l l' : Literal} {f f' : Text} : l.fraction = some (f ++ f') →
      l'.whole = l.whole ++ f → l'.fraction = some f' →
      l'.exponentValue = l.exponentValue - f.length → Respells l l'

/-- None of them changes the number. -/
theorem Respells.value_eq {l l' : Literal} (h : Respells l l') : l'.value = l.value := by
  cases h with
  | incompleteExponent he hdigits => exact value_dropExponent he hdigits
  | barePoint hf hf' hwhole hexponent =>
    rw [value, value, fractionDigits, fractionDigits, exponentValue, exponentValue, hf, hf', hwhole,
      hexponent]
    rfl
  | leadingZeros n hwhole hf hexponent =>
    rw [value, value, fractionDigits, fractionDigits, exponentValue, exponentValue, hf, hwhole,
      hexponent, Text.natValue_append, Text.natValue_replicate_zero, zero_mul, zero_add]
  | trailingZeros n hf hf' hwhole hexponent =>
    rw [value, value, fractionDigits, fractionDigits, exponentValue, exponentValue, hf, hf', hwhole,
      hexponent, Option.getD_some, Option.getD_some, Text.natValue_append,
      Text.natValue_replicate_zero, List.length_append, List.length_replicate, pow_add]
    push_cast
    field_simp
    ring
  | @movedPoint _ f f' hf hwhole hf' hexponent =>
    rw [value, value, fractionDigits, fractionDigits, hf, hf', hwhole, hexponent, Option.getD_some,
      Option.getD_some, Text.natValue_append, Text.natValue_append, List.length_append, pow_add,
      zpow_sub₀ (by norm_num), zpow_natCast]
    push_cast
    field_simp
    ring

end Literal

end Decimal

/-! ## The floats of literals -/

namespace Float64

open Decimal

variable {t t' : Text} {l l' : Literal}

theorem read_text (l : Literal) : read l.text = (Decimal.read l.text).toFloat :=
  read_of_isLiteral l.isLiteral_text

theorem isNearest_read (l : Literal) : IsNearest l.value (read l.text) := by
  rw [read_text, ← l.value_read_text]
  exact (Decimal.read l.text).isNearest_toFloat

theorem read_eq_of_value_eq (h : l.value = l'.value) : read l.text = read l'.text := by
  have hnear := isNearest_read l
  rw [h] at hnear
  exact hnear.unique (isNearest_read l')

/-- A literal is read as the float nearest to the number of the longest numeral at its start, and
any other literal with the same number as the same float, however it is written. -/
theorem parseLiteral_isNearest (h : (float64 : NumericType σ Float).literal t = true) :
    ∃ x, (float64 : NumericType σ Float).parseLiteral t = .ok x ∧
      (∃ l : Literal, l.IsLongestNumeral t ∧ IsNearest l.value x) ∧
      (∀ (t' : Text) (l l' : Literal), (float64 : NumericType σ Float).literal t' = true →
        l.IsLongestNumeral t → l'.IsLongestNumeral t' → l'.value = l.value →
        (float64 : NumericType σ Float).parseLiteral t' = .ok x) ∧
      ∀ l l' : Literal, l.text = t → l.Respells l' →
        (float64 : NumericType σ Float).literal l'.text = true ∧
          (float64 : NumericType σ Float).parseLiteral l'.text = .ok x := by
  obtain ⟨k, rfl⟩ := Literal.exists_text_eq h
  refine ⟨read k.text, rfl, ?_, ?_, ?_⟩
  · obtain ⟨n, hn, hvalue⟩ := k.exists_isLongestNumeral
    have hnear := isNearest_read k
    rw [← hvalue] at hnear
    exact ⟨n, hn, hnear⟩
  · intro t' l l' ht' hl hl' hvalue
    obtain ⟨k', rfl⟩ := Literal.exists_text_eq ht'
    rw [hl.value_eq_of_text, hl'.value_eq_of_text] at hvalue
    exact congrArg Except.ok (read_eq_of_value_eq hvalue)
  · intro l l' hl hrespells
    rw [← hl]
    exact ⟨l'.isLiteral_text, congrArg Except.ok (read_eq_of_value_eq hrespells.value_eq)⟩

/-- The incomplete exponent in `1.5E+` counts for nothing. -/
theorem parseLiteral_isNearest_incomplete :
    (float64 : NumericType Unit Float).literal (Text.ofString "1.5E+") = true ∧
      ∃ x, (float64 : NumericType Unit Float).parseLiteral (Text.ofString "1.5E+") = .ok x ∧
        IsNearest (3 / 2) x ∧
        (float64 : NumericType Unit Float).parseLiteral (Text.ofString "1.5") = .ok x := by
  have hliteral : (float64 : NumericType Unit Float).literal (Text.ofString "1.5E+") = true := by
    decide
  have hsign : ∀ u ∈ some (43 : CodeUnit), Text.isSign u = true := by
    rintro u ⟨⟩
    rfl
  have hfraction : ∀ f ∈ some ([53] : Text), f.all Text.isDigit = true := by
    rintro f ⟨⟩
    rfl
  let e : ExponentPart := ⟨69, some 43, [], rfl, hsign, rfl⟩
  let l : Literal := ⟨[49], some [53], some e, by decide, rfl, hfraction⟩
  have htext : l.text = Text.ofString "1.5E+" := rfl
  have hdropped : l.dropExponent.text = Text.ofString "1.5" := rfl
  have hvalue : l.value = 3 / 2 := by
    show (((1 : ℕ) : ℚ) + ((5 : ℕ) : ℚ) / 10 ^ 1) * 10 ^ (0 : ℤ) = 3 / 2
    norm_num
  obtain ⟨x, hx, ⟨n, hn, hnear⟩, -, hrespells⟩ := parseLiteral_isNearest hliteral
  obtain ⟨-, hparsed⟩ := hrespells l _ htext (.incompleteExponent rfl rfl)
  rw [← htext] at hn
  rw [hn.value_eq_of_text, hvalue] at hnear
  rw [hdropped] at hparsed
  exact ⟨hliteral, x, hx, hnear, hparsed⟩

end Float64

end Calculator
