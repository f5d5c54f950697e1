import Calculator.Proofs.Juxtaposition
import Calculator.Proofs.Range
import Mathlib.Data.Nat.Digits.Defs

/-!
# Decimal numerals are read back

`Int64.numeral_round_trip`: the numeral of an integer is evaluated to that integer, for all integers
in range but the least one.

* `Text.ofDigits_eq_natValue`, `Text.ofString_toString`: numerals as the standard library has them.
* `Text.natValue_ofNat`, `Text.all_isDigit_ofNat`: the numeral of a natural number.
* `Cursor.next_literal`: what is read from a literal alone, be it refused or not.
* `Setup.run_sign_of_refused`: a literal that is refused ends the evaluation.

Proof. The digits of a numeral are a literal, so they are read as one token with its value, and the
sign in front is a token of its own. So a numeral spells a literal, or a literal behind a sign, and
the value is that of the tree. The magnitude of the least integer is one too many for a literal: it
is refused before the sign is taken into account.
-/

namespace Calculator

variable {σ T : Type}

/-! ## Numerals -/

namespace Text

theorem natValue_append_singleton (t : Text) (u : CodeUnit) :
    natValue (t ++ [u]) = 10 * natValue t + digitValue u := by
  simp [natValue]

/-- The value of a run of digits in positional notation, whatever zeros it starts with. -/
theorem ofDigits_eq_natValue (t : Text) :
    Nat.ofDigits 10 (t.reverse.map digitValue) = natValue t := by
  induction t using List.reverseRecOn with
  | nil => rfl
  | append_singleton t u ih =>
    rw [List.reverse_append, List.reverse_singleton, List.singleton_append, List.map_cons,
      Nat.ofDigits_cons, ih, natValue_append_singleton, Nat.add_comm]

/-- A digit is the character that the standard library writes for it. -/
theorem unitsOf_digitChar : ∀ d < 10, unitsOf d.digitChar = [(48 + d).toUInt16] := by decide

theorem digitValue_toUInt16 : ∀ d < 10, digitValue (48 + d).toUInt16 = d := by decide

theorem isDigit_toUInt16 : ∀ d < 10, isDigit (48 + d).toUInt16 = true := by decide

theorem all_isDigit_ofNat (n : Nat) : (ofNat n).all isDigit = true := by
  induction n using ofNat.induct with
  | case1 n h =>
    rw [ofNat, if_pos h, List.all_cons, isDigit_toUInt16 n h]
    rfl
  | case2 n h ih =>
    rw [ofNat, if_neg h, List.all_append, ih, List.all_cons, isDigit_toUInt16 _ (by omega)]
    rfl

theorem natValue_ofNat (n : Nat) : natValue (ofNat n) = n := by
  induction n using ofNat.induct with
  | case1 n h =>
    rw [ofNat, if_pos h, ← List.nil_append [_], natValue_append_singleton, digitValue_toUInt16 n h]
    exact Nat.zero_add n
  | case2 n h ih =>
    rw [ofNat, if_neg h, natValue_append_singleton, ih, digitValue_toUInt16 _ (by omega)]
    omega

theorem flatMap_toDigits (n : Nat) : (Nat.toDigits 10 n).flatMap unitsOf = ofNat n := by
  induction n using ofNat.induct with
  | case1 n h =>
    rw [ofNat, if_pos h, Nat.toDigits_of_lt_base h, List.flatMap_singleton, unitsOf_digitChar n h]
  | case2 n h ih =>
    rw [ofNat, if_neg h, Nat.toDigits_of_base_le (by decide) (by omega), List.flatMap_append, ih,
      List.flatMap_singleton, unitsOf_digitChar _ (by omega)]

theorem ofString_repr (n : Nat) : ofString n.repr = ofNat n := by
  rw [ofString, Nat.repr_eq_ofList_toDigits, String.toList_ofList, flatMap_toDigits]

/-- The numeral of an integer is what the standard library writes for it. -/
theorem ofString_toString (n : Int) : ofString (toString n) = ofInt n := by
  cases n with
  | ofNat n => exact ofString_repr n
  | negSucc n =>
    show ofString ("-" ++ (n + 1).repr) = 45 :: ofNat (n + 1)
    rw [← ofString_repr, ofString, String.toList_append, List.flatMap_append]
    rfl

end Text

/-! ## Literals alone -/

namespace Cursor

variable {type : NumericType σ T} {t : Text}

/-- What is read from a literal with nothing behind it, also if it is refused. -/
theorem next_literal (h : type.PlainLiterals) (ht : type.literal t = true) (p : Nat) :
    (⟨p, t⟩ : Cursor).next type =
      ⟨(type.parseLiteral t).map fun a => ⟨.number a t, p⟩, none, ⟨p + t.length, []⟩⟩ := by
  obtain ⟨u, s, rfl⟩ : ∃ u s, t = u :: s := by
    refine List.exists_cons_of_ne_nil fun hnil => ?_
    rw [hnil, h.nil] at ht
    cases ht
  have hu := h.digit u s ht
  have hskip : (⟨p, u :: s⟩ : Cursor).skipBlanks = ⟨p, u :: s⟩ := by
    rw [skipBlanks_eq]
    have hblank : Text.isBlank u = false := by
      refine Bool.eq_false_iff.2 fun hb => ?_
      rw [Text.isDigit_of_isBlank hb] at hu
      cases hu
    simp [hblank]
  have hnewline : u ≠ Text.newline := by
    rintro rfl
    cases hu
  have hgrowth : type.growth [] (u :: s) = (u :: s).length := by
    have hwhole := @NumericType.growth_eq_length _ _ type [] (u :: s) [] ?_ nofun
    · rwa [List.append_nil] at hwhole
    · intro start rest hsplit hstart
      rw [List.nil_append, h.families_of_literal (h.init start rest hstart (hsplit ▸ ht))]
      exact List.cons_ne_nil _ _
  rw [next_of_ne_newline (congrArg Cursor.rest hskip) hnewline, hskip, munch]
  simp only [hgrowth, List.take_length, h.families_of_literal ht, advance, List.drop_length]
  cases hparse : type.parseLiteral (u :: s) with
  | error f => simp [NumericType.lexeme, hparse, Except.map]
  | ok a => simp [NumericType.lexeme, hparse, Except.map]

/-- What is read from punctuation, whatever stands behind it. -/
theorem next_punctuation (h : type.PlainLiterals) (p : Punctuation) (position : Nat) :
    (⟨position, p.unit :: t⟩ : Cursor).next type =
      ⟨.ok ⟨.punctuation p, position⟩, none, ⟨position + 1, t⟩⟩ := by
  have hnone : ([] : Text).all Text.isBlank = true := rfl
  exact next_of_word h (.punctuation p) hnone (fun u _ => h.families_unit_append p u) position

end Cursor

/-! ## Evaluating numerals -/

theorem Config.fetch_of_error {setup : Setup σ T} {c : Config σ T} {f : Fault} {behind : Cursor}
    (h : c.cursor.next setup.type = ⟨.error f, none, behind⟩) :
    c.fetch setup = .halt ⟨.error f, c.store, c.warnings⟩ := by
  simp [fetch, h, fault]

namespace Setup

/-- A literal that is refused behind a sign ends the evaluation. -/
theorem run_sign_of_refused (setup : Setup σ T) (hplain : setup.type.PlainLiterals) (s : Sign)
    {t : Text} (hinput : setup.input = s.punctuation.unit :: t) (ht : setup.type.literal t = true)
    {f : Fault} (hf : setup.type.parseLiteral t = .error f) (store : Store σ T) :
    setup.run store = ⟨.error f, store, []⟩ := by
  have hsign : (Cursor.start setup.input).next setup.type =
      ⟨.ok ⟨.punctuation s.punctuation, 0⟩, none, ⟨1, t⟩⟩ := by
    rw [Cursor.start, hinput]
    exact Cursor.next_punctuation hplain s.punctuation 0
  have hliteral := Cursor.next_literal hplain ht 1
  have haction : Item.start.action (.punctuation s.punctuation) = .shift (.unaryAfterOp s) := by
    cases s <;> rfl
  rw [hf] at hliteral
  rw [run, Config.fetch]
  simp only [Config.initial, hsign]
  refine Config.run_of_step_halt ?_
  rw [Config.step_of_shift rfl haction]
  exact Config.fetch_of_error hliteral

end Setup

namespace Int64

theorem isLiteral_ofNat (n : Nat) : isLiteral (Text.ofNat n) = true := by
  rw [isLiteral, Text.all_isDigit_ofNat, Text.ofNat]
  split <;> simp

/-- The numeral of a natural number is its literal, if the number is not too great. -/
theorem parseLiteral_ofNat (n : Nat) :
    parseLiteral (Text.ofNat n) =
      if maximum < (n : Int) then .error (.error (.lexical (.literalOutOfRange (Text.ofNat n))))
      else .ok (n : Int) := by
  rw [parseLiteral_of_isLiteral (isLiteral_ofNat n), Text.natValue_ofNat]

theorem maximum_eq : maximum = 2 ^ 63 - 1 := by decide

theorem plain_ofNat {n : Nat} (h : (n : Int) ≤ 2 ^ 63 - 1) :
    (Lexeme.number (n : Int) (Text.ofNat n)).Plain (int64 : NumericType σ Int) := by
  refine .number (isLiteral_ofNat n) ((parseLiteral_ofNat n).trans (if_neg ?_))
  rw [maximum_eq]
  omega

/-- The numeral of an integer that is not the least one is evaluated to that integer, and nothing
else happens. -/
theorem run_ofInt (g : Generator σ) (store : Store σ Int) {n : Int} (hlow : -(2 ^ 63 - 1) ≤ n)
    (hhigh : n ≤ 2 ^ 63 - 1) :
    Setup.run ⟨int64, g, Text.ofInt n⟩ store = ⟨.ok n, store, []⟩ := by
  cases n with
  | ofNat n =>
    let t : Tree Int := .num n (Text.ofNat n)
    have hinput : (int64 : NumericType σ Int).Written t.lexemes (Text.ofNat n) :=
      .word (plain_ofNat hhigh)
    exact Setup.run_of_written ⟨int64, g, Text.ofNat n⟩ int64_plainLiterals rfl hinput store
  | negSucc n =>
    let t : Tree Int := .sign .minus (.num (n + 1 : Nat) (Text.ofNat (n + 1)))
    have hword : (int64 : NumericType σ Int).Written _ (Text.ofNat (n + 1)) :=
      .word (plain_ofNat (by omega))
    have hinput : (int64 : NumericType σ Int).Written t.lexemes (45 :: Text.ofNat (n + 1)) :=
      hword.punctuation int64_plainLiterals .minus
    have hwrap : wrap (-((n + 1 : Nat) : Int)) = Int.negSucc n :=
      wrap_of_inRange (by rw [InRange]; omega)
    have hrun := Setup.run_of_written ⟨int64, g, 45 :: Text.ofNat (n + 1)⟩ int64_plainLiterals
      (t := t) rfl hinput store
    rw [Text.ofInt, hrun, ← hwrap]
    rfl

/-- The magnitude of the least integer is refused as a literal, before it has its sign. -/
theorem run_ofInt_least (g : Generator σ) (store : Store σ Int) :
    Setup.run ⟨int64, g, Text.ofInt (-2 ^ 63)⟩ store =
      ⟨.error (.error (.lexical (.literalOutOfRange (Text.ofNat (2 ^ 63))))), store, []⟩ := by
  have hrefused : parseLiteral (Text.ofNat (2 ^ 63)) = _ :=
    (parseLiteral_ofNat (2 ^ 63)).trans (if_pos (by decide))
  exact Setup.run_sign_of_refused ⟨int64, g, Text.ofInt (-2 ^ 63)⟩ int64_plainLiterals .minus rfl
    (isLiteral_ofNat (2 ^ 63)) hrefused store

/-- **Numerals are read back.** A run of digits, with or without zeros in front, is read as the
number that it denotes in positional notation if that is at most `2 ^ 63 - 1`, and is refused
otherwise. From any store, the numeral of an integer in range is evaluated to that integer, changes
nothing and does not warn, and only the numeral of the least integer has no value: its digits are
refused. -/
theorem numeral_round_trip (g : Generator σ) (store : Store σ Int) :
    (∀ digits : Text, digits ≠ [] → digits.all Text.isDigit = true →
      parseLiteral digits =
        if Nat.ofDigits 10 (digits.reverse.map Text.digitValue) ≤ 2 ^ 63 - 1 then
          .ok (Nat.ofDigits 10 (digits.reverse.map Text.digitValue) : Nat)
        else .error (.error (.lexical (.literalOutOfRange digits)))) ∧
    (∀ n : Int, -(2 ^ 63 - 1) ≤ n → n ≤ 2 ^ 63 - 1 →
      Setup.run ⟨int64, g, Text.ofString (toString n)⟩ store = ⟨.ok n, store, []⟩) ∧
    ∀ n : Int, -2 ^ 63 ≤ n → n ≤ 2 ^ 63 - 1 → ∀ f,
      (Setup.run ⟨int64, g, Text.ofString (toString n)⟩ store).result = .error f ↔
        n = -2 ^ 63 ∧
          f = .error (.lexical (.literalOutOfRange (Text.ofString (toString (2 ^ 63 : Nat))))) := by
  refine ⟨fun digits hne hdigits => ?_, fun n hlow hhigh => ?_, fun n hlow hhigh f => ?_⟩
  · have hliteral : isLiteral digits = true := by simp [isLiteral, hne, hdigits]
    rw [parseLiteral_of_isLiteral hliteral, maximum_eq, Text.ofDigits_eq_natValue, ← ite_not]
    refine if_congr ?_ rfl rfl
    omega
  · rw [Text.ofString_toString]
    exact run_ofInt g store hlow hhigh
  · rw [Text.ofString_toString, show toString (2 ^ 63 : Nat) = (2 ^ 63 : Nat).repr from rfl,
      Text.ofString_repr]
    by_cases hleast : n = -2 ^ 63
    · subst hleast
      rw [run_ofInt_least]
      simp [eq_comm]
    · rw [run_ofInt g store (by omega) hhigh]
      constructor
      · intro hresult
        cases hresult
      · intro hrefused
        exact absurd hrefused.1 hleast

/-- Zeros in front, the least numeral that has a value, and the one below it. -/
theorem numeral_round_trip_least :
    let run (input : String) : Outcome RandomSource Int :=
      Setup.run ⟨int64, RandomSource.generator, Text.ofString input⟩ ⟨.empty, .seeded 1⟩
    parseLiteral (Text.ofString "0009223372036854775807") = .ok 9223372036854775807 ∧
      (run "-9223372036854775807").result = .ok (-9223372036854775807) ∧
      (run "-9223372036854775808").result = .error (.error (.lexical (.literalOutOfRange
        (Text.ofString "9223372036854775808")))) := by
  intro run
  obtain ⟨hdigits, hrun, hleast⟩ :=
    numeral_round_trip RandomSource.generator ⟨.empty, .seeded 1⟩
  refine ⟨?_, ?_, ?_⟩
  · exact hdigits (Text.ofString "0009223372036854775807") (by decide) (by decide)
  · have hvalue := hrun (-9223372036854775807) (by decide) (by decide)
    exact congrArg Outcome.result hvalue
  · exact (hleast (-9223372036854775808) (by decide) (by decide) _).2 ⟨by decide, rfl⟩

end Int64

end Calculator
