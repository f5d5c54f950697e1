import Calculator.Text

/-!
# Integer numerals

An integer is written in decimal with an optional sign, or without a sign in radix 16, 8 or 2 behind
`0x`, `0o` or `0b`. White space around it counts for nothing.

* `Numeral.natural?`: the number that digits of a radix denote.
* `Numeral.integer?`: the integer that a text denotes, if it is a numeral. A text without anything
  but white space denotes zero.
* `Numeral.integer?_of_all_isDigit`: a run of digits denotes its decimal value.
-/

namespace Calculator

namespace Numeral

/-! ## Digits of a radix -/

/-- The value of a digit; letters of either case go on where the ten digits end. -/
def digitValue? (u : CodeUnit) : Option Nat :=
  if Text.isDigit u then some (Text.digitValue u)
  else if 97 ≤ u && u ≤ 122 then some (u.toNat - 87)
  else if 65 ≤ u && u ≤ 90 then some (u.toNat - 55)
  else none

/-- The value of a digit below the radix. -/
def digit? (radix : Nat) (u : CodeUnit) : Option Nat := (digitValue? u).filter (· < radix)

/-- The number that one or more digits of a radix denote, most significant digit first. -/
def natural? (radix : Nat) (digits : Text) : Option Nat :=
  if digits.isEmpty then none
  else digits.foldlM (fun n u => (digit? radix u).map (radix * n + ·)) 0

/-- The radix that a letter behind a zero announces. -/
def radix? (mark : CodeUnit) : Option Nat :=
  if mark = 120 || mark = 88 then some 16
  else if mark = 111 || mark = 79 then some 8
  else if mark = 98 || mark = 66 then some 2
  else none

/-! ## Integers -/

/-- The integer of a decimal numeral with an optional sign. -/
def signed? (t : Text) : Option Int :=
  (natural? 10 t.dropSign).map fun n => if t.isNegative then -n else n

/-- The radix of a numeral with a mark, and its digits. -/
def marked? : Text → Option (Nat × Text)
  | zero :: mark :: digits =>
    if zero = 48 then (radix? mark).map fun radix => (radix, digits) else none
  | _ => none

/-- The integer that a text denotes. -/
def integer? (text : Text) : Option Int :=
  let t := text.trim
  if t.isEmpty then some 0
  else
    match marked? t with
    | some (radix, digits) => (natural? radix digits).map Int.ofNat
    | none => signed? t

/-! ## Runs of digits -/

theorem digit?_ten {u : CodeUnit} (h : Text.isDigit u = true) :
    digit? 10 u = some (Text.digitValue u) := by
  have hd : Text.digitValue u < 10 := by
    simp only [Text.isDigit, Bool.and_eq_true, decide_eq_true_eq, UInt16.le_iff_toNat_le] at h
    simp only [Text.digitValue]
    have := h.2
    simp at this
    omega
  simp [digit?, digitValue?, h, hd, Option.filter]

theorem natural?_ten {t : Text} (hne : t ≠ []) (h : t.all Text.isDigit = true) :
    natural? 10 t = some (Text.natValue t) := by
  have fold : ∀ (t : Text) (n : Nat), t.all Text.isDigit = true →
      t.foldlM (fun n u => (digit? 10 u).map (10 * n + ·)) n =
        some (t.foldl (fun n u => 10 * n + Text.digitValue u) n) := by
    intro t
    induction t with
    | nil => intro n _; rfl
    | cons u rest ih =>
      intro n h
      simp only [List.all_cons, Bool.and_eq_true] at h
      simp [digit?_ten h.1, ih _ h.2]
  simp [natural?, Text.natValue, fold t 0 h, hne]

theorem radix?_of_isDigit {u : CodeUnit} (h : Text.isDigit u = true) : radix? u = none := by
  simp only [Text.isDigit, Bool.and_eq_true, decide_eq_true_eq, UInt16.le_iff_toNat_le] at h
  have ne : ∀ v : CodeUnit, 57 < v.toNat → u ≠ v := by
    rintro v hv rfl
    simp at h
    omega
  simp [radix?, ne]

theorem marked?_of_all_isDigit {t : Text} (h : t.all Text.isDigit = true) : marked? t = none := by
  match t with
  | [] | [_] => rfl
  | _ :: mark :: _ =>
    simp [marked?, radix?_of_isDigit (List.all_eq_true.1 h mark (by simp))]

/-- A run of digits denotes its decimal value. -/
theorem integer?_of_all_isDigit {t : Text} (hne : t ≠ []) (h : t.all Text.isDigit = true) :
    integer? t = some (Text.natValue t : Int) := by
  have hs : t.dropSign = t ∧ t.isNegative = false := by
    cases t with
    | nil => contradiction
    | cons u rest =>
      have hu := List.all_eq_true.1 h u (by simp)
      exact ⟨Text.dropSign_of_isDigit hu rest, Text.isNegative_of_isDigit hu rest⟩
  simp [integer?, Text.trim_of_all_isDigit h, marked?_of_all_isDigit h, signed?, hs,
    natural?_ten hne h, hne]

end Numeral

end Calculator
