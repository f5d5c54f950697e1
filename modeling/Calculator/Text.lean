/-!
# Texts as code units

A text is a list of 16-bit code units: lengths and positions count units, and a cut may fall inside
a character outside the basic plane.

* `Text.ofString`: the code units of a string.
* `Text.ofNat`, `Text.ofInt`: decimal numerals.
* `Text.natValue`: the number that a run of digits denotes.
* `Text.isNegative`, `Text.dropSign`: the sign in front of a numeral.
* `Text.isIdentifier`: a letter followed by letters and digits.
* `Text.trim`: a text without the white space around it.
-/

namespace Calculator

/-- One 16-bit code unit. -/
abbrev CodeUnit := UInt16

/-- A sequence of code units. -/
abbrev Text := List CodeUnit

namespace Text

/-- A character of the basic plane is one unit, any other a surrogate pair. -/
def unitsOf (c : Char) : Text :=
  if c.toNat < 0x10000 then [c.toNat.toUInt16]
  else
    let n := c.toNat - 0x10000
    [(0xD800 + n / 0x400).toUInt16, (0xDC00 + n % 0x400).toUInt16]

/-- The code units of a string. -/
def ofString (s : String) : Text := s.toList.flatMap unitsOf

/-! ## Character classes -/

/-- An ASCII digit. -/
def isDigit (u : CodeUnit) : Bool := 48 ≤ u && u ≤ 57

/-- An ASCII letter of either case. -/
def isLetter (u : CodeUnit) : Bool := (65 ≤ u && u ≤ 90) || (97 ≤ u && u ≤ 122)

/-- A space or a tab. -/
def isBlank (u : CodeUnit) : Bool := u == 32 || u == 9

/-- The line feed, which ends an expression. -/
def newline : CodeUnit := 10

/-- An identifier is a letter followed by letters and digits. -/
def isIdentifier : Text → Bool
  | [] => false
  | u :: rest => isLetter u && rest.all fun v => isLetter v || isDigit v

/-! ## White space -/

/-- The white space as closed ranges, ascending and apart: the controls from tab to carriage return,
the space separators, the line and paragraph separators and the byte order mark. -/
def spaceRanges : List (CodeUnit × CodeUnit) :=
  [(0x09, 0x0D), (0x20, 0x20), (0xA0, 0xA0), (0x1680, 0x1680), (0x2000, 0x200A), (0x2028, 0x2029),
    (0x202F, 0x202F), (0x205F, 0x205F), (0x3000, 0x3000), (0xFEFF, 0xFEFF)]

/-- Whether a code unit is white space. -/
def isSpace (u : CodeUnit) : Bool := spaceRanges.any fun r => r.1 ≤ u && u ≤ r.2

/-- The text without the white space in front of it. -/
def trimStart (t : Text) : Text := t.dropWhile isSpace

/-- The text without the white space behind it. -/
def trimEnd (t : Text) : Text := (trimStart t.reverse).reverse

/-- The text without the white space around it. -/
def trim (t : Text) : Text := trimEnd (trimStart t)

theorem isSpace_eq_false_of_isDigit {u : CodeUnit} (h : isDigit u = true) : isSpace u = false := by
  simp only [isDigit, Bool.and_eq_true, decide_eq_true_eq, UInt16.le_iff_toNat_le] at h
  simp [isSpace, spaceRanges, UInt16.le_iff_toNat_le] at h ⊢
  omega

theorem trimStart_of_isDigit {u : CodeUnit} (h : isDigit u = true) (rest : Text) :
    trimStart (u :: rest) = u :: rest := by
  simp [trimStart, isSpace_eq_false_of_isDigit h]

theorem trimStart_of_all_isDigit {t : Text} (h : t.all isDigit = true) : trimStart t = t := by
  cases t with
  | nil => rfl
  | cons u rest => exact trimStart_of_isDigit (List.all_eq_true.1 h u (by simp)) rest

theorem trim_of_all_isDigit {t : Text} (h : t.all isDigit = true) : trim t = t := by
  have hr : t.reverse.all isDigit = true := by simpa using h
  rw [trim, trimStart_of_all_isDigit h, trimEnd, trimStart_of_all_isDigit hr, List.reverse_reverse]

/-! ## Decimal numerals -/

/-- The value of a digit. -/
def digitValue (u : CodeUnit) : Nat := u.toNat - 48

/-- The number that a run of digits denotes, most significant digit first. -/
def natValue (digits : Text) : Nat := digits.foldl (fun n u => 10 * n + digitValue u) 0

/-- The decimal numeral of a natural number, without leading zeros. -/
def ofNat (n : Nat) : Text :=
  if n < 10 then [(48 + n).toUInt16] else ofNat (n / 10) ++ [(48 + n % 10).toUInt16]
termination_by n

/-- The decimal numeral of an integer, with a minus sign if it is negative. -/
def ofInt : Int → Text
  | .ofNat n => ofNat n
  | .negSucc n => 45 :: ofNat (n + 1)

/-! ## Signs -/

/-- A plus or a minus. -/
def isSign (u : CodeUnit) : Bool := u == 43 || u == 45

/-- Whether a minus stands in front. -/
def isNegative (t : Text) : Bool := t.head? == some 45

/-- The text without the sign in front. -/
def dropSign : Text → Text
  | [] => []
  | u :: rest => if isSign u then rest else u :: rest

theorem isSign_eq_false_of_isDigit {u : CodeUnit} (h : isDigit u = true) : isSign u = false := by
  simp only [isDigit, Bool.and_eq_true, decide_eq_true_eq, UInt16.le_iff_toNat_le] at h
  simp [isSign, ← UInt16.toNat_inj] at h ⊢
  omega

theorem dropSign_of_isDigit {u : CodeUnit} (h : isDigit u = true) (rest : Text) :
    dropSign (u :: rest) = u :: rest := by
  simp [dropSign, isSign_eq_false_of_isDigit h]

theorem isNegative_of_isDigit {u : CodeUnit} (h : isDigit u = true) (rest : Text) :
    isNegative (u :: rest) = false := by
  have hs := isSign_eq_false_of_isDigit h
  simp_all [isNegative, isSign]

/-! ## Putting texts together -/

/-- The text between double quotes. -/
def quoted (t : Text) : Text := 34 :: t ++ [34]

/-- The texts one after the other with a separator between neighbours. -/
def join (separator : Text) (ts : List Text) : Text := (ts.intersperse separator).flatten

end Text

end Calculator
