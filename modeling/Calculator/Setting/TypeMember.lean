import Calculator.Arithmetic.NumericType

/-!
# Numeric types as settings

A numeric type is given as an object with a member for each thing that the type supplies.

* `TypeMember`: the members and their names.
* `NumericType.setting`: the object.
-/

namespace Calculator

/-- The members of a numeric type that is given as a setting. -/
inductive TypeMember
  | name | literal
  | parseLiteral | fromNumber | toNumber | isValue
  | add | subtract | multiply | divide | remainder | power | negate
  | random | direct | randomBetween
  deriving DecidableEq, Repr

namespace TypeMember

/-- The name of the member. -/
def text : TypeMember → Text
  | name => Text.ofString "name"
  | literal => Text.ofString "literal"
  | parseLiteral => Text.ofString "parseLiteral"
  | fromNumber => Text.ofString "fromNumber"
  | toNumber => Text.ofString "toNumber"
  | isValue => Text.ofString "isValue"
  | add => Text.ofString "add"
  | subtract => Text.ofString "subtract"
  | multiply => Text.ofString "multiply"
  | divide => Text.ofString "divide"
  | remainder => Text.ofString "remainder"
  | power => Text.ofString "power"
  | negate => Text.ofString "negate"
  | random => Text.ofString "random"
  | direct => Text.ofString "exact"
  | randomBetween => Text.ofString "randomBetween"

/-- All members. -/
def all : List TypeMember :=
  [name, literal, parseLiteral, fromNumber, toNumber, isValue, add, subtract, multiply, divide,
    remainder, power, negate, random, direct, randomBetween]

theorem mem_all (m : TypeMember) : m ∈ all := by
  cases m <;> decide

theorem text_injective {a b : TypeMember} (h : a.text = b.text) : a = b := by
  have all_injective : ∀ a ∈ all, ∀ b ∈ all, a.text = b.text → a = b := by decide +kernel
  exact all_injective a (mem_all a) b (mem_all b) h

/-- Whether the member is one of the operations that every type has. -/
def isOperation : TypeMember → Bool
  | name | literal | direct => false
  | _ => true

end TypeMember

/-- What a type holds as a member; a type without functions of its own has no member for them. -/
def NumericType.member? {σ T : Type} (type : NumericType σ T) : TypeMember → Option Setting
  | .name => some (.text type.name)
  | .literal => some .pattern
  | .isValue => some (.function (some type.representation.kind))
  | .direct =>
    if type.direct.isEmpty then none
    else some (.object (type.direct.map fun f => (f.1, .function none)))
  | _ => some (.function none)

/-- The type as a setting. -/
def NumericType.setting {σ T : Type} (type : NumericType σ T) : Setting :=
  .object (TypeMember.all.filterMap fun m => (type.member? m).map fun s => (m.text, s))

theorem NumericType.lookup_members {σ T : Type} (type : NumericType σ T) (ms : List TypeMember)
    (m : TypeMember) :
    (ms.filterMap fun m => (type.member? m).map fun s => (m.text, s)).lookup m.text =
      if m ∈ ms then type.member? m else none := by
  induction ms with
  | nil => rfl
  | cons k rest ih =>
    rw [List.filterMap_cons]
    by_cases hk : k = m
    · subst hk
      cases hs : type.member? k with
      | none => simp [ih, hs]
      | some s => simp
    · have ht : k.text ≠ m.text := fun h => hk (TypeMember.text_injective h)
      cases hs : type.member? k with
      | none => simp [ih, Ne.symm hk]
      | some s => simp [SymbolTable.lookup_cons_eq_ite, ht, ih, Ne.symm hk]

/-- A type given as a setting holds what the type holds. -/
theorem NumericType.member_setting {σ T : Type} (type : NumericType σ T) (m : TypeMember) :
    type.setting.member m.text = (type.member? m).getD .undefined := by
  simp [setting, Setting.member, lookup_members, TypeMember.mem_all]

end Calculator
