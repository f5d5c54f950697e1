import Calculator.SymbolTable

/-!
# Configuration values

Options reach the library as values of any shape; a setting is such a value.

* `Setting.record`: an object with its names in their listed order.
* `Setting.member`: what an object holds under a name.
* `ValueKind.accepts`: the settings that represent values of a numeric type.
-/

namespace Calculator

/-- The kinds of settings that represent numbers. -/
inductive ValueKind
  | number | integer
  deriving DecidableEq, Repr

/-- A configuration value. -/
inductive Setting
  | undefined
  | null
  | boolean (b : Bool)
  | number (x : Float)
  | integer (n : Int)
  | text (t : Text)
  /-- A function; as a test of values it accepts one kind of them, or nothing. -/
  | function (accepted : Option ValueKind)
  /-- A compiled text pattern. -/
  | pattern
  | array (items : List Setting)
  /-- Names and what they hold; no name occurs twice. -/
  | object (members : List (Text × Setting))
  deriving Inhabited

/-- Whether a setting represents a number of this kind. -/
def ValueKind.accepts : ValueKind → Setting → Bool
  | number, .number _ => true
  | integer, .integer _ => true
  | _, _ => false

namespace Setting

/-! ## Objects -/

/-- The number that a name spells if it is an index: a decimal numeral without leading zeros, below
`2 ^ 32 - 1`. -/
def index? (name : Text) : Option Nat :=
  let n := Text.natValue name
  if name.all Text.isDigit && name == Text.ofNat n && n < 4294967295 then some n else none

/-- Members in the order in which an object lists them: indices first and ascending, then the other
names as they came. -/
def arrange (members : List (Text × Setting)) : List (Text × Setting) :=
  let indices := members.filterMap fun m => (index? m.1).map fun n => (n, m)
  (indices.mergeSort fun a b => a.1 ≤ b.1).map (·.2) ++
    members.filter fun m => (index? m.1).isNone

/-- The object that holds the pairs; a later pair overwrites an earlier one of the same name. -/
def record (pairs : List (Text × Setting)) : Setting :=
  object (arrange (SymbolTable.ofList pairs).entries)

/-- The object with further pairs put into it. -/
def extend (base : Setting) (pairs : List (Text × Setting)) : Setting :=
  match base with
  | object members => record (members ++ pairs)
  | _ => record pairs

/-- What an object holds under a name. -/
def member : Setting → Text → Setting
  | object members, name => (members.lookup name).getD undefined
  | _, _ => undefined

/-! ## Kinds -/

/-- Whether the setting is a function. -/
def isFunction : Setting → Bool
  | function _ => true
  | _ => false

/-- An object with functions under the names `then` and `catch` is a promise. -/
def isPromise (s : Setting) : Bool :=
  (s.member (Text.ofString "then")).isFunction && (s.member (Text.ofString "catch")).isFunction

/-- The members of a setting that counts as a plain object: no promise, and a pattern has none. -/
def members? (s : Setting) : Option (List (Text × Setting)) :=
  match s with
  | object members => if s.isPromise then none else some members
  | pattern => some []
  | _ => none

/-- The name of the kind of a setting. -/
def kindName (s : Setting) : Text :=
  match s with
  | undefined => Text.ofString "undefined"
  | null => Text.ofString "null"
  | boolean _ => Text.ofString "boolean"
  | number x => if x.isNaN then Text.ofString "nan" else Text.ofString "number"
  | integer _ => Text.ofString "bigint"
  | text _ => Text.ofString "string"
  | function _ => Text.ofString "function"
  | array _ => Text.ofString "array"
  | pattern => Text.ofString "object"
  | object _ => Text.ofString (if s.isPromise then "promise" else "object")

end Setting

end Calculator
