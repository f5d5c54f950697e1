import Calculator.Setting.TypeMember

/-!
# Options

An evaluator is set up from a configuration value: the numeric type, the constants, the random
source and the receiver of warnings. Checking it collects every finding in a fixed order.

* `Options.findings`: what is wrong with a configuration value.
* `Options.resolve`: the options of a value without findings, with defaults filled in.
-/

namespace Calculator

/-- A source or a receiver: the given one, or the one shared by all that are given none. -/
inductive Choice
  | given (s : Setting)
  | shared

/-- Options with the defaults filled in. -/
structure Options where
  type : Setting
  constants : List (Text × Setting)
  random : Choice
  onWarning : Choice

namespace Options

/-! ## Names -/

/-- The name of the numeric type among the options. -/
def typeKey : Text := Text.ofString "type"

/-- The name of the constants among the options. -/
def constantsKey : Text := Text.ofString "constants"

/-- The name of the random source among the options. -/
def randomKey : Text := Text.ofString "random"

/-- The name of the receiver of warnings among the options. -/
def onWarningKey : Text := Text.ofString "onWarning"

/-- The name under which no constant is ever held: a value given under it is dropped unseen. -/
def reservedName : Text := Text.ofString "__proto__"

/-- The reserved name is among the bad names of constants, so nothing is dropped from valid ones. -/
theorem isIdentifier_reservedName : reservedName.isIdentifier = false := by decide +kernel

/-- The names that options may have. -/
def knownKeys : List Text := [typeKey, constantsKey, randomKey, onWarningKey]

/-! ## Shapes -/

/-- A numeric type has a name, a pattern for its literals and all the operations; its own built-in
functions, if it has any, are held by something with members. -/
def isNumericType (s : Setting) : Bool :=
  match s, s.member TypeMember.name.text, s.member TypeMember.literal.text with
  | .object _, .text _, .pattern =>
    ((TypeMember.all.filter TypeMember.isOperation).all fun m => (s.member m.text).isFunction) &&
      match s.member TypeMember.direct.text with
      | .undefined | .object _ | .array _ | .pattern => true
      | _ => false
  | _, _, _ => false

/-- A random source draws floats and words. -/
def isRandomSource (s : Setting) : Bool :=
  match s with
  | .object _ =>
    (s.member (Text.ofString "nextFloat")).isFunction &&
      (s.member (Text.ofString "nextU32")).isFunction
  | _ => false

/-- Whether the test of values that a numeric type brings along accepts a setting. -/
def accepts (type value : Setting) : Bool :=
  match type.member TypeMember.isValue.text with
  | .function (some kind) => kind.accepts value
  | _ => false

/-- The name of a numeric type. -/
def typeName (type : Setting) : Text :=
  match type.member TypeMember.name.text with
  | .text name => name
  | _ => []

/-! ## Findings -/

/-- A finding on something that is not an object. -/
def notAnObject (path : List PathStep) (found : Setting) : Issue where
  kind := .invalidType
  path
  message :=
    match found with
    | .undefined => Text.ofString "Required"
    | _ => Text.ofString "Expected object, received " ++ found.kindName

/-- A finding on a member that is not what it should be. -/
def unexpected (key : Text) (expected : String) : Issue :=
  ⟨.custom, [.key key], Text.ofString expected⟩

/-- The finding on the numeric type. -/
def typeFindings (options : Setting) : List Issue :=
  if isNumericType (options.member typeKey) then []
  else [unexpected typeKey "Expected a numeric type such as float64 or int64"]

/-- The findings on the constants as a whole and on their names. -/
def constantsFindings (options : Setting) : List Issue :=
  match options.member constantsKey with
  | .undefined => []
  | constants =>
    match constants.members? with
    | none => [notAnObject [.key constantsKey] constants]
    | some members =>
      (members.filter fun m => !m.1.isIdentifier).map fun m =>
        ⟨.invalidString, [.key constantsKey, .key m.1],
          Text.ofString "Constant names must be identifiers"⟩

/-- The finding on the random source. -/
def randomFindings (options : Setting) : List Issue :=
  match options.member randomKey with
  | .undefined => []
  | source =>
    if isRandomSource source then []
    else [unexpected randomKey "Expected an object with nextFloat() and nextU32()"]

/-- The finding on the receiver of warnings. -/
def onWarningFindings (options : Setting) : List Issue :=
  match options.member onWarningKey with
  | .undefined | .function _ => []
  | _ => [unexpected onWarningKey "Expected a function"]

/-- The finding on names that an object should not have. -/
def unrecognized (path : List PathStep) (known : List Text) (members : List (Text × Setting)) :
    List Issue :=
  match (members.map (·.1)).filter (· ∉ known) with
  | [] => []
  | unknown =>
    let names := unknown.map fun name => 39 :: name ++ [39]
    [⟨.unrecognizedKeys, path,
      Text.ofString "Unrecognized key(s) in object: " ++ Text.join (Text.ofString ", ") names⟩]

/-- The finding on names that options do not have. -/
def unknownFindings (members : List (Text × Setting)) : List Issue :=
  unrecognized [] knownKeys members

/-- The finding on the value of a constant. -/
def misfit (type : Setting) (name : Text) : Issue :=
  ⟨.custom, [.key constantsKey, .key name],
    Text.ofString "Expected a value of type " ++ typeName type⟩

/-- The constants that a configuration value gives, in order. -/
def constantsOf (options : Setting) : List (Text × Setting) :=
  ((options.member constantsKey).members?).getD []

/-- The findings on the values of the constants, of which `test` decides for a type and a value.
What stands under the reserved name is no value of a constant. -/
def valueFindings (test : Setting → Setting → Bool) (options : Setting) : List Issue :=
  let type := options.member typeKey
  ((constantsOf options).filter fun m => m.1 != reservedName && !test type m.2).map fun m =>
    misfit type m.1

/-- Whether a finding is so grave that the values of the constants are not looked at. -/
def stops (i : Issue) : Bool := i.kind == .custom || i.kind == .invalidType

/-- The findings on the members of a configuration value one by one. -/
def shapeFindings (options : Setting) (members : List (Text × Setting)) : List Issue :=
  typeFindings options ++ constantsFindings options ++ randomFindings options ++
    onWarningFindings options ++ unknownFindings members

/-- All findings on a configuration value, in order, by a test of values. -/
def findingsBy (test : Setting → Setting → Bool) (options : Setting) : List Issue :=
  match options.members? with
  | none => [notAnObject [] options]
  | some members =>
    let shape := shapeFindings options members
    if shape.any stops then shape else shape ++ valueFindings test options

/-- All findings on a configuration value, in order. -/
def findings (options : Setting) : List Issue := findingsBy accepts options

/-- The given setting, or the shared one in the place of none. -/
def choose : Setting → Choice
  | .undefined => .shared
  | s => .given s

/-- The options that a configuration value gives, with the defaults filled in. -/
def ofSetting (options : Setting) : Options where
  type := options.member typeKey
  constants := constantsOf options
  random := choose (options.member randomKey)
  onWarning := choose (options.member onWarningKey)

/-- The options that a configuration value gives, or all its findings. -/
def resolve (options : Setting) : Except (List Issue) Options :=
  match findings options with
  | [] => .ok (ofSetting options)
  | issues => .error issues

/-! ## Facts about resolved options -/

theorem resolve_eq_ok_iff {options : Setting} {o : Options} :
    resolve options = .ok o ↔ findings options = [] ∧ o = ofSetting options := by
  unfold resolve
  split
  · next h => simp [h, eq_comm]
  · next h => simpa using fun h' => absurd h' h

theorem constants_of_resolve {options : Setting} {o : Options} (h : resolve options = .ok o) :
    o.constants = constantsOf options := by
  rw [(resolve_eq_ok_iff.1 h).2]
  rfl

theorem eq_nil_of_findingsBy {test : Setting → Setting → Bool} {options : Setting}
    (h : findingsBy test options = []) :
    ∃ members, options.members? = some members ∧ shapeFindings options members = [] ∧
      valueFindings test options = [] := by
  unfold findingsBy at h
  split at h
  · cases h
  · next members hm =>
    refine ⟨members, hm, ?_⟩
    dsimp only at h
    split at h
    · next hstops => simp [h] at hstops
    · exact List.append_eq_nil_iff.1 h

/-- Names that are no identifiers are among the findings. -/
theorem isIdentifier_of_constantsFindings {options : Setting} (h : constantsFindings options = []) :
    ∀ m ∈ constantsOf options, m.1.isIdentifier = true := by
  intro m hm
  unfold constantsOf at hm
  unfold constantsFindings at h
  split at h
  · next hu => simp [hu, Setting.members?] at hm
  · split at h
    · cases h
    · next ms hms =>
      rw [hms] at hm
      have hall := List.filter_eq_nil_iff.1 (List.map_eq_nil_iff.1 h)
      simpa using hall m hm

theorem isIdentifier_of_resolve {options : Setting} {o : Options} (h : resolve options = .ok o) :
    ∀ m ∈ o.constants, m.1.isIdentifier = true := by
  obtain ⟨members, -, hshape, -⟩ := eq_nil_of_findingsBy (resolve_eq_ok_iff.1 h).1
  rw [constants_of_resolve h]
  refine isIdentifier_of_constantsFindings ?_
  simp only [shapeFindings, List.append_eq_nil_iff] at hshape
  exact hshape.1.1.1.2

end Options

end Calculator
