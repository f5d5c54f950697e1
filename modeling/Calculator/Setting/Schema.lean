import Calculator.Setting.Options

/-!
# Schemas

The shape of options is written down once, as a schema put together with the combinators of a
library of schemas, and the library checks a configuration value against it.

* `SchemaLibrary`: the combinators and the check; `SchemaLibrary.Documented`: what their
  documentation promises.
* `SchemaLibrary.direct`: a library whose schemas are their own checks.
* `Options.schema`: the schema of options.
* `Options.resolveWith`: the options of a value that passes the check, with defaults filled in.
-/

namespace Calculator

/-- The issue as it is reported for a part of a larger value. -/
def Issue.under (path : List PathStep) (i : Issue) : Issue := { i with path := path ++ i.path }

/-- What a check gives: its findings, and the checked value unless a finding breaks the check off.
-/
structure Checked where
  findings : List Issue
  value? : Option Setting

/-- Schemas of settings. A check is told the path to the value that it is given. -/
structure SchemaLibrary where
  Schema : Type
  check : Schema → List PathStep → Setting → Checked
  /-- Any value. -/
  unknown : Schema
  /-- A value that passes a test. -/
  custom : (Setting → Bool) → Text → Schema
  /-- A text of a form. -/
  regex : (Text → Bool) → Text → Schema
  /-- A value that may be missing. -/
  optional : Schema → Schema
  /-- A plain object by the schema of its names and the schema of what it holds. -/
  record : Schema → Schema → Schema
  /-- A plain object by the schemas of its members, without further members. -/
  strictObject : List (Text × Schema) → Schema
  /-- A value on which a last test makes findings of its own. -/
  superRefine : Schema → (Setting → List Issue) → Schema

/-- What the documentation promises of the combinators. -/
structure SchemaLibrary.Documented (lib : SchemaLibrary) : Prop where
  unknown : ∀ path v, lib.check lib.unknown path v = ⟨[], some v⟩
  /-- A value that fails a test is given up. -/
  custom : ∀ test message path v,
    lib.check (lib.custom test message) path v =
      if test v then ⟨[], some v⟩ else ⟨[⟨.custom, path, message⟩], none⟩
  /-- A text that is not of the form is kept. -/
  regex : ∀ form message path t,
    lib.check (lib.regex form message) path (.text t) =
      ⟨if form t then [] else [⟨.invalidString, path, message⟩], some (.text t)⟩
  optional_undefined : ∀ inner path,
    lib.check (lib.optional inner) path .undefined = ⟨[], some .undefined⟩
  optional : ∀ inner path v, v ≠ .undefined →
    lib.check (lib.optional inner) path v = lib.check inner path v
  record_notAnObject : ∀ names values path v, v.members? = none →
    lib.check (lib.record names values) path v = ⟨[Options.notAnObject path v], none⟩
  /-- Of each member first the name is checked and then what it holds. -/
  record_findings : ∀ names values path v members, v.members? = some members →
    (lib.check (lib.record names values) path v).findings =
      members.flatMap fun m =>
        (lib.check names (path ++ [.key m.1]) (.text m.1)).findings ++
          (lib.check values (path ++ [.key m.1]) m.2).findings
  /-- What stands under the reserved name is lost when the members are put together again. -/
  record_value : ∀ names values path v members, v.members? = some members →
    (∀ m ∈ members,
      (lib.check names (path ++ [.key m.1]) (.text m.1)).value? = some (.text m.1) ∧
        (lib.check values (path ++ [.key m.1]) m.2).value? = some m.2) →
    (lib.check (lib.record names values) path v).value? =
      some (.object (members.filter (·.1 != Options.reservedName)))
  strictObject_notAnObject : ∀ shape path v, v.members? = none →
    lib.check (lib.strictObject shape) path v = ⟨[Options.notAnObject path v], none⟩
  /-- The members of the shape are checked in its order, then the names that are not in it. -/
  strictObject_findings : ∀ shape path v members, v.members? = some members →
    (lib.check (lib.strictObject shape) path v).findings =
      (shape.flatMap fun p => (lib.check p.2 (path ++ [.key p.1]) (v.member p.1)).findings) ++
        Options.unrecognized path (shape.map (·.1)) members
  strictObject_given_up : ∀ shape path v members, v.members? = some members →
    (∃ p ∈ shape, (lib.check p.2 (path ++ [.key p.1]) (v.member p.1)).value? = none) →
    (lib.check (lib.strictObject shape) path v).value? = none
  strictObject_value : ∀ shape path v members, v.members? = some members →
    (shape.map (·.1)).Nodup →
    (∀ p ∈ shape, (lib.check p.2 (path ++ [.key p.1]) (v.member p.1)).value?.isSome) →
    ∃ w, (lib.check (lib.strictObject shape) path v).value? = some w ∧
      ∀ p ∈ shape, p.1 ≠ Options.reservedName →
        (lib.check p.2 (path ++ [.key p.1]) (v.member p.1)).value? = some (w.member p.1)
  /-- The last test looks at values that were not given up, with findings or without. -/
  superRefine : ∀ inner test path v,
    lib.check (lib.superRefine inner test) path v =
      let checked := lib.check inner path v
      let further := (checked.value?.map test).getD []
      ⟨checked.findings ++ further.map (Issue.under path), checked.value?⟩

namespace SchemaLibrary

/-- A check that fails on all but texts. -/
def textOf (form : Text → Bool) (message : Text) (path : List PathStep) : Setting → Checked
  | .text t => ⟨if form t then [] else [⟨.invalidString, path, message⟩], some (.text t)⟩
  | v => ⟨[⟨.invalidType, path, Text.ofString "Expected string, received " ++ v.kindName⟩], none⟩

/-- The checked values of members, put together unless one was given up. -/
def assemble (parts : List (Text × Checked)) : Option Setting :=
  if parts.all (·.2.value?.isSome) then
    let kept := parts.filter (·.1 != Options.reservedName)
    some (.object (kept.map fun p => (p.1, p.2.value?.getD .undefined)))
  else none

/-- The library in which each schema is its own check. -/
def direct : SchemaLibrary where
  Schema := List PathStep → Setting → Checked
  check schema := schema
  unknown _ v := ⟨[], some v⟩
  custom test message path v :=
    if test v then ⟨[], some v⟩ else ⟨[⟨.custom, path, message⟩], none⟩
  regex := textOf
  optional inner path v :=
    match v with
    | .undefined => ⟨[], some .undefined⟩
    | v => inner path v
  record names values path v :=
    match v.members? with
    | none => ⟨[Options.notAnObject path v], none⟩
    | some members =>
      let name (m : Text × Setting) := names (path ++ [.key m.1]) (.text m.1)
      let value (m : Text × Setting) := values (path ++ [.key m.1]) m.2
      { findings := members.flatMap fun m => (name m).findings ++ (value m).findings
        value? :=
          if members.all fun m => (name m).value?.isSome then
            assemble (members.map fun m => (m.1, value m))
          else none }
  strictObject shape path v :=
    match v.members? with
    | none => ⟨[Options.notAnObject path v], none⟩
    | some members =>
      let parts := shape.map fun p => (p.1, p.2 (path ++ [.key p.1]) (v.member p.1))
      { findings := (parts.flatMap (·.2.findings)) ++
          Options.unrecognized path (shape.map (·.1)) members
        value? := assemble parts }
  superRefine inner test path v :=
    let checked := inner path v
    let further := (checked.value?.map test).getD []
    ⟨checked.findings ++ further.map (Issue.under path), checked.value?⟩

end SchemaLibrary

/-- What an object holds, in order. -/
def Setting.entries : Setting → List (Text × Setting)
  | object members => members
  | _ => []

namespace Options

variable (lib : SchemaLibrary) (test : Setting → Setting → Bool)

/-- The last test on options: the constants must be values of the numeric type, as `test` decides
for a type and a value. -/
def misfits (options : Setting) : List Issue :=
  let type := options.member typeKey
  if isNumericType type then
    ((options.member constantsKey).entries.filter fun m => !test type m.2).map fun m =>
      misfit type m.1
  else []

/-- The schema of the numeric type. -/
def typeSchema : lib.Schema :=
  lib.custom isNumericType (Text.ofString "Expected a numeric type such as float64 or int64")

/-- The schema of the constants. -/
def constantsSchema : lib.Schema :=
  lib.optional <| lib.record
    (lib.regex Text.isIdentifier (Text.ofString "Constant names must be identifiers")) lib.unknown

/-- The schema of the random source. -/
def randomSchema : lib.Schema :=
  lib.optional <| lib.custom isRandomSource
    (Text.ofString "Expected an object with nextFloat() and nextU32()")

/-- The schema of the receiver of warnings. -/
def onWarningSchema : lib.Schema :=
  lib.optional <| lib.custom Setting.isFunction (Text.ofString "Expected a function")

/-- The members of options and their schemas. -/
def shape : List (Text × lib.Schema) :=
  [(typeKey, typeSchema lib), (constantsKey, constantsSchema lib), (randomKey, randomSchema lib),
    (onWarningKey, onWarningSchema lib)]

/-- The schema of options. -/
def schema : lib.Schema := lib.superRefine (lib.strictObject (shape lib)) (misfits test)

/-- The options that a configuration value gives, or all findings of the check against the schema.
-/
def resolveWith (options : Setting) : Except (List Issue) Options :=
  match lib.check (schema lib test) [] options with
  | ⟨[], some _⟩ => .ok (ofSetting options)
  | ⟨issues, _⟩ => .error issues

end Options

end Calculator
