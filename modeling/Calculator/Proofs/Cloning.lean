import Calculator.Evaluator
import Calculator.Proofs.Validation

/-!
# Copies of evaluators

A copy of an evaluator is made from options that are checked again. They always pass, since an
evaluator holds its constants under identifiers and as values of its type. So a copy is never
refused, and it is equal to the evaluator that was copied.

* `Evaluator.resolve_settings`: the options of an evaluator resolve to themselves.
* `Evaluator.clone_eq`: a copy is equal to its original.
-/

namespace Calculator

variable {σ T : Type}

/-! ## A type given as a setting -/

theorem Representation.isFunction_encode (r : Representation T) (a : T) :
    (r.encode a).isFunction = false := by
  have haccepts : r.kind.accepts (r.encode a) = true := by
    rw [← r.isSome_decode?, r.decode?_encode]
    rfl
  cases h : r.encode a with
  | function accepted =>
    rw [h] at haccepts
    cases hk : r.kind <;> rw [hk] at haccepts <;> cases haccepts
  | _ => rfl

namespace NumericType

variable (type : NumericType σ T)

theorem isNumericType_setting : Options.IsNumericType type.setting where
  isObject := ⟨_, rfl⟩
  name := ⟨type.name, type.member_setting .name⟩
  literal := type.member_setting .literal
  operation m hm := by
    rw [type.member_setting]
    cases m with
    | name | literal | direct => cases hm
    | _ => rfl
  direct := by
    rw [type.member_setting, member?]
    split
    · exact .inl rfl
    · exact .inr (.inr (.inr ⟨_, rfl⟩))

theorem accepts_setting (s : Setting) :
    Options.accepts type.setting s = type.representation.kind.accepts s := by
  rw [Options.accepts, type.member_setting]
  rfl

end NumericType

/-! ## Options that resolve to themselves -/

/-- The given setting, or the one that all share. -/
def Choice.setting (shared : Setting) : Choice → Setting
  | .given s => s
  | .shared => shared

namespace Options

/-- Resolved options as a configuration value, where the shared source and the shared receiver of
warnings stand in for those that were not given. -/
def toSetting (o : Options) (source receiver : Setting) : Setting :=
  .object
    [(typeKey, o.type), (constantsKey, .object o.constants),
      (randomKey, o.random.setting source), (onWarningKey, o.onWarning.setting receiver)]

variable {options source receiver : Setting} {o : Options}

theorem members?_constantsOf (options : Setting) :
    (Setting.object (constantsOf options)).members? = some (constantsOf options) := by
  unfold constantsOf
  cases hc : options.member constantsKey with
  | object members =>
    cases hp : (Setting.object members).isPromise with
    | true =>
      simp only [Setting.members?, hp]
      rfl
    | false => simp [Setting.members?, hp]
  | _ => rfl

theorem setting_choose {P : Setting → Bool} {s shared : Setting}
    (hs : s = .undefined ∨ P s = true) (hshared : P shared = true) :
    P ((choose s).setting shared) = true := by
  cases s with
  | undefined => exact hshared
  | _ => exact hs.resolve_left nofun

theorem choose_eq_given {P : Setting → Bool} {s : Setting} (hs : P s = true)
    (hundefined : P .undefined = false) : choose s = .given s := by
  cases s with
  | undefined => exact absurd (hs.symm.trans hundefined) nofun
  | _ => rfl

/-- Resolved options pass the check again, and they resolve to themselves. -/
theorem resolve_toSetting (h : resolve options = .ok o) (hsource : isRandomSource source = true)
    (hreceiver : receiver.isFunction = true) :
    resolve (o.toSetting source receiver) =
      .ok { o with
        random := .given (o.random.setting source)
        onWarning := .given (o.onWarning.setting receiver) } := by
  obtain ⟨hfindings, rfl⟩ := resolve_eq_ok_iff.1 h
  have hvalid := (findingsBy_eq_nil_iff accepts options).1 hfindings
  have hrandom := setting_choose hvalid.random hsource
  have hwarning := setting_choose hvalid.onWarning hreceiver
  -- What stands in for missing settings passes the same checks as given ones.
  have hagain : IsValid accepts ((ofSetting options).toSetting source receiver) :=
    { known := ⟨_, rfl, by simp [knownKeys]⟩
      type := hvalid.type
      constants := .inr ⟨_, members?_constantsOf options, hvalid.of_mem_constantsOf⟩
      random := .inr hrandom
      onWarning := .inr hwarning }
  refine resolve_eq_ok_iff.2 ⟨(findingsBy_eq_nil_iff _ _).2 hagain, ?_⟩
  have hconstants : constantsOf ((ofSetting options).toSetting source receiver) =
      constantsOf options := by
    change ((Setting.object (constantsOf options)).members?).getD [] = _
    rw [members?_constantsOf]
    rfl
  have hagain_eq : ofSetting ((ofSetting options).toSetting source receiver) =
      { type := options.member typeKey
        constants := constantsOf ((ofSetting options).toSetting source receiver)
        random := choose ((choose (options.member randomKey)).setting source)
        onWarning := choose ((choose (options.member onWarningKey)).setting receiver) } := rfl
  rw [hagain_eq, hconstants, choose_eq_given hrandom rfl,
    choose_eq_given hwarning rfl]
  rfl

end Options

/-- An object without functions is no promise, so its members are listed. -/
theorem Setting.members?_object {members : List (Text × Setting)}
    (h : ∀ m ∈ members, m.2.isFunction = false) : (object members).members? = some members := by
  have hmember : ∀ name : Text, ((object members).member name).isFunction = false := by
    intro name
    rw [member]
    cases hlookup : members.lookup name with
    | none => rfl
    | some s =>
      obtain ⟨before, after, rfl, -⟩ := List.lookup_eq_some_iff.1 hlookup
      exact h (name, s) (List.mem_append_right before List.mem_cons_self)
  rw [members?, isPromise, hmember, Bool.false_and]
  rfl

namespace Evaluator

variable (type : NumericType σ T)

/-- The constants of a type as settings. -/
def encoded (constants : List (Text × T)) : List (Text × Setting) :=
  constants.map fun c => (c.1, type.representation.encode c.2)

/-- Values are no functions, so they do not make a promise. -/
theorem members?_encoded (constants : List (Text × T)) :
    (Setting.object (encoded type constants)).members? = some (encoded type constants) := by
  refine Setting.members?_object fun m hm => ?_
  obtain ⟨c, -, rfl⟩ := List.mem_map.1 hm
  exact type.representation.isFunction_encode c.2

theorem isValid_settings {constants : List (Text × T)}
    (hnames : ∀ c ∈ constants, c.1.isIdentifier = true) :
    Options.IsValid Options.accepts (settings type (.object (encoded type constants))) where
  known := ⟨_, rfl, by simp [Options.knownKeys]⟩
  type := type.isNumericType_setting
  constants := by
    refine .inr ⟨encoded type constants, members?_encoded type constants, fun m hm => ?_⟩
    obtain ⟨c, hc, rfl⟩ := List.mem_map.1 hm
    refine ⟨hnames c hc, (type.accepts_setting _).trans ?_⟩
    rw [← type.representation.isSome_decode?, type.representation.decode?_encode]
    rfl
  random := .inr rfl
  onWarning := .inr rfl

/-- The options of an evaluator pass the check, and they resolve to themselves. -/
theorem resolve_settings {constants : List (Text × T)}
    (hnames : ∀ c ∈ constants, c.1.isIdentifier = true) :
    Options.resolve (settings type (.object (encoded type constants))) =
      .ok
        { type := type.setting
          constants := encoded type constants
          random := .given sourceSetting
          onWarning := .given (.function none) } := by
  refine Options.resolve_eq_ok_iff.2
    ⟨(Options.findingsBy_eq_nil_iff _ _).2 (isValid_settings type hnames), ?_⟩
  have hconstants : Options.constantsOf (settings type (.object (encoded type constants))) =
      encoded type constants :=
    congrArg (Option.getD · []) (members?_encoded type constants)
  rw [Options.ofSetting, hconstants]
  rfl

/-! ## Copies -/

theorem decode_encoded (constants : List (Text × T)) :
    decode type (encoded type constants) = constants := by
  induction constants with
  | nil => rfl
  | cons c rest ih =>
    rw [encoded, List.map_cons, decode, List.filterMap_cons, type.representation.decode?_encode]
    exact congrArg (c :: ·) ih

/-- A new evaluator has the constants that its options resolve to. -/
theorem create_of_resolve {generator : Generator σ} {given : Setting} {o : Options}
    {constants : List (Text × T)} {initial : SymbolTable T}
    (hresolve : Options.resolve (settings type given) = .ok o)
    (hconstants : decode type o.constants = constants)
    (hnames : ∀ c ∈ constants, c.1.isIdentifier = true)
    (hinitial : type.initialSymbols constants = .ok initial) :
    create type generator given =
      .ok ⟨type, generator, constants, initial, initial, hnames, hinitial⟩ := by
  subst hconstants
  unfold create
  split
  · next issues h => cases hresolve.symm.trans h
  · next options h =>
    cases hresolve.symm.trans h
    dsimp only
    split
    · next f hf => cases hinitial.symm.trans hf
    · next initial' hi =>
      cases hinitial.symm.trans hi
      rfl

/-- An evaluator made from the options of another one is like that one when it was new. -/
theorem create_constantsSetting (e : Evaluator σ T) :
    create e.type e.generator e.constantsSetting = .ok { e with symbols := e.initial } :=
  create_of_resolve e.type (resolve_settings e.type e.isIdentifier_of_mem)
    (decode_encoded e.type e.constants) e.isIdentifier_of_mem e.initialSymbols_eq

/-- A copy is never refused, and it is equal to its original. -/
theorem clone_eq (e : Evaluator σ T) : e.clone = .ok e := by
  rw [clone, create_constantsSetting]
  rfl

end Evaluator

end Calculator
