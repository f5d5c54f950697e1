import Calculator.Setting.Schema
import Calculator.Arithmetic.Int64

/-!
# The check of options

Options are checked against a schema by a library of schemas, of which only the documentation of its
combinators is known. That is enough to settle the check for every configuration value and for every
test of values that a numeric type may bring along.

* `Options.IsValid`: what is asked of a configuration value, said without the schema.
* `Options.resolveWith_validates`: exactly the valid values pass, and all others get their findings
  in order.

Proof. Each member of the shape gives the findings listed for it, and it is given up just when one
of them stops the check (`Options.Settles`). A finding on unknown names never does. So the last test
runs just when nothing stops, and then it sees the constants as they were given.
-/

namespace Calculator

namespace Options

/-! ## What is asked of options -/

/-- A numeric type: an object with a name, a pattern for its literals, all the operations and, if it
has built-in functions of its own, something that holds them. -/
structure IsNumericType (s : Setting) : Prop where
  isObject : ∃ members, s = .object members
  name : ∃ name, s.member TypeMember.name.text = .text name
  literal : s.member TypeMember.literal.text = .pattern
  operation : ∀ m : TypeMember, m.isOperation = true → (s.member m.text).isFunction = true
  direct : s.member TypeMember.direct.text = .undefined ∨
    s.member TypeMember.direct.text = .pattern ∨
    (∃ items, s.member TypeMember.direct.text = .array items) ∨
    ∃ members, s.member TypeMember.direct.text = .object members

/-- A configuration value that describes options. Which values of constants are accepted is up to
the test `test` of the numeric type. -/
structure IsValid (test : Setting → Setting → Bool) (options : Setting) : Prop where
  known : ∃ members, options.members? = some members ∧ ∀ m ∈ members, m.1 ∈ knownKeys
  type : IsNumericType (options.member typeKey)
  constants : options.member constantsKey = .undefined ∨
    ∃ members, (options.member constantsKey).members? = some members ∧
      ∀ m ∈ members, m.1.isIdentifier = true ∧ test (options.member typeKey) m.2 = true
  random : options.member randomKey = .undefined ∨
    isRandomSource (options.member randomKey) = true
  onWarning : options.member onWarningKey = .undefined ∨
    (options.member onWarningKey).isFunction = true

/-- In valid options all constants have proper names and accepted values. -/
theorem IsValid.of_mem_constantsOf {test : Setting → Setting → Bool} {options : Setting}
    (h : IsValid test options) :
    ∀ m ∈ constantsOf options,
      m.1.isIdentifier = true ∧ test (options.member typeKey) m.2 = true := by
  intro m hm
  unfold constantsOf at hm
  obtain hu | ⟨constants, hc, hall⟩ := h.constants
  · simp [hu, Setting.members?] at hm
  · rw [hc] at hm
    exact hall m hm

theorem isNumericType_iff (s : Setting) : isNumericType s = true ↔ IsNumericType s := by
  constructor
  · intro h
    unfold isNumericType at h
    split at h
    · next hs hname hliteral =>
      obtain ⟨hops, hdirect⟩ := Bool.and_eq_true_iff.1 h
      refine ⟨⟨_, rfl⟩, ⟨_, hname⟩, hliteral, fun m hm => ?_, ?_⟩
      · exact List.all_eq_true.1 hops m (List.mem_filter.2 ⟨TypeMember.mem_all m, hm⟩)
      · split at hdirect <;> simp_all
    · cases h
  · rintro ⟨⟨members, rfl⟩, ⟨name, hname⟩, hliteral, hops, hdirect⟩
    have hall : (TypeMember.all.filter TypeMember.isOperation).all
        (fun m => ((Setting.object members).member m.text).isFunction) = true :=
      List.all_eq_true.2 fun m hm => hops m (List.mem_filter.1 hm).2
    unfold isNumericType
    rw [hname, hliteral]
    dsimp only
    rw [hall, Bool.true_and]
    obtain h | h | ⟨_, h⟩ | ⟨_, h⟩ := hdirect <;> rw [h]

/-! ## Findings on one member -/

section Members

variable {options : Setting}

theorem typeFindings_eq_nil_iff :
    typeFindings options = [] ↔ IsNumericType (options.member typeKey) := by
  rw [← isNumericType_iff, typeFindings]
  split <;> simp_all

theorem constantsFindings_eq_nil_iff :
    constantsFindings options = [] ↔ options.member constantsKey = .undefined ∨
      ∃ members, (options.member constantsKey).members? = some members ∧
        ∀ m ∈ members, m.1.isIdentifier = true := by
  unfold constantsFindings
  split
  · next h => simp [h]
  · next hu =>
    split
    · next hm => simpa [hm] using hu
    · next members hm => simp [hm, show options.member constantsKey ≠ .undefined from hu]

theorem randomFindings_eq_nil_iff :
    randomFindings options = [] ↔ options.member randomKey = .undefined ∨
      isRandomSource (options.member randomKey) = true := by
  unfold randomFindings
  split
  · next h => simp [h]
  · next hu => split <;> simp_all

theorem onWarningFindings_eq_nil_iff :
    onWarningFindings options = [] ↔ options.member onWarningKey = .undefined ∨
      (options.member onWarningKey).isFunction = true := by
  unfold onWarningFindings
  cases options.member onWarningKey <;> simp [Setting.isFunction]

theorem unknownFindings_eq_nil_iff {members : List (Text × Setting)} :
    unknownFindings members = [] ↔ ∀ m ∈ members, m.1 ∈ knownKeys := by
  unfold unknownFindings unrecognized
  split
  · next h =>
    have hall := List.filter_eq_nil_iff.1 h
    simpa using hall
  · next hne =>
    refine iff_of_false (by simp) fun hall => hne (List.filter_eq_nil_iff.2 ?_)
    simpa using hall

theorem valueFindings_eq_nil_iff {test : Setting → Setting → Bool} :
    valueFindings test options = [] ↔ ∀ m ∈ constantsOf options, m.1 ≠ reservedName →
      test (options.member typeKey) m.2 = true := by
  simp [valueFindings]

end Members

theorem shapeFindings_eq_nil_iff {options : Setting} {members : List (Text × Setting)} :
    shapeFindings options members = [] ↔ typeFindings options = [] ∧
      constantsFindings options = [] ∧ randomFindings options = [] ∧
      onWarningFindings options = [] ∧ unknownFindings members = [] := by
  simp [shapeFindings]

/-- The names of constants that give no finding do not include the reserved one, so nothing is left
out when values are looked at. -/
theorem accepted_of_findings {test : Setting → Setting → Bool} {options : Setting}
    (hnames : constantsFindings options = []) (hvalues : valueFindings test options = []) :
    ∀ m ∈ constantsOf options, test (options.member typeKey) m.2 = true := by
  intro m hm
  refine valueFindings_eq_nil_iff.1 hvalues m hm fun hreserved => ?_
  have hid := isIdentifier_of_constantsFindings hnames m hm
  rw [hreserved, isIdentifier_reservedName] at hid
  cases hid

theorem findingsBy_eq_nil_iff (test : Setting → Setting → Bool) (options : Setting) :
    findingsBy test options = [] ↔ IsValid test options := by
  constructor
  · intro h
    obtain ⟨members, hm, hshape, hvalues⟩ := eq_nil_of_findingsBy h
    obtain ⟨htype, hconstants, hrandom, hwarning, hunknown⟩ := shapeFindings_eq_nil_iff.1 hshape
    have haccepted := accepted_of_findings hconstants hvalues
    refine ⟨⟨members, hm, unknownFindings_eq_nil_iff.1 hunknown⟩, typeFindings_eq_nil_iff.1 htype,
      ?_, randomFindings_eq_nil_iff.1 hrandom, onWarningFindings_eq_nil_iff.1 hwarning⟩
    obtain hu | ⟨constants, hc, hnames⟩ := constantsFindings_eq_nil_iff.1 hconstants
    · exact .inl hu
    · refine .inr ⟨constants, hc, fun m hmem => ⟨hnames m hmem, haccepted m ?_⟩⟩
      rwa [constantsOf, hc]
  · intro h
    obtain ⟨members, hm, hknown⟩ := h.known
    have hconstants : constantsFindings options = [] :=
      constantsFindings_eq_nil_iff.2 <| h.constants.imp_right fun ⟨constants, hc, hall⟩ =>
        ⟨constants, hc, fun m hmem => (hall m hmem).1⟩
    have hshape : shapeFindings options members = [] :=
      shapeFindings_eq_nil_iff.2 ⟨typeFindings_eq_nil_iff.2 h.type, hconstants,
        randomFindings_eq_nil_iff.2 h.random, onWarningFindings_eq_nil_iff.2 h.onWarning,
        unknownFindings_eq_nil_iff.2 hknown⟩
    have hvalues : valueFindings test options = [] :=
      valueFindings_eq_nil_iff.2 fun m hmem _ => (h.of_mem_constantsOf m hmem).2
    simp [findingsBy, hm, hshape, hvalues]

theorem any_stops_iff (issues : List Issue) :
    issues.any stops = true ↔ ∃ i ∈ issues, i.kind = .custom ∨ i.kind = .invalidType := by
  simp [stops]

/-! ## The schema -/

/-- A check that gives these findings and, unless one of them stops it, this setting. -/
structure Settles (c : Checked) (findings : List Issue) (w : Setting) : Prop where
  findings_eq : c.findings = findings
  value_eq : c.value? = if findings.any stops then none else some w

theorem flatMap_unless {α β : Type} (l : List α) (p : α → Bool) (f : α → β) :
    (l.flatMap fun a => if p a then [] else [f a]) = (l.filter fun a => !p a).map f := by
  induction l with
  | nil => rfl
  | cons a rest ih =>
    rw [List.flatMap_cons, ih]
    cases h : p a <;> simp [h]

namespace Settles

variable {c : Checked} {findings : List Issue} {w : Setting}

theorem value?_eq_none_iff (h : Settles c findings w) :
    c.value? = none ↔ findings.any stops = true := by
  rw [h.value_eq]
  split <;> simp_all

theorem value?_eq_some (h : Settles c findings w) (hs : findings.any stops = false) :
    c.value? = some w := by
  rw [h.value_eq, hs]
  rfl

end Settles

section Schema

variable {lib : SchemaLibrary} (hlib : lib.Documented)
include hlib

theorem settles_custom (test : Setting → Bool) (message : Text) (path : List PathStep)
    (v : Setting) :
    Settles (lib.check (lib.custom test message) path v)
      (if test v then [] else [⟨.custom, path, message⟩]) v := by
  rw [hlib.custom]
  split
  · exact ⟨rfl, rfl⟩
  · exact ⟨rfl, rfl⟩

theorem settles_type (options : Setting) :
    Settles (lib.check (typeSchema lib) [.key typeKey] (options.member typeKey))
      (typeFindings options) (options.member typeKey) :=
  settles_custom hlib _ _ _ _

/-- Names that are no identifiers do not stop the check. -/
theorem settles_constants (options : Setting) :
    ∃ w, Settles
        (lib.check (constantsSchema lib) [.key constantsKey] (options.member constantsKey))
        (constantsFindings options) w ∧
      w.entries = (constantsOf options).filter (·.1 != reservedName) := by
  unfold constantsFindings constantsOf constantsSchema
  split
  · next h =>
    rw [h, hlib.optional_undefined]
    exact ⟨.undefined, ⟨rfl, rfl⟩, rfl⟩
  · next hu =>
    rw [hlib.optional _ _ _ hu]
    split
    · next hm =>
      rw [hlib.record_notAnObject _ _ _ _ hm, hm]
      exact ⟨.undefined, ⟨rfl, rfl⟩, rfl⟩
    · next members hm =>
      refine ⟨.object (members.filter (·.1 != reservedName)), ⟨?_, ?_⟩, by rw [hm]; rfl⟩
      · rw [hlib.record_findings _ _ _ _ _ hm]
        simp only [hlib.regex, hlib.unknown, List.append_nil]
        exact flatMap_unless members _ _
      · have hkept : ∀ m ∈ members,
            (lib.check (lib.regex Text.isIdentifier
                (Text.ofString "Constant names must be identifiers"))
              ([.key constantsKey] ++ [.key m.1]) (.text m.1)).value? = some (.text m.1) ∧
            (lib.check lib.unknown ([.key constantsKey] ++ [.key m.1]) m.2).value? = some m.2 :=
          fun m _ => ⟨by rw [hlib.regex], by rw [hlib.unknown]⟩
        rw [hlib.record_value _ _ _ _ _ hm hkept, if_neg (by simp [stops])]

theorem settles_optional_custom (test : Setting → Bool) (message : Text) (path : List PathStep)
    (v : Setting) :
    Settles (lib.check (lib.optional (lib.custom test message)) path v)
      (match v with
        | .undefined => []
        | v => if test v then [] else [⟨.custom, path, message⟩]) v := by
  split
  · rw [hlib.optional_undefined]
    exact ⟨rfl, rfl⟩
  · next hv =>
    rw [hlib.optional _ _ _ hv]
    exact settles_custom hlib _ _ _ _

theorem settles_random (options : Setting) :
    Settles (lib.check (randomSchema lib) [.key randomKey] (options.member randomKey))
      (randomFindings options) (options.member randomKey) :=
  settles_optional_custom hlib _ _ _ _

theorem settles_onWarning (options : Setting) :
    Settles (lib.check (onWarningSchema lib) [.key onWarningKey] (options.member onWarningKey))
      (onWarningFindings options) (options.member onWarningKey) := by
  have h := settles_optional_custom hlib Setting.isFunction (Text.ofString "Expected a function")
    [.key onWarningKey] (options.member onWarningKey)
  unfold onWarningFindings
  cases hv : options.member onWarningKey <;> rw [hv] at h <;> exact h

/-- The shape settles all at once: it is given up just when one of its members is. -/
theorem check_shape {options : Setting} {members : List (Text × Setting)}
    (hm : options.members? = some members) :
    (lib.check (lib.strictObject (shape lib)) [] options).findings =
        shapeFindings options members ∧
      if (shapeFindings options members).any stops then
        (lib.check (lib.strictObject (shape lib)) [] options).value? = none
      else ∃ w, (lib.check (lib.strictObject (shape lib)) [] options).value? = some w ∧
        w.member typeKey = options.member typeKey ∧
        (w.member constantsKey).entries = (constantsOf options).filter (·.1 != reservedName) := by
  have htype := settles_type hlib options
  have hrandom := settles_random hlib options
  have hwarning := settles_onWarning hlib options
  obtain ⟨constants, hconstants, hentries⟩ := settles_constants hlib options
  have hunknown : (unknownFindings members).any stops = false := by
    unfold unknownFindings unrecognized
    split <;> rfl
  refine ⟨?_, ?_⟩
  · rw [hlib.strictObject_findings _ _ _ _ hm]
    simp only [shape, List.flatMap_cons, List.flatMap_nil, List.nil_append, List.append_nil,
      htype.findings_eq, hconstants.findings_eq, hrandom.findings_eq, hwarning.findings_eq]
    simp only [shapeFindings, List.append_assoc]
    rfl
  -- Unknown names do not stop the check, so it is up to the four members.
  have hany : (shapeFindings options members).any stops =
      ((typeFindings options).any stops || (constantsFindings options).any stops ||
        (randomFindings options).any stops || (onWarningFindings options).any stops) := by
    simp only [shapeFindings, List.any_append, hunknown, Bool.or_false]
  split
  · next hstops =>
    simp only [hany, Bool.or_eq_true] at hstops
    refine hlib.strictObject_given_up _ _ _ _ hm ?_
    obtain ((h | h) | h) | h := hstops
    · exact ⟨_, .head _, htype.value?_eq_none_iff.2 h⟩
    · exact ⟨_, .tail _ (.head _), hconstants.value?_eq_none_iff.2 h⟩
    · exact ⟨_, .tail _ (.tail _ (.head _)), hrandom.value?_eq_none_iff.2 h⟩
    · exact ⟨_, .tail _ (.tail _ (.tail _ (.head _))), hwarning.value?_eq_none_iff.2 h⟩
  · next hstops =>
    simp only [hany, Bool.not_eq_true, Bool.or_eq_false_iff] at hstops
    obtain ⟨⟨⟨ht, hc⟩, hr⟩, hw⟩ := hstops
    have htypeValue := htype.value?_eq_some ht
    have hconstantsValue := hconstants.value?_eq_some hc
    obtain ⟨w, hvalue, hmembers⟩ := hlib.strictObject_value (shape lib) [] options members hm
      (by change knownKeys.Nodup; decide) (by
        simp only [shape, List.forall_mem_cons, List.nil_append]
        exact ⟨by rw [htypeValue]; rfl, by rw [hconstantsValue]; rfl,
          by rw [hrandom.value?_eq_some hr]; rfl, by rw [hwarning.value?_eq_some hw]; rfl, by simp⟩)
    refine ⟨w, hvalue, ?_, ?_⟩
    · have hkept := hmembers _ (.head _) (by decide : typeKey ≠ reservedName)
      exact (Option.some.inj (htypeValue.symm.trans hkept)).symm
    · have hkept := hmembers _ (.tail _ (.head _)) (by decide : constantsKey ≠ reservedName)
      rw [← Option.some.inj (hconstantsValue.symm.trans hkept), hentries]

omit hlib in
theorem typeFindings_eq_nil_of_not_stops {options : Setting} {members : List (Text × Setting)}
    (h : ¬ (shapeFindings options members).any stops = true) : typeFindings options = [] := by
  unfold typeFindings
  split
  · rfl
  · next hn => exact absurd (by simp [shapeFindings, typeFindings, hn, unexpected, stops]) h

omit hlib in
/-- The last test sees the constants that are not lost, and these as they were given. -/
theorem misfits_eq {options w : Setting} (test : Setting → Setting → Bool)
    (htype : w.member typeKey = options.member typeKey) (hnumeric : typeFindings options = [])
    (hentries :
      (w.member constantsKey).entries = (constantsOf options).filter (·.1 != reservedName)) :
    (misfits test w).map (Issue.under []) = valueFindings test options := by
  have hn : isNumericType (options.member typeKey) = true :=
    (isNumericType_iff _).2 (typeFindings_eq_nil_iff.1 hnumeric)
  simp only [misfits, valueFindings, htype, hn, hentries, if_true, List.filter_filter,
    List.map_map]
  simp only [Bool.and_comm]
  rfl

/-- The check gives the listed findings, and gives the options up only with a finding. -/
theorem check_schema (test : Setting → Setting → Bool) (options : Setting) :
    (lib.check (schema lib test) [] options).findings = findingsBy test options ∧
      ((lib.check (schema lib test) [] options).value? = none → findingsBy test options ≠ []) := by
  unfold schema findingsBy
  rw [hlib.superRefine]
  cases hm : options.members? with
  | none =>
    rw [hlib.strictObject_notAnObject _ _ _ hm]
    exact ⟨rfl, fun _ => by simp⟩
  | some members =>
    obtain ⟨hfindings, hvalue⟩ := check_shape hlib hm
    dsimp only
    split at hvalue
    · next hstops =>
      -- The last test has nothing to look at.
      rw [hfindings, hvalue, if_pos hstops]
      refine ⟨List.append_nil _, fun _ h => ?_⟩
      rw [h] at hstops
      cases hstops
    · next hstops =>
      obtain ⟨w, hw, htype, hentries⟩ := hvalue
      rw [hfindings, hw, if_neg hstops]
      refine ⟨?_, fun h => by cases h⟩
      rw [← misfits_eq test htype (typeFindings_eq_nil_of_not_stops hstops) hentries]
      rfl

/-- The options, or the listed findings. -/
theorem resolveWith_eq (test : Setting → Setting → Bool) (options : Setting) :
    resolveWith lib test options =
      match findingsBy test options with
      | [] => .ok (ofSetting options)
      | issues => .error issues := by
  obtain ⟨hfindings, hvalue⟩ := check_schema hlib test options
  unfold resolveWith
  generalize lib.check (schema lib test) [] options = checked at hfindings hvalue
  obtain ⟨findings, value?⟩ := checked
  dsimp only at hfindings hvalue
  rw [← hfindings] at hvalue ⊢
  cases findings with
  | nil =>
    cases value? with
    | none => exact absurd rfl (hvalue rfl)
    | some w => rfl
  | cons issue rest => rfl

end Schema

/-- **The check of options.** By any library of schemas that does what its documentation says, and
by any test of values: exactly the valid configuration values give their options. All others give
findings, at least one: for a value that is no plain object a single one at the root; for other
values the findings on the type, the constants, the random source, the receiver of warnings and
unknown names, in this order, and then, unless one of those stops the check, one for each constant
whose value is refused. A value under the reserved name is lost before it can be refused, but then
its name is a finding. -/
theorem resolveWith_validates {lib : SchemaLibrary} (hlib : lib.Documented)
    (test : Setting → Setting → Bool) (options : Setting) :
    (IsValid test options ↔ resolveWith lib test options = .ok (ofSetting options)) ∧
    (¬ IsValid test options →
      ∃ issues, resolveWith lib test options = .error issues ∧ issues ≠ [] ∧
        (options.members? = none → issues = [notAnObject [] options]) ∧
        ∀ members, options.members? = some members →
          issues = typeFindings options ++ constantsFindings options ++ randomFindings options ++
            onWarningFindings options ++ unknownFindings members ++
            if ∃ i ∈ shapeFindings options members, i.kind = .custom ∨ i.kind = .invalidType
              then [] else valueFindings test options) ∧
    resolveWith lib accepts options = resolve options := by
  have hresolve := resolveWith_eq hlib test options
  rw [← findingsBy_eq_nil_iff]
  refine ⟨⟨fun h => by rw [hresolve, h], fun h => ?_⟩, fun h => ?_, resolveWith_eq hlib _ options⟩
  · rw [hresolve] at h
    split at h
    · assumption
    · cases h
  · have herror : resolveWith lib test options = .error (findingsBy test options) := by
      rw [hresolve]
      split
      · contradiction
      · rfl
    refine ⟨findingsBy test options, herror, h, fun hm => by simp [findingsBy, hm], ?_⟩
    intro members hm
    simp only [findingsBy, hm, any_stops_iff]
    split
    · exact (List.append_nil _).symm
    · rfl

end Options

/-! ## A library that does what the documentation says -/

namespace SchemaLibrary

theorem assemble_of_none {parts : List (Text × Checked)} (h : ∃ p ∈ parts, p.2.value? = none) :
    assemble parts = none := by
  obtain ⟨p, hp, hnone⟩ := h
  refine if_neg fun hall => ?_
  have hsome := List.all_eq_true.1 hall p hp
  rw [hnone] at hsome
  cases hsome

theorem assemble_of_isSome {parts : List (Text × Checked)} (h : ∀ p ∈ parts, p.2.value?.isSome) :
    assemble parts =
      some (.object ((parts.filter (·.1 != Options.reservedName)).map fun p =>
        (p.1, p.2.value?.getD .undefined))) :=
  if_pos (List.all_eq_true.2 h)

section Direct

variable {path : List PathStep} {v : Setting} {members : List (Text × Setting)}

theorem direct_record_value {names values : direct.Schema} (hm : v.members? = some members)
    (hparts : ∀ m ∈ members,
      (direct.check names (path ++ [.key m.1]) (.text m.1)).value? = some (.text m.1) ∧
        (direct.check values (path ++ [.key m.1]) m.2).value? = some m.2) :
    (direct.check (direct.record names values) path v).value? =
      some (.object (members.filter (·.1 != Options.reservedName))) := by
  have hnames : (members.all fun m =>
      (direct.check names (path ++ [.key m.1]) (.text m.1)).value?.isSome) = true :=
    List.all_eq_true.2 fun m hmem => by rw [(hparts m hmem).1]; rfl
  have hvalues : ∀ p ∈ members.map fun m =>
      (m.1, direct.check values (path ++ [.key m.1]) m.2), p.2.value?.isSome := by
    intro p hp
    obtain ⟨m, hmem, rfl⟩ := List.mem_map.1 hp
    rw [(hparts m hmem).2]
    rfl
  have hvalue : (direct.check (direct.record names values) path v).value? =
      assemble (members.map fun m => (m.1, direct.check values (path ++ [.key m.1]) m.2)) := by
    simp only [direct, hm]
    exact if_pos hnames
  rw [hvalue, assemble_of_isSome hvalues, List.filter_map, List.map_map]
  -- Each member is put back as it was.
  refine congrArg (some ∘ Setting.object) ?_
  refine (List.map_congr_left fun m hmem => ?_).trans (List.map_id _)
  exact congrArg (fun w => (m.1, Option.getD w Setting.undefined))
    (hparts m (List.mem_filter.1 hmem).1).2

theorem direct_strictObject_value {shape : List (Text × direct.Schema)}
    (hm : v.members? = some members) (hnodup : (shape.map (·.1)).Nodup)
    (hsome : ∀ p ∈ shape,
      (direct.check p.2 (path ++ [.key p.1]) (v.member p.1)).value?.isSome) :
    ∃ w, (direct.check (direct.strictObject shape) path v).value? = some w ∧
      ∀ p ∈ shape, p.1 ≠ Options.reservedName →
        (direct.check p.2 (path ++ [.key p.1]) (v.member p.1)).value? = some (w.member p.1) := by
  let parts := shape.map fun p => (p.1, direct.check p.2 (path ++ [.key p.1]) (v.member p.1))
  let kept := (parts.filter (·.1 != Options.reservedName)).map fun p =>
    (p.1, p.2.value?.getD Setting.undefined)
  have hparts : ∀ p ∈ parts, p.2.value?.isSome := by
    intro p hp
    obtain ⟨q, hq, rfl⟩ := List.mem_map.1 hp
    exact hsome q hq
  have hkept : (kept.map (·.1)).Nodup := by
    have hnames : kept.map (·.1) = (parts.filter (·.1 != Options.reservedName)).map (·.1) :=
      List.map_map
    have hshape : parts.map (·.1) = shape.map (·.1) := List.map_map
    rw [hnames]
    exact (hshape ▸ hnodup).sublist (List.filter_sublist.map _)
  refine ⟨.object kept, ?_, fun p hp hname => ?_⟩
  · simp only [direct, hm]
    exact assemble_of_isSome hparts
  · have hmem : (p.1, (direct.check p.2 (path ++ [.key p.1]) (v.member p.1)).value?.getD
        .undefined) ∈ kept :=
      List.mem_map.2 ⟨_, List.mem_filter.2 ⟨List.mem_map_of_mem hp, by simpa using hname⟩, rfl⟩
    obtain ⟨w, hw⟩ := Option.isSome_iff_exists.1 (hsome p hp)
    rw [Setting.member, SymbolTable.lookup_of_mem hkept hmem, Option.getD_some, hw]
    rfl

end Direct

theorem direct_documented : direct.Documented where
  unknown _ _ := rfl
  custom _ _ _ _ := rfl
  regex _ _ _ _ := rfl
  optional_undefined _ _ := rfl
  optional inner path v hv := by simp only [direct]
  record_notAnObject names values path v hm := by simp only [direct, hm]
  record_findings names values path v members hm := by simp only [direct, hm]
  record_value names values path v members hm hparts := direct_record_value hm hparts
  strictObject_notAnObject shape path v hm := by simp only [direct, hm]
  strictObject_findings shape path v members hm := by
    simp only [direct, hm]
    exact congrArg (· ++ _) (List.flatMap_map _ _ _)
  strictObject_given_up shape path v members hm hnone := by
    simp only [direct, hm]
    obtain ⟨p, hp, hgivenUp⟩ := hnone
    exact assemble_of_none ⟨_, List.mem_map_of_mem hp, hgivenUp⟩
  strictObject_value shape path v members hm hnodup hsome :=
    direct_strictObject_value hm hnodup hsome
  superRefine _ _ _ _ := rfl

end SchemaLibrary

namespace Options

/-- Constants of integers among which one has a name that is no identifier and two are no integers.
-/
theorem resolveWith_validates_constants :
    SchemaLibrary.direct.Documented ∧
      resolveWith .direct accepts
          (.object [(typeKey, (int64 (σ := Unit)).setting),
            (constantsKey, .object [(Text.ofString "2x", .null), (Text.ofString "n", .integer 1),
              (Text.ofString "m", .boolean true)])]) =
        .error
          [⟨.invalidString, [.key constantsKey, .key (Text.ofString "2x")],
              Text.ofString "Constant names must be identifiers"⟩,
            ⟨.custom, [.key constantsKey, .key (Text.ofString "2x")],
              Text.ofString "Expected a value of type int64"⟩,
            ⟨.custom, [.key constantsKey, .key (Text.ofString "m")],
              Text.ofString "Expected a value of type int64"⟩] := by
  refine ⟨SchemaLibrary.direct_documented, ?_⟩
  rw [(resolveWith_validates SchemaLibrary.direct_documented accepts _).2.2]
  rfl

end Options

end Calculator
