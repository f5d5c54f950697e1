import Calculator.Proofs.Cloning
import Calculator.Proofs.Refusal
import Calculator.Proofs.Spelling
import Calculator.Session

/-!
# One evaluation at once

`evaluate_oneShot`: an evaluation with given variables reports what a new evaluator reports when
the variables have been set one after the other. Nothing but bad names of variables makes it throw.

* `Setting.arrange_of_isIdentifier`: objects list identifiers in the order in which they came.
* `Evaluator.create_encoded`, `Evaluator.create_undefined`: evaluators with and without constants.
* `Session.executeAll_set`: variables set in a row.
* `Setup.report_float64`: the errors that evaluations over floats can end with.
-/

namespace Calculator

variable {σ T : Type}

/-! ## Objects that hold variables -/

theorem Text.not_all_isDigit_of_isIdentifier {name : Text} (h : name.isIdentifier = true) :
    name.all isDigit = false := by
  cases name with
  | nil => cases h
  | cons u rest =>
    obtain ⟨hletter, -⟩ := Bool.and_eq_true_iff.1 h
    cases hdigit : isDigit u with
    | false => rw [List.all_cons, hdigit, Bool.false_and]
    | true =>
      rw [isLetter_of_isDigit hdigit] at hletter
      cases hletter

namespace Setting

theorem index?_of_isIdentifier {name : Text} (h : name.isIdentifier = true) :
    index? name = none := by
  simp [index?, Text.not_all_isDigit_of_isIdentifier h]

/-- No identifier is an index, so identifiers are listed as they came. -/
theorem arrange_of_isIdentifier {members : List (Text × Setting)}
    (h : ∀ m ∈ members, m.1.isIdentifier = true) : arrange members = members := by
  have hindices : (members.filterMap fun m => (index? m.1).map fun n => (n, m)) = [] := by
    rw [List.filterMap_eq_nil_iff]
    intro m hm
    rw [index?_of_isIdentifier (h m hm)]
    rfl
  have hnames : (members.filter fun m => (index? m.1).isNone) = members := by
    rw [List.filter_eq_self]
    intro m hm
    rw [index?_of_isIdentifier (h m hm)]
    rfl
  rw [arrange, hnames, hindices, List.mergeSort_nil]
  rfl

/-- What is listed is what has been put in. -/
theorem mem_arrange_iff {members : List (Text × Setting)} {m : Text × Setting} :
    m ∈ arrange members ↔ m ∈ members := by
  simp only [arrange, List.mem_append, List.mem_map, List.mem_mergeSort, List.mem_filterMap,
    List.mem_filter, Option.map_eq_some_iff, Option.isNone_iff_eq_none]
  constructor
  · rintro (⟨_, ⟨m, hm, n, -, rfl⟩, rfl⟩ | ⟨hm, -⟩)
    · exact hm
    · exact hm
  · intro hm
    cases hindex : index? m.1 with
    | none => exact .inr ⟨hm, rfl⟩
    | some n => exact .inl ⟨(n, m), ⟨m, hm, n, hindex, rfl⟩, rfl⟩

/-- The object that holds distinct names with their values. -/
theorem record_eq {pairs : List (Text × Setting)} (h : (pairs.map (·.1)).Nodup) :
    record pairs = object (arrange pairs) :=
  congrArg (object <| arrange ·) (SymbolTable.entries_insertAll (t := .empty) h)

end Setting

/-! ## Evaluators with and without constants -/

namespace Evaluator

variable (type : NumericType σ T) (generator : Generator σ)

/-- A new evaluator has the constants that it is given. -/
theorem create_encoded {constants : List (Text × T)} {initial : SymbolTable T}
    (hnames : ∀ c ∈ constants, c.1.isIdentifier = true)
    (hinitial : type.initialSymbols constants = .ok initial) :
    create type generator (.object (encoded type constants)) =
      .ok ⟨type, generator, constants, initial, initial, hnames, hinitial⟩ :=
  create_of_resolve type (resolve_settings type hnames) (decode_encoded type constants) hnames
    hinitial

/-- Constants need not be given. -/
theorem create_undefined {initial : SymbolTable T}
    (hinitial : type.initialSymbols [] = .ok initial) :
    create type generator .undefined =
      .ok ⟨type, generator, [], initial, initial, List.forall_mem_nil _, hinitial⟩ := by
  have hvalid : Options.IsValid Options.accepts (settings type .undefined) :=
    { known := ⟨_, rfl, by simp [Options.knownKeys]⟩
      type := type.isNumericType_setting
      constants := .inl rfl
      random := .inr rfl
      onWarning := .inr rfl }
  exact create_of_resolve type
    (Options.resolve_eq_ok_iff.2 ⟨(Options.findingsBy_eq_nil_iff _ _).2 hvalid, rfl⟩) rfl
    (List.forall_mem_nil _) hinitial

/-- A name that is no identifier is found, whatever else is given. -/
theorem exists_of_not_isIdentifier {constants : List (Text × T)} {members : List (Text × Setting)}
    (hmembers : ∀ m, m ∈ members ↔ m ∈ encoded type constants)
    (h : ∃ c ∈ constants, c.1.isIdentifier = false) :
    ∃ issues, ∀ generator : Generator σ,
      create type generator (.object members) = .error (.error (.invalidOptions issues)) := by
  have hplain : (Setting.object members).members? = some members := by
    refine Setting.members?_object fun m hm => ?_
    obtain ⟨c, -, rfl⟩ := List.mem_map.1 ((hmembers m).1 hm)
    exact type.representation.isFunction_encode c.2
  have hconstants : Options.constantsOf (settings type (.object members)) = members :=
    congrArg (Option.getD · []) hplain
  cases hresolve : Options.resolve (settings type (.object members)) with
  | ok o =>
    obtain ⟨c, hc, hname⟩ := h
    have hnames := Options.isIdentifier_of_resolve hresolve
    rw [Options.constants_of_resolve hresolve, hconstants] at hnames
    have hident := hnames _ ((hmembers _).2 (List.mem_map.2 ⟨c, hc, rfl⟩))
    rw [hname] at hident
    cases hident
  | error issues =>
    refine ⟨issues, fun generator => ?_⟩
    unfold create
    split
    · next issues' h =>
      cases hresolve.symm.trans h
      rfl
    · next o h => cases hresolve.symm.trans h

end Evaluator

/-! ## Variables set in a row -/

/-- Variables are set one after the other, and each value is given back. -/
theorem Session.executeAll_set (e : Evaluator σ T) (source : σ) (pairs : List (Text × T))
    (rest : List (Nat × Command T)) :
    (Session.start e source).executeAll (pairs.map (fun p => (0, .set p.1 p.2)) ++ rest) =
      let (replies, s) :=
        (Session.start { e with symbols := e.symbols.insertAll pairs } source).executeAll rest
      (pairs.map (fun p => .result (.ok p.2)) ++ replies, s) := by
  induction pairs generalizing e with
  | nil => rfl
  | cons p pairs ih =>
    rw [List.map_cons, List.cons_append, Session.executeAll]
    exact congrArg (fun r => (Reply.result (.ok p.2) :: r.1, r.2)) (ih (e.setVariable p.1 p.2))

/-! ## Errors over floats -/

/-- The codes of the errors that evaluations over floats end with. -/
def Error.floatCodes : List ErrorCode := [.lexical, .grammar, .unknownVariable, .unknownFunction]

theorem Fault.IsUnknown.exists_error {f : Fault} (h : f.IsUnknown) :
    ∃ e, f = .error e ∧ e.code ∈ Error.floatCodes := by
  cases h with
  | «variable» name => exact ⟨_, rfl, by simp [Error.floatCodes, Error.code]⟩
  | function name arity => exact ⟨_, rfl, by simp [Error.floatCodes, Error.code]⟩

theorem Fault.IsRefusal.exists_error {f : Fault} (h : f.IsRefusal) :
    ∃ e, f = .error e ∧ e.code ∈ Error.floatCodes := by
  cases h with
  | grammar state token input => exact ⟨_, rfl, by simp [Error.floatCodes, Error.code]⟩
  | strayInput fragment position => exact ⟨_, rfl, by simp [Error.floatCodes, Error.code]⟩

/-- An evaluation over floats ends with a value or with an error of one of four classes. -/
theorem Setup.report_float64 (generator : Generator σ) (input : Text) (store : Store σ Float) :
    ∃ report : Except Error Float,
      Fault.catchErrors (Setup.run ⟨float64, generator, input⟩ store).result = .ok report ∧
      ∀ e, report = .error e → e.code ∈ Error.floatCodes := by
  cases hresult : (Setup.run ⟨float64, generator, input⟩ store).result with
  | ok a => exact ⟨.ok a, rfl, nofun⟩
  | error f =>
    have herror : ∃ e, f = .error e ∧ e.code ∈ Error.floatCodes := by
      rcases raised_or_refuses hresult (float64_raises generator fun _ => False)
        (float64_readRaises fun _ => False) with hraised | hunknown | ⟨_, _, _, rfl, hrefuses⟩
      · exact hraised.elim
      · exact hunknown.exists_error
      · obtain ⟨c, item, -, -, -, -, rfl⟩ := hrefuses
        exact (c.isRefusal_refusal _ item).exists_error
    obtain ⟨e, rfl, hcode⟩ := herror
    refine ⟨.error e, rfl, ?_⟩
    rintro _ ⟨⟩
    exact hcode

/-! ## The evaluation -/

/-- **One evaluation at once.** Let distinct names be given values. If all of them are identifiers,
one evaluation with these variables does not throw. It reports what a new evaluator reports when the
variables have been set one after the other, and the errors of it are none about operations or about
the automaton. If one of the names is no identifier, the options are refused whatever the text is. -/
theorem evaluate_oneShot (generator : Generator σ) (pairs : List (Text × Float))
    (hdistinct : (pairs.map (·.1)).Nodup) :
    let bindings : Setting := .record (pairs.map fun p => (p.1, .number p.2))
    ((∀ p ∈ pairs, p.1.isIdentifier = true) →
      ∃ e, Evaluator.create float64 generator .undefined = .ok e ∧
        ∀ (input : Text) (source : σ), ∃ report,
          evaluate generator input bindings source = .ok report ∧
          ((Session.start e source).executeAll
            (pairs.map (fun p => (0, .set p.1 p.2)) ++ [(0, .tryEvaluate input)])).1 =
              pairs.map (fun p => .result (.ok p.2)) ++ [.tried (.ok report)] ∧
          ∀ e, report = .error e →
            e.code ∉ [ErrorCode.evaluation, .notAccepted, .assignmentTarget, .notCallable]) ∧
    ((∃ p ∈ pairs, p.1.isIdentifier = false) →
      ∃ issues, ∀ (input : Text) (source : σ),
        evaluate generator input bindings source = .error (.error (.invalidOptions issues))) := by
  intro bindings
  let type : NumericType σ Float := float64
  have hbindings : bindings = .object (Setting.arrange (Evaluator.encoded type pairs)) := by
    refine Setting.record_eq ?_
    rwa [List.map_map]
  constructor
  · intro hnames
    have hencoded : ∀ m ∈ Evaluator.encoded type pairs, m.1.isIdentifier = true := by
      intro m hm
      obtain ⟨p, hp, rfl⟩ := List.mem_map.1 hm
      exact hnames p hp
    rw [hbindings, Setting.arrange_of_isIdentifier hencoded]
    refine ⟨_, Evaluator.create_undefined type generator rfl, fun input source => ?_⟩
    obtain ⟨report, hreport, hcodes⟩ := Setup.report_float64 generator input
      ⟨.ofList ((piName, ErrorFunction.pi) :: pairs), source⟩
    have hdisjoint : ∀ code ∈ Error.floatCodes,
        code ∉ [ErrorCode.evaluation, .notAccepted, .assignmentTarget, .notCallable] := by decide
    refine ⟨report, ?_, ?_, fun e he => hdisjoint _ (hcodes e he)⟩
    · rw [evaluate, Evaluator.create_encoded type generator hnames rfl]
      exact hreport
    · -- The table that constants make up is the one that sets make of the constant alone.
      rw [Session.executeAll_set]
      exact congrArg (fun r => pairs.map (fun p => Reply.result (.ok p.2)) ++ [.tried r]) hreport
  · rintro ⟨p, hp, hname⟩
    obtain ⟨issues, hissues⟩ := Evaluator.exists_of_not_isIdentifier type
      (fun _ => Setting.mem_arrange_iff) ⟨p, hp, hname⟩
    refine ⟨issues, fun input source => ?_⟩
    rw [hbindings, evaluate, hissues]
    rfl

/-- The circle constant and the name of a built-in function are given other values; a numeral cannot
be given any. -/
theorem evaluate_oneShot_rebound :
    let generator := RandomSource.generator
    let source : RandomSource := .seeded 1
    let pi : Text × Float := (Text.ofString "pi", 3)
    let sine : Text × Float := (Text.ofString "sin", 0.5)
    let numeral : Text × Float := (Text.ofString "1", 2)
    let input := Text.ofString "sin(pi) + sin"
    (∃ e report, Evaluator.create float64 generator .undefined = .ok e ∧
      evaluate generator input (.record [(pi.1, .number pi.2), (sine.1, .number sine.2)]) source
        = .ok report ∧
      ((Session.start e source).executeAll
        [(0, .set pi.1 pi.2), (0, .set sine.1 sine.2), (0, .tryEvaluate input)]).1 =
          [.result (.ok pi.2), .result (.ok sine.2), .tried (.ok report)]) ∧
    ∃ issues,
      evaluate generator input (.record [(pi.1, .number pi.2), (numeral.1, .number numeral.2)])
        source = .error (.error (.invalidOptions issues)) := by
  intro generator source pi sine numeral input
  obtain ⟨hagree, -⟩ := evaluate_oneShot generator [pi, sine] (by decide)
  obtain ⟨-, hrefuse⟩ := evaluate_oneShot generator [pi, numeral] (by decide)
  obtain ⟨e, hcreate, hreports⟩ := hagree
    (List.forall_mem_cons.2 ⟨by decide, List.forall_mem_singleton.2 (by decide)⟩)
  obtain ⟨report, hreport, hreplies, -⟩ := hreports input source
  obtain ⟨issues, hissues⟩ := hrefuse ⟨numeral, by simp, by decide⟩
  exact ⟨⟨e, report, hcreate, hreport, hreplies⟩, issues, hissues input source⟩

end Calculator
