import FieldRules.Batch
import FieldRules.Proofs.Evaluation

/-!
# Unknown checks

The evaluation of a parsed rule fails only because the registry does not have some check. No result
ends it early, so it fails wherever in the rule such a check stands, and with the first one in the
order of the tokens. Brackets that do not match come before all of this.
-/

namespace FieldRules

/-- What stands before the first `:` of an identifier, without the white space around it. -/
def Token.checkName (text : String) : String :=
  String.ofList (Text.trim (text.toList.takeWhile (· != ':')))

theorem Token.name_ofIdentifier (text : String) :
    (Invocation.ofIdentifier text).name = checkName text := by
  unfold Invocation.ofIdentifier checkName
  cases hdrop : text.toList.dropWhile (· != ':') with
  | nil =>
      have happend := List.takeWhile_append_dropWhile (p := (· != ':')) (l := text.toList)
      rw [hdrop, List.append_nil] at happend
      simp only [hdrop, happend]
  | cons colon params => simp only [hdrop]

namespace Registry

variable {registry : Registry}

/-- The identifiers before some identifier name checks of the registry, and that one does not: the
check it names is `name`. -/
def FirstUnknown (registry : Registry) (tokens : List Token) (name : String) : Prop :=
  ∃ before text after, tokens = before ++ .identifier text :: after ∧
    Token.checkName text = name ∧ registry.get? name = none ∧
    ∀ earlier, .identifier earlier ∈ before → registry.get? (Token.checkName earlier) ≠ none

theorem unknown?_eq_some_iff {token : Token} {name : String} :
    registry.unknown? token = some name ↔
      ∃ text, token = .identifier text ∧ Token.checkName text = name ∧
        registry.get? name = none := by
  cases token with
  | identifier text =>
      simp only [unknown?, Token.name_ofIdentifier, Option.ite_none_right_eq_some,
        Option.isNone_iff_eq_none, Option.some.injEq]
      constructor
      · rintro ⟨hget, rfl⟩
        exact ⟨text, rfl, rfl, hget⟩
      · rintro ⟨text', htext, rfl, hget⟩
        cases htext
        exact ⟨hget, rfl⟩
  | _ => simp [unknown?]

theorem unknown?_identifier_eq_none_iff {text : String} :
    registry.unknown? (.identifier text) = none ↔ registry.get? (Token.checkName text) ≠ none := by
  simp [unknown?, Token.name_ofIdentifier]

theorem firstUnknown?_eq_some_iff {tokens : List Token} {name : String} :
    registry.firstUnknown? tokens = some name ↔ registry.FirstUnknown tokens name := by
  rw [firstUnknown?, List.findSome?_eq_some_iff]
  constructor
  · rintro ⟨before, token, after, rfl, htoken, hbefore⟩
    obtain ⟨text, rfl, hname, hget⟩ := unknown?_eq_some_iff.mp htoken
    refine ⟨before, text, after, rfl, hname, hget, fun earlier hearlier ↦ ?_⟩
    exact unknown?_identifier_eq_none_iff.mp (hbefore _ hearlier)
  · rintro ⟨before, text, after, rfl, hname, hget, hbefore⟩
    refine ⟨before, .identifier text, after, rfl, ?_, fun token htoken ↦ ?_⟩
    · exact unknown?_eq_some_iff.mpr ⟨text, rfl, hname, hget⟩
    · cases token with
      | identifier earlier => exact unknown?_identifier_eq_none_iff.mpr (hbefore earlier htoken)
      | _ => rfl

theorem exists_firstUnknown_iff {tokens : List Token} :
    (∃ name, registry.FirstUnknown tokens name) ↔
      ∃ text, .identifier text ∈ tokens ∧ registry.get? (Token.checkName text) = none := by
  constructor
  · rintro ⟨name, before, text, after, rfl, rfl, hget, -⟩
    exact ⟨text, by simp, hget⟩
  · rintro ⟨text, hmem, hget⟩
    have hsome : (registry.firstUnknown? tokens).isSome := by
      refine List.findSome?_isSome_iff.mpr ⟨_, hmem, ?_⟩
      rw [unknown?_eq_some_iff.mpr ⟨text, rfl, rfl, hget⟩]
      rfl
    obtain ⟨name, hname⟩ := Option.isSome_iff_exists.mp hsome
    exact ⟨name, firstUnknown?_eq_some_iff.mp hname⟩

end Registry

theorem Rule.exists_parse_eq_ok_iff (rule : Rule) :
    (∃ tree, rule.parse = .ok tree) ↔ Token.Balanced rule.toTokens :=
  Tree.exists_ofTokens_eq_ok_iff rule.toTokens

theorem Setting.evaluate_eq_error_iff (setting : Setting) {rule : Rule} {tree : Tree}
    (h : rule.parse = .ok tree) (e : EvalError) :
    setting.evaluate tree = .error e ↔
      ∃ name, setting.registry.FirstUnknown rule.toTokens name ∧ e = .unknownCheck name := by
  obtain ⟨body, hbody, rfl⟩ := Tree.exists_body_of_ofTokens h
  rw [evaluate_ofBody, result, resultFrom_eq_error_iff, hbody]
  simp only [Registry.firstUnknown?_eq_some_iff]

theorem ValidationError.mapError_eval_eq_error_iff {outcome : Except EvalError Bool}
    {e : ValidationError} :
    outcome.mapError .eval = .error e ↔ ∃ cause, outcome = .error cause ∧ e = .eval cause := by
  cases outcome <;> simp [Except.mapError, eq_comm]

theorem Registry.value_judge (registry : Registry) (table : Fields Value) (value : Value)
    {rule : Rule} {tree : Tree} (h : rule.parse = .ok tree) :
    (registry.judge table value rule).value =
      (Setting.evaluate ⟨registry, table, value⟩ tree).mapError .eval := by
  simp [judge, h, Setting.evaluate]

/-- What a value is judged by when it is validated alone. -/
def Registry.alone (registry : Registry) (value : Value) : Setting :=
  ⟨registry, (∅ : Fields Value).insert singleField value, value⟩

theorem Registry.validateOne_eq_evaluate (registry : Registry) (value : Value) {rule : Rule}
    {tree : Tree} (h : rule.parse = .ok tree) :
    registry.validateOne value rule =
      ((registry.alone value).evaluate tree).mapError .eval :=
  registry.value_judge _ value h

theorem Registry.validateOne_eq_error_iff (registry : Registry) (value : Value) {rule : Rule}
    {tree : Tree} (h : rule.parse = .ok tree) (e : ValidationError) :
    registry.validateOne value rule = .error e ↔
      ∃ name, registry.FirstUnknown rule.toTokens name ∧ e = .eval (.unknownCheck name) := by
  have hevaluate := (registry.alone value).evaluate_eq_error_iff h
  rw [registry.validateOne_eq_evaluate value h, ValidationError.mapError_eval_eq_error_iff]
  constructor
  · rintro ⟨cause, hcause, rfl⟩
    obtain ⟨name, hname, rfl⟩ := (hevaluate cause).mp hcause
    exact ⟨name, hname, rfl⟩
  · rintro ⟨name, hname, rfl⟩
    exact ⟨_, (hevaluate _).mpr ⟨name, hname, rfl⟩, rfl⟩

theorem Registry.validateOne_of_parse_error (registry : Registry) (value : Value) {rule : Rule}
    {e : ParseError} (h : rule.parse = .error e) :
    registry.validateOne value rule = .error (.parse e) := by
  simp [validateOne, validationOne, judge, h]

/-- A rule with matching brackets fails exactly if it names an unknown check somewhere, and with the
first one, whatever the value and the other fields are. Any other rule does not get so far. -/
theorem Rule.fails_at_firstUnknown (rule : Rule) :
    (Token.Balanced rule.toTokens → ∃ tree, rule.parse = .ok tree ∧ ∀ setting : Setting,
        ((∃ e, setting.evaluate tree = .error e) ↔ ∃ text, .identifier text ∈ rule.toTokens ∧
          setting.registry.get? (Token.checkName text) = none) ∧
        ∀ e, setting.evaluate tree = .error e ↔
          ∃ name, setting.registry.FirstUnknown rule.toTokens name ∧ e = .unknownCheck name) ∧
      ∀ (registry : Registry) (value : Value),
        (Token.Balanced rule.toTokens → ∀ e, registry.validateOne value rule = .error e ↔
          ∃ name, registry.FirstUnknown rule.toTokens name ∧ e = .eval (.unknownCheck name)) ∧
        (¬ Token.Balanced rule.toTokens → ∃ e, rule.parse = .error e ∧
          registry.validateOne value rule = .error (.parse e)) := by
  refine ⟨fun balanced ↦ ?_, fun registry value ↦ ⟨fun balanced ↦ ?_, fun unbalanced ↦ ?_⟩⟩
  · obtain ⟨tree, hparse⟩ := rule.exists_parse_eq_ok_iff.mpr balanced
    refine ⟨tree, hparse, fun setting ↦ ⟨?_, setting.evaluate_eq_error_iff hparse⟩⟩
    simp only [setting.evaluate_eq_error_iff hparse, ← Registry.exists_firstUnknown_iff]
    constructor
    · rintro ⟨e, name, hname, -⟩
      exact ⟨name, hname⟩
    · rintro ⟨name, hname⟩
      exact ⟨_, name, hname, rfl⟩
  · obtain ⟨tree, hparse⟩ := rule.exists_parse_eq_ok_iff.mpr balanced
    exact registry.validateOne_eq_error_iff value hparse
  · cases hparse : rule.parse with
    | ok tree => exact absurd (rule.exists_parse_eq_ok_iff.mp ⟨tree, hparse⟩) unbalanced
    | error e => exact ⟨e, rfl, registry.validateOne_of_parse_error value hparse⟩

/-- With no checks at all, `(min:3 && odd)` fails at `min`, and `min )` at its bracket. -/
theorem Rule.fails_at_firstUnknown_min :
    (∃ tree, Rule.parse (.tokens [.groupOpen, .identifier "min:3", .combinator .and,
        .identifier "odd", .groupClose]) = .ok tree ∧
      Setting.evaluate ⟨.empty, ∅, .absent⟩ tree = .error (.unknownCheck "min")) ∧
      Registry.empty.validateOne .absent (.tokens [.identifier "min", .groupClose]) =
        .error (.parse (.unmatchedClose 1)) := by
  constructor
  · have balanced := Body.balanced_tokens <| .group (.leaf (.identifier "min:3")
      (.leaf (.combinator .and) (.leaf (.identifier "odd") .empty))) .empty
    obtain ⟨tree, hparse, hfails⟩ := (fails_at_firstUnknown (.tokens _)).1 balanced
    refine ⟨tree, hparse, ((hfails _).2 _).mpr ⟨"min", ?_, rfl⟩⟩
    exact ⟨[.groupOpen], "min:3", _, rfl, rfl, rfl, by simp⟩
  · have unbalanced : ¬ Token.Balanced [.identifier "min", .groupClose] := by
      intro h
      exact absurd h.closes_eq (by decide)
    obtain ⟨e, hparse, hvalidate⟩ :=
      ((fails_at_firstUnknown (.tokens _)).2 .empty .absent).2 unbalanced
    rw [hvalidate]
    cases hparse
    rfl

end FieldRules
