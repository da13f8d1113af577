import FieldRules.Proofs.ClosedForm
import FieldRules.Proofs.Feeding
import FieldRules.Proofs.Registrations
import Mathlib.Data.List.DropRight

/-!
# Negations and negated checks

If `foo` and `notFoo` come from the same call, `! foo` can stand for `notFoo`, with one exception.
However many negations wait for the next result, they invert it once. So behind a waiting negation
the one in `! foo` has no effect of its own, while `notFoo` is inverted once more.
-/

namespace FieldRules

namespace Token

variable {before : List Token} {token : Token}

/-- The combinators and negations: they have no result, and they open and close nothing. -/
def isMark : Token → Bool
  | .combinator _ | .negation => true
  | _ => false

/-- A negation stands behind the last result of the innermost open group, or behind its start. -/
def Waiting (before : List Token) : Prop :=
  InForce .negation (fun token ↦ token.isMark = false) before

/-- The tokens without the negations that wait for the next result. -/
def bare (before : List Token) : List Token :=
  before.rdropWhile isMark ++ (before.rtakeWhile isMark).filter (· ≠ .negation)

theorem bare_append_negation (before : List Token) :
    bare (before ++ [.negation]) = bare before := by
  rw [bare, List.rdropWhile_concat_pos isMark before .negation rfl,
    List.rtakeWhile_concat_pos isMark before .negation rfl, List.filter_append]
  simp [bare]

theorem bare_append_combinator (before : List Token) (c : Combinator) :
    bare (before ++ [.combinator c]) = bare before ++ [.combinator c] := by
  rw [bare, List.rdropWhile_concat_pos isMark before (.combinator c) rfl,
    List.rtakeWhile_concat_pos isMark before (.combinator c) rfl, List.filter_append]
  simp [bare]

theorem bare_append_of_isMark_eq_false (before : List Token) (h : token.isMark = false) :
    bare (before ++ [token]) = before ++ [token] := by
  rw [bare, List.rdropWhile_concat_neg isMark before token (by simp [h]),
    List.rtakeWhile_concat_neg isMark before token (by simp [h])]
  simp

theorem filter_bare (before : List Token) :
    (bare before).filter isBracket = before.filter isBracket := by
  induction before using List.reverseRecOn with
  | nil => rfl
  | append_singleton before token ih =>
      cases token with
      | negation =>
          rw [bare_append_negation, ih, List.filter_append]
          simp [isBracket]
      | combinator c => rw [bare_append_combinator, List.filter_append, List.filter_append, ih]
      | identifier | groupOpen | groupClose => rw [bare_append_of_isMark_eq_false _ rfl]

theorem bare_eq_of_not_waiting (h : ¬ Waiting before) : bare before = before := by
  induction before using List.reverseRecOn with
  | nil => rfl
  | append_singleton before token ih =>
      rw [Waiting, inForce_append_singleton_iff, not_or] at h
      cases token with
      | negation => exact absurd rfl h.1
      | combinator c =>
          have hbefore : ¬ Waiting before := fun hwaiting ↦ h.2 ⟨by simp [isMark], hwaiting⟩
          rw [bare_append_combinator, ih hbefore]
      | identifier | groupOpen | groupClose => rw [bare_append_of_isMark_eq_false _ rfl]

end Token

open Token

namespace Fold

/-- The running result with a negation that waits for the next result. -/
def negated (fold : Fold) : Fold :=
  { fold with negateNext := true }

/-- The running result with none. -/
def settled (fold : Fold) : Fold :=
  { fold with negateNext := false }

def joined (c : Combinator) (fold : Fold) : Fold :=
  { fold with combinator := c }

theorem negated_add (fold : Fold) (outcome : Bool) :
    fold.negated.add outcome = fold.settled.add !outcome := by
  cases outcome <;> rfl

theorem map_modifyHead_modifyHead (f g : Fold → Fold) (folds : Except EvalError (List Fold)) :
    (folds.map (List.modifyHead g)).map (List.modifyHead f) =
      folds.map (List.modifyHead (f ∘ g)) := by
  cases folds with
  | error e => rfl
  | ok folds => exact congrArg Except.ok List.modifyHead_modifyHead

end Fold

namespace Setting

variable {setting : Setting} {folds : List Fold} {before : List Token}

/-! ## Marks behind some tokens -/

theorem feedAll_append_negation :
    setting.feedAll folds (before ++ [.negation]) =
      (setting.feedAll folds before).map (List.modifyHead Fold.negated) := by
  rw [feedAll_append_singleton]
  cases setting.feedAll folds before <;> rfl

theorem feedAll_append_combinator {c : Combinator} :
    setting.feedAll folds (before ++ [.combinator c]) =
      (setting.feedAll folds before).map (List.modifyHead (Fold.joined c)) := by
  rw [feedAll_append_singleton]
  cases setting.feedAll folds before <;> rfl

/-- Behind a result, and at the start of a group, no negation waits. -/
theorem map_settled_feed {token : Token} (h : token.isMark = false) :
    (setting.feed folds token).map (List.modifyHead Fold.settled) = setting.feed folds token := by
  cases token with
  | combinator c => cases h
  | negation => cases h
  | identifier text =>
      rw [feed]
      cases setting.outcome text with
      | error e => rfl
      | ok outcome => cases folds <;> rfl
  | groupOpen => rfl
  | groupClose => rcases folds with - | ⟨inner, - | ⟨fold, outer⟩⟩ <;> rfl

theorem feedAll_append_of_isMark_eq_false {token : Token} (h : token.isMark = false) :
    setting.feedAll folds (before ++ [token]) =
      (setting.feedAll folds (before ++ [token])).map (List.modifyHead Fold.settled) := by
  rw [feedAll_append_singleton]
  cases setting.feedAll folds before with
  | error e => rfl
  | ok folds => exact (map_settled_feed h).symm

theorem feedAll_bare (before : List Token) :
    setting.feedAll [{}] (bare before) =
      (setting.feedAll [{}] before).map (List.modifyHead Fold.settled) := by
  induction before using List.reverseRecOn with
  | nil => rfl
  | append_singleton before token ih =>
      cases token with
      | negation =>
          rw [bare_append_negation, ih, feedAll_append_negation, Fold.map_modifyHead_modifyHead]
          rfl
      | combinator c =>
          rw [bare_append_combinator, feedAll_append_combinator, feedAll_append_combinator, ih,
            Fold.map_modifyHead_modifyHead, Fold.map_modifyHead_modifyHead]
          rfl
      | identifier | groupOpen | groupClose =>
          rw [bare_append_of_isMark_eq_false _ rfl]
          exact feedAll_append_of_isMark_eq_false rfl

theorem feedAll_of_waiting (h : Waiting before) :
    setting.feedAll folds before =
      (setting.feedAll folds before).map (List.modifyHead Fold.negated) := by
  induction before using List.reverseRecOn with
  | nil => exact absurd h not_inForce_nil
  | append_singleton before token ih =>
      have hlast := inForce_append_singleton_iff.mp h
      cases token with
      | negation =>
          rw [feedAll_append_negation, Fold.map_modifyHead_modifyHead]
          rfl
      | combinator c =>
          obtain ⟨-, hbefore⟩ := hlast.resolve_left (by simp)
          rw [feedAll_append_combinator, ih hbefore, Fold.map_modifyHead_modifyHead,
            Fold.map_modifyHead_modifyHead]
          rfl
      | identifier | groupOpen | groupClose => exact absurd rfl (hlast.resolve_left (by simp)).1

/-! ## One identifier in its place -/

theorem feedAll_absorbed (h : Waiting before) (after : List Token) :
    setting.feedAll [{}] (before ++ .negation :: after) =
      setting.feedAll [{}] (before ++ after) := by
  rw [List.append_cons, feedAll_append, feedAll_append_negation, ← feedAll_of_waiting h,
    feedAll_append]

/-- Behind a negation an identifier counts as the opposite one does where none waits. -/
theorem feedAll_negation_identifier {text opposite : String} {outcome : Bool}
    (htext : setting.outcome text = .ok outcome)
    (hopposite : setting.outcome opposite = .ok !outcome) (before after : List Token) :
    setting.feedAll [{}] (before ++ .negation :: .identifier text :: after) =
      setting.feedAll [{}] (bare before ++ .identifier opposite :: after) := by
  have hinvoked (folds : List Fold) :
      setting.feedAll (folds.modifyHead Fold.negated) (.identifier text :: after) =
        setting.feedAll (folds.modifyHead Fold.settled) (.identifier opposite :: after) := by
    rw [feedAll_cons, feedAll_cons, feed, feed, htext, hopposite]
    cases folds with
    | nil => rfl
    | cons fold outer =>
        change setting.feedAll (fold.negated.add outcome :: outer) after = _
        rw [Fold.negated_add]
        rfl
  rw [List.append_cons, feedAll_append, feedAll_append_negation, feedAll_append, feedAll_bare]
  cases setting.feedAll [{}] before with
  | error e => rfl
  | ok folds => exact hinvoked folds

end Setting

namespace Registry

variable {history : List (String × Check)} {name text negatedText : String} {params : List String}
  {call : String × Check} {variant another : Variant} {before after : List Token}

theorem exists_outcomes (hcheck : Latest history name call variant)
    (hnot : Latest history (notName name) call another)
    (htext : Invocation.ofIdentifier text = ⟨name, params⟩)
    (hnegatedText : Invocation.ofIdentifier negatedText = ⟨notName name, params⟩)
    (fields : Fields Value) (value : Value) :
    ∃ outcome, Setting.outcome ⟨ofHistory history, fields, value⟩ text = .ok outcome ∧
      Setting.outcome ⟨ofHistory history, fields, value⟩ negatedText = .ok !outcome := by
  obtain ⟨check, hget, hgetNot⟩ := hcheck.exists_get?_notName hnot
  have hname : (Invocation.ofIdentifier text).name = name := by rw [htext]
  have hnegatedName : (Invocation.ofIdentifier negatedText).name = notName name := by
    rw [hnegatedText]
  rw [← hname] at hget
  rw [← hnegatedName] at hgetNot
  refine ⟨check fields value params, ?_, ?_⟩
  · rw [Setting.outcome_eq_ok_of_get? hget, htext]
  · rw [Setting.outcome_eq_ok_of_get? hgetNot, hnegatedText]
    rfl

/-- If `foo` and `notFoo` come from the same call, `! foo` can stand for `notFoo` wherever no
negation waits. Where one waits, it absorbs the one in `! foo`. Then `! foo` counts as `notFoo` does
without the waiting negation, and `notFoo` as `foo` does. -/
theorem negated_check_eq_negation (hcheck : Latest history name call variant)
    (hnot : Latest history (notName name) call another)
    (htext : Invocation.ofIdentifier text = ⟨name, params⟩)
    (hnegatedText : Invocation.ofIdentifier negatedText = ⟨notName name, params⟩)
    (balanced : Balanced (before ++ .identifier negatedText :: after)) :
    let registry := ofHistory history
    let original := before ++ .identifier negatedText :: after
    let replaced := before ++ .negation :: .identifier text :: after
    (¬ Waiting before → registry.SameResult original replaced) ∧
      (Waiting before →
        registry.SameResult replaced (before ++ .identifier text :: after) ∧
        registry.SameResult original (bare before ++ .identifier text :: after) ∧
        registry.SameResult replaced (bare before ++ .identifier negatedText :: after)) := by
  intro registry original replaced
  have houtcomes := exists_outcomes hcheck hnot htext hnegatedText
  have hreplaced : Balanced replaced :=
    balanced.of_filter_eq (by simp [replaced, List.filter_append, isBracket])
  have hsame (text : String) : Balanced (before ++ .identifier text :: after) :=
    balanced.of_filter_eq (by simp [List.filter_append, isBracket])
  have hbare (text : String) : Balanced (bare before ++ .identifier text :: after) :=
    balanced.of_filter_eq (by simp [List.filter_append, filter_bare, isBracket])
  refine ⟨fun hwaiting ↦ ?_, fun hwaiting ↦ ⟨?_, ?_, ?_⟩⟩
  · apply sameResult_of_feedAll balanced hreplaced
    intro fields value
    obtain ⟨outcome, houtcome, hnegated⟩ := houtcomes fields value
    rw [Setting.feedAll_negation_identifier houtcome hnegated, bare_eq_of_not_waiting hwaiting]
  · apply sameResult_of_feedAll hreplaced (hsame text)
    exact fun fields value ↦ Setting.feedAll_absorbed hwaiting _
  · apply sameResult_of_feedAll balanced (hbare text)
    intro fields value
    obtain ⟨outcome, houtcome, hnegated⟩ := houtcomes fields value
    rw [← Setting.feedAll_absorbed hwaiting]
    exact Setting.feedAll_negation_identifier hnegated (by simpa using houtcome) before after
  · apply sameResult_of_feedAll hreplaced (hbare negatedText)
    intro fields value
    obtain ⟨outcome, houtcome, hnegated⟩ := houtcomes fields value
    exact Setting.feedAll_negation_identifier houtcome hnegated before after

/-- In `blank || (! && notBlank)` the negation waits for `notBlank`, and in `blank || (notBlank)`
none does. -/
theorem negated_check_eq_negation_blank :
    let registry := ofHistory [("blank", fun _ value _ ↦ value.isBlank)]
    let start : List Token := [.identifier "blank", .combinator .or, .groupOpen]
    let waiting : List Token := start ++ [.negation, .combinator .and]
    registry.SameResult (start ++ [.identifier "notBlank", .groupClose])
        (start ++ [.negation, .identifier "blank", .groupClose]) ∧
      registry.SameResult (waiting ++ [.identifier "notBlank", .groupClose])
        (start ++ [.combinator .and, .identifier "blank", .groupClose]) := by
  intro registry start waiting
  have hcheck : Latest [("blank", fun _ value _ ↦ value.isBlank)] "blank"
      ("blank", fun _ value _ ↦ value.isBlank) .base := ⟨rfl, [], [], rfl, by simp⟩
  have hnot : Latest [("blank", fun _ value _ ↦ value.isBlank)] (notName "blank")
      ("blank", fun _ value _ ↦ value.isBlank) .not := ⟨rfl, [], [], rfl, by simp⟩
  have htext : Invocation.ofIdentifier "blank" = ⟨"blank", []⟩ := by decide
  have hnegatedText : Invocation.ofIdentifier "notBlank" = ⟨notName "blank", []⟩ := by decide
  have hstart : Balanced (start ++ [.identifier "notBlank", .groupClose]) :=
    Body.balanced_tokens <| .leaf (.identifier "blank") <| .leaf (.combinator .or) <|
      .group (.leaf (.identifier "notBlank") .empty) .empty
  have hwaiting : Balanced (waiting ++ [.identifier "notBlank", .groupClose]) :=
    Body.balanced_tokens <| .leaf (.identifier "blank") <| .leaf (.combinator .or) <|
      .group (.leaf .negation <| .leaf (.combinator .and) <|
        .leaf (.identifier "notBlank") .empty) .empty
  constructor
  · refine (negated_check_eq_negation hcheck hnot htext hnegatedText hstart).1 ?_
    rintro ⟨earlier, later, hsplit, -⟩
    have hmem : Token.negation ∈ start := by simp [hsplit]
    exact absurd hmem (by decide)
  · refine ((negated_check_eq_negation hcheck hnot htext hnegatedText hwaiting).2 ?_).2.1
    exact ⟨start, [.combinator .and], rfl, by simp [isMark]⟩

end Registry

end FieldRules
