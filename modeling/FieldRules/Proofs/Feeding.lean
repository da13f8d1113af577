import FieldRules.Proofs.Comparison

/-!
# Evaluation token by token

A rule can be evaluated while its tokens are read, without a tree. The running results of the open
groups stand on a stack, and a bracket that closes a group gives its result to the group around it.
So tokens that leave the same stack behind can stand for each other, whatever follows them.
-/

namespace FieldRules

namespace Setting

variable {setting : Setting}

/-- The running results of the open groups, the innermost first, behind one more token. -/
def feed (setting : Setting) (folds : List Fold) : Token → Except EvalError (List Fold)
  | .combinator c => .ok (folds.modifyHead fun fold ↦ { fold with combinator := c })
  | .negation => .ok (folds.modifyHead fun fold ↦ { fold with negateNext := true })
  | .identifier text => (setting.outcome text).map fun outcome ↦ folds.modifyHead (·.add outcome)
  | .groupOpen => .ok ({} :: folds)
  | .groupClose => .ok (folds.tail.modifyHead (·.add (folds.headD {}).accumulator))

def feedAll (setting : Setting) (folds : List Fold) (tokens : List Token) :
    Except EvalError (List Fold) :=
  tokens.foldlM setting.feed folds

theorem feedAll_cons (folds : List Fold) (token : Token) (rest : List Token) :
    setting.feedAll folds (token :: rest) =
      setting.feed folds token >>= fun next ↦ setting.feedAll next rest :=
  List.foldlM_cons

theorem feedAll_append (folds : List Fold) (a b : List Token) :
    setting.feedAll folds (a ++ b) =
      setting.feedAll folds a >>= fun next ↦ setting.feedAll next b :=
  List.foldlM_append

theorem feedAll_append_singleton (folds : List Fold) (tokens : List Token) (token : Token) :
    setting.feedAll folds (tokens ++ [token]) =
      setting.feedAll folds tokens >>= fun next ↦ setting.feed next token := by
  simp [feedAll, List.foldlM_append]

/-- The tokens of a body change the running result of its group as the recursion does, and no other
running result. -/
theorem feedAll_tokens (body : Body) (fold : Fold) (outer : List Fold) :
    setting.feedAll (fold :: outer) body.tokens =
      (setting.resultFrom fold.accumulator fold.combinator fold.negateNext body).map fun result ↦
        ⟨result, body.combinatorAfter fold.combinator, body.negationAfter fold.negateNext⟩ ::
          outer := by
  induction body generalizing fold outer with
  | empty => rfl
  | leaf l rest ih =>
      cases l with
      | combinator c => exact ih { fold with combinator := c } outer
      | negation => exact ih { fold with negateNext := true } outer
      | identifier text =>
          rw [Body.tokens, Leaf.token, feedAll_cons, feed, resultFrom_identifier]
          cases setting.outcome text with
          | error e => rfl
          | ok outcome =>
              change setting.feedAll (fold.add outcome :: outer) rest.tokens = _
              rw [add_eq, ih]
              rfl
  | group inside rest ihInside ihRest =>
      rw [Body.tokens, feedAll_cons, feed, resultFrom_group]
      change setting.feedAll ({} :: fold :: outer) (inside.tokens ++ .groupClose :: rest.tokens) = _
      rw [feedAll_append, ihInside, ← result]
      cases setting.result inside with
      | error e => rfl
      | ok outcome =>
          change setting.feedAll (fold.add outcome :: outer) rest.tokens = _
          rw [add_eq, ihRest]
          rfl

theorem result_eq_feedAll (body : Body) :
    setting.result body =
      (setting.feedAll [{}] body.tokens).map fun folds ↦ (folds.headD {}).accumulator := by
  rw [feedAll_tokens, ← result]
  cases setting.result body <;> rfl

end Setting

/-- Both are rules, and with these checks they come to the same outcome, whatever the value and the
other fields are. -/
def Registry.SameResult (registry : Registry) (a b : List Token) : Prop :=
  ∃ tree other, (Rule.tokens a).parse = .ok tree ∧ (Rule.tokens b).parse = .ok other ∧
    ∀ fields value, Setting.evaluate ⟨registry, fields, value⟩ tree =
      Setting.evaluate ⟨registry, fields, value⟩ other

theorem Registry.sameResult_of_feedAll {registry : Registry} {a b : List Token}
    (ha : Token.Balanced a) (hb : Token.Balanced b)
    (h : ∀ fields value, Setting.feedAll ⟨registry, fields, value⟩ [{}] a =
      Setting.feedAll ⟨registry, fields, value⟩ [{}] b) : registry.SameResult a b := by
  obtain ⟨body, rfl⟩ := Body.exists_tokens_eq ha
  obtain ⟨other, rfl⟩ := Body.exists_tokens_eq hb
  refine ⟨_, _, Tree.ofTokens_tokens body, Tree.ofTokens_tokens other, fun fields value ↦ ?_⟩
  rw [Setting.evaluate_ofBody, Setting.evaluate_ofBody, Setting.result_eq_feedAll, h,
    ← Setting.result_eq_feedAll]

end FieldRules
