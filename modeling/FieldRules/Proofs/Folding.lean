import FieldRules.Proofs.Evaluation

/-!
# Cutting a group in two

Some children of a group leave behind a result so far, the last combinator, and perhaps a negation
that waits for the next result. Nothing else of them counts for the children that follow. So
children that leave no negation behind can be put in brackets if a combinator comes next, or
nothing: no combinator binds more than another.
-/

namespace FieldRules

namespace Body

/-- The children of one body, and those of another behind them. -/
def append : Body → Body → Body
  | .empty, later => later
  | .leaf l rest, later => .leaf l (rest.append later)
  | .group inside rest, later => .group inside (rest.append later)

/-- The last combinator of a body, or the one before it. -/
def combinatorAfter (before : Combinator) : Body → Combinator
  | .empty => before
  | .leaf (.combinator c) rest => rest.combinatorAfter c
  | .leaf .negation rest => rest.combinatorAfter before
  | .leaf (.identifier _) rest => rest.combinatorAfter before
  | .group _ rest => rest.combinatorAfter before

/-- Whether a negation waits for a result behind a body, if one may wait before it. -/
def negationAfter (before : Bool) : Body → Bool
  | .empty => before
  | .leaf (.combinator _) rest => rest.negationAfter before
  | .leaf .negation rest => rest.negationAfter true
  | .leaf (.identifier _) rest => rest.negationAfter false
  | .group _ rest => rest.negationAfter false

@[simp] theorem tokens_append (a b : Body) : (a.append b).tokens = a.tokens ++ b.tokens := by
  induction a with
  | empty => rfl
  | leaf l rest ih => simp [append, tokens, ih]
  | group inside rest _ ih => simp [append, tokens, ih]

end Body

namespace Setting

variable {setting : Setting}

theorem accumulate_or : accumulate .or = or := by
  funext x y
  cases x <;> cases y <;> rfl

theorem resultFrom_group (accumulator : Bool) (c : Combinator) (negation : Bool)
    (inside rest : Body) :
    setting.resultFrom accumulator c negation (.group inside rest) =
      (do let outcome ← setting.result inside
          setting.resultFrom (accumulate c accumulator (outcome != negation)) c false rest) := by
  rw [resultFrom, result]
  cases setting.resultFrom false .or false inside <;> rfl

/-- The children behind a cut go on from the result in front of it. -/
theorem resultFrom_append (accumulator : Bool) (c : Combinator) (negation : Bool) (a b : Body) :
    setting.resultFrom accumulator c negation (a.append b) =
      (do let before ← setting.resultFrom accumulator c negation a
          setting.resultFrom before (a.combinatorAfter c) (a.negationAfter negation) b) := by
  induction a generalizing accumulator c negation with
  | empty => rfl
  | leaf l rest ih =>
      cases l with
      | combinator c => exact ih _ _ _
      | negation => exact ih _ _ _
      | identifier text =>
          simp only [Body.append, resultFrom, Body.combinatorAfter, Body.negationAfter]
          cases setting.invoke text with
          | error e => rfl
          | ok call => exact ih _ _ _
  | group inside rest _ ih =>
      rw [Body.append, resultFrom_group, resultFrom_group]
      cases setting.result inside with
      | error e => rfl
      | ok outcome => exact ih _ _ _

theorem result_identifier (text : String) :
    setting.result (.leaf (.identifier text) .empty) =
      (do let call ← setting.invoke text
          return call.1) := by
  rw [result, resultFrom]
  cases setting.invoke text with
  | error e => rfl
  | ok call =>
      obtain ⟨outcome, event⟩ := call
      cases outcome <;> rfl

theorem result_append (a b : Body) (h : a.negationAfter false = false) :
    setting.result (a.append b) =
      (do let before ← setting.result a
          setting.resultFrom before (a.combinatorAfter .or) false b) := by
  rw [result, resultFrom_append, h]
  rfl

/-- The first result of a group is its result so far. -/
theorem result_group (inside rest : Body) :
    setting.result (.group inside rest) =
      (do let outcome ← setting.result inside
          setting.resultFrom outcome .or false rest) := by
  rw [result, resultFrom_group]
  cases setting.result inside with
  | error e => rfl
  | ok outcome => cases outcome <;> rfl

theorem result_negated_group (inside : Body) :
    setting.result (.leaf .negation (.group inside .empty)) =
      (do let outcome ← setting.result inside
          return !outcome) := by
  rw [result, resultFrom, resultFrom_group]
  cases setting.result inside with
  | error e => rfl
  | ok outcome => cases outcome <;> rfl

theorem result_append_group (a b : Body) (c : Combinator) (h : a.negationAfter false = false) :
    setting.result (a.append (.leaf (.combinator c) (.group b .empty))) =
      (do let x ← setting.result a
          let y ← setting.result b
          return accumulate c x y) := by
  rw [result_append _ _ h]
  cases setting.result a with
  | error e => rfl
  | ok x =>
      change setting.resultFrom x c false (.group b .empty) = _
      rw [resultFrom_group]
      cases setting.result b with
      | error e => rfl
      | ok y =>
          change Except.ok (accumulate c x (y != false)) = .ok (accumulate c x y)
          rw [Bool.bne_false]

/-- A body that leaves no negation behind gives the same result in brackets if a combinator comes
next, or nothing. -/
theorem result_group_eq_append {a b : Body} (h : a.negationAfter false = false)
    (hb : b = .empty ∨ ∃ c rest, b = .leaf (.combinator c) rest) :
    setting.result (.group a b) = setting.result (a.append b) := by
  rw [result_append _ _ h, result_group]
  rcases hb with rfl | ⟨c, rest, rfl⟩ <;> rfl

end Setting

namespace Token

/-- The tokens outside all brackets if `depth` groups are open before, where the bracket that opens
a group stands for the group. -/
def outermost (depth : Nat) : List Token → List Token
  | [] => []
  | .groupOpen :: rest =>
    if depth = 0 then .groupOpen :: outermost 1 rest else outermost (depth + 1) rest
  | .groupClose :: rest => outermost (depth - 1) rest
  | token :: rest => if depth = 0 then token :: outermost depth rest else outermost depth rest

/-- What has a result: an identifier, or a group where it opens. -/
def isOperand : Token → Bool
  | .identifier _ => true
  | .groupOpen => true
  | _ => false

/-- Every negation of a group stands before an identifier or a group that it can apply to. -/
def NegationsApply (level : List Token) : Prop :=
  ∀ before after, level = before ++ .negation :: after → ∃ operand ∈ after, operand.isOperand

theorem negationsApply_cons_iff {token : Token} {level : List Token} :
    NegationsApply (token :: level) ↔
      (token = .negation → ∃ operand ∈ level, operand.isOperand) ∧ NegationsApply level := by
  constructor
  · intro h
    refine ⟨fun htoken ↦ h [] level (by rw [htoken, List.nil_append]), fun before after heq ↦ ?_⟩
    exact h (token :: before) after (by rw [heq, List.cons_append])
  · rintro ⟨hfirst, hlevel⟩ before after heq
    rcases List.cons_eq_append_iff.mp heq with ⟨-, hafter⟩ | ⟨earlier, -, hrest⟩
    · cases hafter
      exact hfirst rfl
    · exact hlevel earlier after hrest

theorem outermost_tokens_append (body : Body) (depth : Nat) (later : List Token) :
    outermost (depth + 1) (body.tokens ++ later) = outermost (depth + 1) later := by
  induction body generalizing depth later with
  | empty => rfl
  | leaf l rest ih => cases l <;> simpa [Body.tokens, Leaf.token, outermost] using ih depth later
  | group inside rest ihInside ihRest =>
      simp [Body.tokens, outermost, ihInside, ihRest]

theorem outermost_leaf (l : Leaf) (rest : Body) :
    outermost 0 (Body.leaf l rest).tokens = l.token :: outermost 0 rest.tokens := by
  cases l <;> rfl

theorem outermost_group (inside rest : Body) :
    outermost 0 (Body.group inside rest).tokens = .groupOpen :: outermost 0 rest.tokens := by
  simp [Body.tokens, outermost, outermost_tokens_append]

theorem Balanced.of_append {first later : List Token} (hfirst : Balanced first)
    (h : Balanced (first ++ later)) : Balanced later := by
  have hopens (seen : List Token) : opens (first ++ seen) = opens first + opens seen :=
    List.count_append
  have hcloses (seen : List Token) : closes (first ++ seen) = closes first + closes seen :=
    List.count_append
  have hcount := hfirst.closes_eq
  refine ⟨fun seen hseen ↦ ?_, ?_⟩
  · have hle := h.nested (first ++ seen) ((List.prefix_append_right_inj first).mpr hseen)
    rw [hopens, hcloses] at hle
    omega
  · have heq := h.closes_eq
    rw [hopens, hcloses] at heq
    omega

end Token

theorem Body.negationAfter_eq_false_iff (body : Body) (before : Bool) :
    body.negationAfter before = false ↔
      (before → ∃ operand ∈ Token.outermost 0 body.tokens, operand.isOperand) ∧
        Token.NegationsApply (Token.outermost 0 body.tokens) := by
  -- Behind a negation of the body the other children are met with `before = true`.
  induction body generalizing before with
  | empty => simp [negationAfter, tokens, Token.outermost, Token.NegationsApply]
  | leaf l rest ih =>
      rw [Token.outermost_leaf, Token.negationsApply_cons_iff]
      cases l with
      | combinator c => simp [negationAfter, ih, Leaf.token, Token.isOperand]
      | negation => simp [negationAfter, ih, Leaf.token, Token.isOperand]; tauto
      | identifier text => simp [negationAfter, ih, Leaf.token, Token.isOperand]
  | group inside rest _ ih =>
      rw [Token.outermost_group, Token.negationsApply_cons_iff]
      simp [negationAfter, ih, Token.isOperand]

/-- Brackets around the start of a rule change nothing if a combinator comes next, or nothing, and
every negation outside all brackets in that start has its identifier or group there. -/
theorem Rule.evaluate_brackets_around_start {first later : List Token}
    (hfirst : Token.Balanced first) (hboth : Token.Balanced (first ++ later))
    (hlater : later = [] ∨ ∃ c rest, later = .combinator c :: rest)
    (hnegations : Token.NegationsApply (Token.outermost 0 first)) :
    ∃ plain bracketed, (Rule.tokens (first ++ later)).parse = .ok plain ∧
      (Rule.tokens ([.groupOpen] ++ first ++ [.groupClose] ++ later)).parse = .ok bracketed ∧
      ∀ setting : Setting, setting.evaluate bracketed = setting.evaluate plain := by
  obtain ⟨a, rfl⟩ := Body.exists_tokens_eq hfirst
  obtain ⟨b, rfl⟩ := Body.exists_tokens_eq (hfirst.of_append hboth)
  have hdone : a.negationAfter false = false :=
    (a.negationAfter_eq_false_iff false).mpr ⟨by simp, hnegations⟩
  refine ⟨Tree.ofBody (a.append b), Tree.ofBody (.group a b), ?_, ?_, fun setting ↦ ?_⟩
  · rw [← Body.tokens_append]
    exact Tree.ofTokens_tokens _
  · have htokens : [.groupOpen] ++ a.tokens ++ [.groupClose] ++ b.tokens =
        (Body.group a b).tokens := by
      simp [Body.tokens]
    rw [htokens]
    exact Tree.ofTokens_tokens _
  · rw [setting.evaluate_ofBody, setting.evaluate_ofBody]
    refine Setting.result_group_eq_append hdone ?_
    cases b with
    | empty => exact .inl rfl
    | leaf l rest =>
        obtain hnil | ⟨c, tokens, hcons⟩ := hlater
        · cases hnil
        · cases l <;> cases hcons
          exact .inr ⟨c, rest, rfl⟩
    | group inside rest =>
        obtain hnil | ⟨c, tokens, hcons⟩ := hlater
        · cases hnil
        · cases hcons

theorem Rule.evaluate_brackets_around_start_negated :
    let first : List Token := [.identifier "min:3", .combinator .or, .negation, .identifier "email"]
    let later : List Token := [.combinator .and, .identifier "max:9"]
    Token.Balanced first ∧ Token.Balanced (first ++ later) ∧
      Token.NegationsApply (Token.outermost 0 first) ∧
      ∃ plain bracketed, (Rule.tokens (first ++ later)).parse = .ok plain ∧
        (Rule.tokens ([.groupOpen] ++ first ++ [.groupClose] ++ later)).parse = .ok bracketed ∧
        ∀ setting : Setting, setting.evaluate bracketed = setting.evaluate plain := by
  let a : Body := .leaf (.identifier "min:3") <| .leaf (.combinator .or) <| .leaf .negation <|
    .leaf (.identifier "email") .empty
  let b : Body := .leaf (.combinator .and) (.leaf (.identifier "max:9") .empty)
  have hfirst : Token.Balanced a.tokens := a.balanced_tokens
  have hboth : Token.Balanced (a.tokens ++ b.tokens) := by
    rw [← Body.tokens_append]
    exact Body.balanced_tokens _
  have hnegations := ((a.negationAfter_eq_false_iff false).mp rfl).2
  exact ⟨hfirst, hboth, hnegations,
    evaluate_brackets_around_start hfirst hboth (.inr ⟨_, _, rfl⟩) hnegations⟩

end FieldRules
