import FieldRules.Proofs.Folding
import FieldRules.Proofs.Lexing
import FieldRules.Proofs.UnknownChecks

/-!
# Rules put together as texts

The text of a rule in brackets has the result of the rule, a negation before the brackets inverts
it, and a rule in brackets behind `&&` or `||` is joined to what stands before as a conjunction or a
disjunction. Only a negation that the first rule leaves without an identifier or a group would reach
the second.
-/

namespace FieldRules

theorem tokenize_append_close (text : String) :
    tokenize (text ++ ")") = tokenize text ++ [.groupClose] := by
  have hapart : Token.Apart text.toList .groupClose := fun c hc ↦ by cases hc
  have hsplit := tokenize_append_symbol (by decide) hapart ""
  rwa [String.append_empty] at hsplit

theorem tokenize_brackets (text : String) :
    tokenize ("(" ++ text ++ ")") = .groupOpen :: (tokenize text ++ [.groupClose]) := by
  have hopen : Token.groupOpen ∈ Token.symbols := by decide
  rw [String.append_assoc, ← tokenize_append_close]
  exact tokenize_symbol_append hopen (text ++ ")")

theorem tokenize_negated_brackets (text : String) :
    tokenize ("!(" ++ text ++ ")") =
      .negation :: .groupOpen :: (tokenize text ++ [.groupClose]) := by
  have hnegation : Token.negation ∈ Token.symbols := by decide
  have htext : "!(" ++ text ++ ")" = "!" ++ ("(" ++ text ++ ")") := by
    simp only [← String.append_assoc]
    rfl
  rw [htext, ← tokenize_brackets]
  exact tokenize_symbol_append hnegation ("(" ++ text ++ ")")

/-- The spaces around a combinator keep it apart from what is written on either side. -/
theorem tokenize_append_combinator (c : Combinator) (first second : String) :
    tokenize (first ++ (" " ++ c.symbol ++ " ") ++ second) =
      tokenize first ++ .combinator c :: tokenize second := by
  have htext : first ++ (" " ++ c.symbol ++ " ") ++ second =
      first ++ " " ++ (Token.combinator c).spelling ++ (" " ++ second) := by
    simp only [Token.spelling, String.append_assoc]
  have hsymbol : Token.combinator c ∈ Token.symbols := by
    cases c <;> decide
  have hapart : Token.Apart (first ++ " ").toList (.combinator c) := by
    rw [String.toList_append]
    exact Token.apart_append_blank hsymbol rfl first.toList
  have hsplit := tokenize_append_symbol hsymbol hapart (" " ++ second)
  rwa [← htext, tokenize_append_space, tokenize_space_append] at hsplit

theorem tokenize_join (c : Combinator) (first second : String) :
    tokenize (first ++ (" " ++ c.symbol ++ " (") ++ second ++ ")") =
      tokenize first ++ .combinator c :: .groupOpen :: (tokenize second ++ [.groupClose]) := by
  have htext : first ++ (" " ++ c.symbol ++ " (") ++ second ++ ")" =
      first ++ (" " ++ c.symbol ++ " ") ++ ("(" ++ second ++ ")") := by
    have hopen : " (" = " " ++ "(" := rfl
    simp only [hopen, String.append_assoc]
  rw [htext, tokenize_append_combinator, tokenize_brackets]

theorem Rule.exists_body {rule : Rule} (h : ∃ tree, rule.parse = .ok tree) :
    ∃ body : Body, rule.toTokens = body.tokens := by
  obtain ⟨tree, htree⟩ := h
  obtain ⟨body, hbody, -⟩ := Tree.exists_body_of_ofTokens htree
  exact ⟨body, hbody.symm⟩

namespace Registry

variable {registry : Registry} {value : Value} {first second : String}

theorem validateOne_eq_result {rule : Rule} {body : Body} (h : rule.toTokens = body.tokens) :
    registry.validateOne value rule = ((registry.alone value).result body).mapError .eval := by
  have hparse : rule.parse = .ok (Tree.ofBody body) := by
    rw [Rule.parse, h, Tree.ofTokens_tokens]
  rw [registry.validateOne_eq_evaluate value hparse, Setting.evaluate_ofBody]

theorem validateOne_brackets (h : ∃ tree, (Rule.text first).parse = .ok tree) :
    registry.validateOne value (.text ("(" ++ first ++ ")")) =
      registry.validateOne value (.text first) := by
  obtain ⟨a, ha⟩ := Rule.exists_body h
  have htokens : (Rule.text ("(" ++ first ++ ")")).toTokens = (Body.group a .empty).tokens := by
    rw [Rule.toTokens, tokenize_brackets, ← Rule.toTokens, ha]
    rfl
  rw [validateOne_eq_result htokens, validateOne_eq_result ha, Setting.result_group]
  cases (registry.alone value).result a <;> rfl

theorem validateOne_negated_brackets (h : ∃ tree, (Rule.text first).parse = .ok tree) :
    registry.validateOne value (.text ("!(" ++ first ++ ")")) =
      (do let x ← registry.validateOne value (.text first)
          return !x) := by
  obtain ⟨a, ha⟩ := Rule.exists_body h
  have htokens : (Rule.text ("!(" ++ first ++ ")")).toTokens =
      (Body.leaf .negation (.group a .empty)).tokens := by
    rw [Rule.toTokens, tokenize_negated_brackets, ← Rule.toTokens, ha]
    rfl
  rw [validateOne_eq_result htokens, validateOne_eq_result ha, Setting.result_negated_group]
  cases (registry.alone value).result a <;> rfl

theorem validateOne_join (registry : Registry) (value : Value)
    (hfirst : ∃ tree, (Rule.text first).parse = .ok tree)
    (hsecond : ∃ tree, (Rule.text second).parse = .ok tree)
    (hnegations : Token.NegationsApply (Token.outermost 0 (tokenize first))) (c : Combinator) :
    registry.validateOne value (.text (first ++ (" " ++ c.symbol ++ " (") ++ second ++ ")")) =
      (do let x ← registry.validateOne value (.text first)
          let y ← registry.validateOne value (.text second)
          return Setting.accumulate c x y) := by
  obtain ⟨a, ha⟩ := Rule.exists_body hfirst
  obtain ⟨b, hb⟩ := Rule.exists_body hsecond
  rw [← Rule.toTokens, ha] at hnegations
  have hdone : a.negationAfter false = false :=
    (a.negationAfter_eq_false_iff false).mpr ⟨by simp, hnegations⟩
  have htokens : (Rule.text (first ++ (" " ++ c.symbol ++ " (") ++ second ++ ")")).toTokens =
      (a.append (.leaf (.combinator c) (.group b .empty))).tokens := by
    rw [Rule.toTokens, tokenize_join, ← Rule.toTokens, ← Rule.toTokens, ha, hb,
      Body.tokens_append]
    rfl
  rw [validateOne_eq_result htokens, validateOne_eq_result ha, validateOne_eq_result hb,
    Setting.result_append_group a b c hdone]
  cases (registry.alone value).result a with
  | error e => rfl
  | ok x => cases (registry.alone value).result b <;> rfl

/-- Texts of rules compose as expressions do: brackets keep the outcome, a negation in front of them
inverts the result, and `&&` and `||` join the results of two rules. An error of the first rule
comes before one of the second, which counts whatever the first result is. -/
theorem validateOne_composes (registry : Registry) (value : Value) (first second : String)
    (hfirst : ∃ tree, (Rule.text first).parse = .ok tree)
    (hsecond : ∃ tree, (Rule.text second).parse = .ok tree) :
    let outcome (text : String) := registry.validateOne value (.text text)
    outcome ("(" ++ first ++ ")") = outcome first ∧
      outcome ("!(" ++ first ++ ")") = (do let x ← outcome first; return !x) ∧
      (Token.NegationsApply (Token.outermost 0 (tokenize first)) →
        outcome (first ++ " && (" ++ second ++ ")") =
            (do let x ← outcome first; let y ← outcome second; return x && y) ∧
          outcome (first ++ " || (" ++ second ++ ")") =
            (do let x ← outcome first; let y ← outcome second; return x || y)) := by
  intro outcome
  refine ⟨validateOne_brackets hfirst, validateOne_negated_brackets hfirst, fun hnegations ↦ ?_⟩
  have hor : Setting.accumulate .or = or := by
    funext x y
    cases x <;> cases y <;> rfl
  have handText : " " ++ Combinator.and.symbol ++ " (" = " && (" := rfl
  have horText : " " ++ Combinator.or.symbol ++ " (" = " || (" := rfl
  refine ⟨?_, ?_⟩
  · have hjoin := validateOne_join registry value hfirst hsecond hnegations .and
    rwa [handText] at hjoin
  · have hjoin := validateOne_join registry value hfirst hsecond hnegations .or
    rwa [horText, hor] at hjoin

/-- The second rule fails although the first is false. -/
theorem validateOne_composes_unknown :
    let registry := Registry.empty.register "odd" fun _ _ _ ↦ true
    let outcome (text : String) := registry.validateOne .absent (.text text)
    outcome "!odd" = .ok false ∧ outcome "odd || |" = .error (.eval (.unknownCheck "|")) ∧
      outcome ("!odd" ++ " && (" ++ "odd || |" ++ ")") = .error (.eval (.unknownCheck "|")) := by
  intro registry outcome
  let a : Body := .leaf .negation (.leaf (.identifier "odd") .empty)
  let b : Body := .leaf (.identifier "odd") <| .leaf (.combinator .or) <|
    .leaf (.identifier "|") .empty
  have htokens : (Rule.text "!odd").toTokens = a.tokens := by decide
  have htokens' : (Rule.text "odd || |").toTokens = b.tokens := by decide
  have hfirst : outcome "!odd" = .ok false := validateOne_eq_result htokens
  have hsecond : outcome "odd || |" = .error (.eval (.unknownCheck "|")) :=
    validateOne_eq_result htokens'
  have hnegations : Token.NegationsApply (Token.outermost 0 (tokenize "!odd")) :=
    ((a.negationAfter_eq_false_iff false).mp rfl).2
  obtain ⟨-, -, hjoin⟩ :=
    validateOne_composes registry .absent "!odd" "odd || |" ⟨_, rfl⟩ ⟨_, rfl⟩
  refine ⟨hfirst, hsecond, (hjoin hnegations).1.trans ?_⟩
  change (do let x ← outcome "!odd"; let y ← outcome "odd || |"; return x && y) = _
  rw [hfirst, hsecond]
  rfl

end Registry

end FieldRules
