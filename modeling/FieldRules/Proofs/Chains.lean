import FieldRules.Chain
import FieldRules.Proofs.Composition

/-!
# Chains as expressions

A chain is written from left to right without brackets around what it has so far, and still means a
conjunction or disjunction of the whole: no chain leaves a negation behind, and no combinator binds
more than another. So the result of a chain is put together from results in the way in which the
chain was put together, and the first check that is not there decides its error. The text of a chain
has the same tokens as the chain, unless an identifier in it cannot be told from other tokens.
-/

namespace FieldRules

theorem Body.negationAfter_append (before : Bool) (a b : Body) :
    (a.append b).negationAfter before = b.negationAfter (a.negationAfter before) := by
  induction a generalizing before with
  | empty => rfl
  | leaf l rest ih => cases l <;> exact ih _
  | group inside rest _ ih => exact ih _

namespace Setting

variable {setting : Setting}

theorem result_append_identifier (a : Body) (c : Combinator) (text : String)
    (h : a.negationAfter false = false) :
    setting.result (a.append (.leaf (.combinator c) (.leaf (.identifier text) .empty))) =
      (do let x ← setting.result a
          let y ← setting.result (.leaf (.identifier text) .empty)
          return accumulate c x y) := by
  rw [result_append _ _ h, result_identifier]
  cases setting.result a with
  | error e => rfl
  | ok x =>
      change setting.resultFrom x c false (.leaf (.identifier text) .empty) = _
      rw [resultFrom]
      cases setting.invoke text with
      | error e => rfl
      | ok call =>
          change Except.ok (accumulate c x (call.1 != false)) = .ok (accumulate c x call.1)
          rw [Bool.bne_false]

end Setting

namespace Chain

/-- The identifiers of the checks, in the order in which they were written. -/
def identifiers : Chain → List String
  | .check name params => [Invocation.identifier name params]
  | .andCheck chain name params => chain.identifiers ++ [Invocation.identifier name params]
  | .and left right => left.identifiers ++ right.identifiers
  | .or left right => left.identifiers ++ right.identifiers

def body : Chain → Body
  | .check name params => .leaf (.identifier (Invocation.identifier name params)) .empty
  | .andCheck chain name params =>
    chain.body.append <| .leaf (.combinator .and) <|
      .leaf (.identifier (Invocation.identifier name params)) .empty
  | .and left right => left.body.append (.leaf (.combinator .and) (.group right.body .empty))
  | .or left right => left.body.append (.leaf (.combinator .or) (.group right.body .empty))

theorem tokens_body (chain : Chain) : chain.body.tokens = chain.tokens := by
  induction chain with
  | check name params => rfl
  | andCheck chain name params ih =>
      rw [body, Body.tokens_append, ih]
      rfl
  | and left right ihLeft ihRight | or left right ihLeft ihRight =>
      rw [body, Body.tokens_append, ihLeft, Body.tokens, Body.tokens, ihRight]
      rfl

theorem negationAfter_body (chain : Chain) : chain.body.negationAfter false = false := by
  induction chain with
  | check name params => rfl
  | andCheck chain name params ih => rw [body, Body.negationAfter_append, ih]; rfl
  | and left right ih _ | or left right ih _ => rw [body, Body.negationAfter_append, ih]; rfl

/-- Between the identifiers of a chain stand only tokens that name no check. -/
theorem firstUnknown?_tokens (registry : Registry) (chain : Chain) :
    registry.firstUnknown? chain.tokens =
      registry.firstUnknown? (chain.identifiers.map .identifier) := by
  have hnone (token : Token) (h : ∀ text, token ≠ .identifier text) :
      registry.unknown? token = none := by
    cases token with
    | identifier text => exact absurd rfl (h text)
    | _ => rfl
  induction chain with
  | check name params => rfl
  | andCheck chain name params ih =>
      simp only [Registry.firstUnknown?] at ih ⊢
      simp [tokens, identifiers, ih, List.findSome?_append, hnone, identifier]
  | and left right ihLeft ihRight | or left right ihLeft ihRight =>
      simp only [Registry.firstUnknown?] at ihLeft ihRight ⊢
      simp [tokens, bracketed, identifiers, ihLeft, ihRight, List.findSome?_append, hnone]

theorem validate_eq_result (registry : Registry) (value : Value) (chain : Chain) :
    chain.validate registry value =
      ((registry.alone value).result chain.body).mapError .eval :=
  Registry.validateOne_eq_result chain.tokens_body.symm

variable {registry : Registry} {value : Value}

theorem validate_check {name : String} {params : List String} {check : Check}
    (h : registry.get? (Invocation.ofIdentifier (Invocation.identifier name params)).name =
      some check) :
    (Chain.check name params).validate registry value =
      .ok (check (registry.alone value).fields value
        (Invocation.ofIdentifier (Invocation.identifier name params)).params) := by
  have hget : (registry.alone value).registry.get?
      (Invocation.ofIdentifier (Invocation.identifier name params)).name = some check := h
  rw [validate_eq_result, body, Setting.result_identifier, Setting.invoke]
  simp only [hget]
  rfl

theorem validate_join (chain left right : Chain) (c : Combinator)
    (h : ∀ setting : Setting, setting.result chain.body =
      (do let x ← setting.result left.body
          let y ← setting.result right.body
          return Setting.accumulate c x y)) :
    chain.validate registry value =
      (do let x ← left.validate registry value
          let y ← right.validate registry value
          return Setting.accumulate c x y) := by
  rw [validate_eq_result, validate_eq_result, validate_eq_result, h]
  cases (registry.alone value).result left.body with
  | error e => rfl
  | ok x => cases (registry.alone value).result right.body <;> rfl

theorem validate_andCheck (chain : Chain) (name : String) (params : List String) :
    (Chain.andCheck chain name params).validate registry value =
      (do let x ← chain.validate registry value
          let y ← (Chain.check name params).validate registry value
          return x && y) := by
  apply validate_join (.andCheck chain name params) chain (.check name params) .and
  intro setting
  exact setting.result_append_identifier _ _ _ chain.negationAfter_body

theorem validate_and (left right : Chain) :
    (Chain.and left right).validate registry value =
      (do let x ← left.validate registry value
          let y ← right.validate registry value
          return x && y) := by
  apply validate_join (.and left right) left right .and
  intro setting
  exact setting.result_append_group _ _ _ left.negationAfter_body

theorem validate_or (left right : Chain) :
    (Chain.or left right).validate registry value =
      (do let x ← left.validate registry value
          let y ← right.validate registry value
          return x || y) := by
  rw [← Setting.accumulate_or]
  apply validate_join (.or left right) left right .or
  intro setting
  exact setting.result_append_group _ _ _ left.negationAfter_body

theorem validate_eq_error_iff (registry : Registry) (value : Value) (chain : Chain)
    (e : ValidationError) :
    chain.validate registry value = .error e ↔
      ∃ name, registry.FirstUnknown (chain.identifiers.map .identifier) name ∧
        e = .eval (.unknownCheck name) := by
  have hparse : chain.rule.parse = .ok (Tree.ofBody chain.body) := by
    rw [Rule.parse, rule, Rule.toTokens, ← tokens_body, Tree.ofTokens_tokens]
  rw [validate, Registry.validateOne_eq_error_iff _ _ hparse]
  simp only [← Registry.firstUnknown?_eq_some_iff, ← firstUnknown?_tokens]
  rfl

/-- Chains mean what they say. Every chain parses, a single check has the outcome of its identifier,
and a longer chain joins the results of what it was built from, whatever stands in them already. A
chain fails exactly if some check in it is unknown, and with the one that was written first. -/
theorem validate_composes (registry : Registry) (value : Value) :
    let outcome (chain : Chain) := chain.validate registry value
    (∀ chain : Chain, ∃ tree, chain.rule.parse = .ok tree) ∧
      (∀ name params check,
        let call := Invocation.ofIdentifier (Invocation.identifier name params)
        registry.get? call.name = some check →
          outcome (.check name params) =
            .ok (check ((∅ : Fields Value).insert Registry.singleField value) value call.params)) ∧
      (∀ chain name params, outcome (.andCheck chain name params) =
        (do let x ← outcome chain; let y ← outcome (.check name params); return x && y)) ∧
      (∀ left right, outcome (.and left right) =
        (do let x ← outcome left; let y ← outcome right; return x && y)) ∧
      (∀ left right, outcome (.or left right) =
        (do let x ← outcome left; let y ← outcome right; return x || y)) ∧
      ∀ chain e, outcome chain = .error e ↔
        ∃ name, registry.FirstUnknown (chain.identifiers.map .identifier) name ∧
          e = .eval (.unknownCheck name) := by
  intro outcome
  refine ⟨fun chain ↦ ?_, fun name params check hget ↦ validate_check hget, validate_andCheck,
    validate_and, validate_or, validate_eq_error_iff registry value⟩
  refine ⟨Tree.ofBody chain.body, ?_⟩
  rw [Rule.parse, rule, Rule.toTokens, ← tokens_body, Tree.ofTokens_tokens]

/-- The disjunction in the middle does not take the last check into its brackets, and the check that
is not there counts although the result before it is false. -/
theorem validate_composes_unknown :
    let registry := (Registry.empty.register "yes" fun _ _ _ ↦ true).register "no" fun _ _ _ ↦ false
    let yes := Chain.check "yes" []
    let no := Chain.check "no" ["a", "b"]
    let chain := Chain.andCheck ((no.and no).or yes) "no" []
    yes.validate registry .null = .ok true ∧ no.validate registry .null = .ok false ∧
      chain.validate registry .null = .ok false ∧
      (Chain.and chain (.check "odd" ["3"])).validate registry .null =
        .error (.eval (.unknownCheck "odd")) := by
  intro registry yes no chain
  have hcomposes := validate_composes registry .null
  dsimp only at hcomposes
  obtain ⟨-, hcheck, handCheck, hand, hor, herror⟩ := hcomposes
  have hyes : yes.validate registry .null = .ok true := hcheck "yes" [] _ rfl
  have hno : no.validate registry .null = .ok false := hcheck "no" ["a", "b"] _ rfl
  have hlast : (Chain.check "no" []).validate registry .null = .ok false := hcheck "no" [] _ rfl
  have hchain : chain.validate registry .null = .ok false := by
    rw [handCheck, hor, hand, hyes, hno, hlast]
    rfl
  refine ⟨hyes, hno, hchain, (herror _ _).mpr ⟨"odd", ?_, rfl⟩⟩
  refine ⟨chain.identifiers.map .identifier, "odd:3", [], rfl, rfl, rfl, ?_⟩
  intro earlier hearlier
  have hknown : ∀ text ∈ chain.identifiers, registry.get? (Token.checkName text) ≠ none := by
    simp only [chain, yes, no, identifiers, List.forall_mem_append, List.forall_mem_singleton]
    exact ⟨⟨⟨Option.some_ne_none _, Option.some_ne_none _⟩, Option.some_ne_none _⟩,
      Option.some_ne_none _⟩
  exact hknown earlier (by simpa using hearlier)

/-- The chain as the text of a rule: a check as its identifier, an attached chain in brackets. -/
def text : Chain → String
  | .check name params => Invocation.identifier name params
  | .andCheck chain name params => chain.text ++ " && " ++ Invocation.identifier name params
  | .and left right => left.text ++ " && (" ++ right.text ++ ")"
  | .or left right => left.text ++ " || (" ++ right.text ++ ")"

theorem mem_tokens_of_mem_identifiers {chain : Chain} {text : String}
    (h : text ∈ chain.identifiers) : .identifier text ∈ chain.tokens := by
  induction chain with
  | check name params => simpa [identifiers, tokens, identifier] using h
  | andCheck chain name params ih =>
      rcases List.mem_append.mp h with h | h
      · exact List.mem_append_left _ (ih h)
      · simp_all [tokens, identifier]
  | and left right ihLeft ihRight | or left right ihLeft ihRight =>
      rcases List.mem_append.mp h with h | h
      · exact List.mem_append_left _ (ihLeft h)
      · simp [tokens, bracketed, ihRight h]

theorem tokenize_text_of_legible {chain : Chain}
    (h : ∀ text ∈ chain.identifiers, Token.Legible text) : tokenize chain.text = chain.tokens := by
  have hidentifier {text : String} (htext : Token.Legible text) :
      tokenize text = [.identifier text] :=
    (Token.read_plain htext.plain).trans (Token.word_toList htext)
  induction chain with
  | check name params =>
      rw [identifiers, List.forall_mem_singleton] at h
      exact hidentifier h
  | andCheck chain name params ih =>
      rw [identifiers, List.forall_mem_append, List.forall_mem_singleton] at h
      have hsplit := tokenize_append_combinator .and chain.text (Invocation.identifier name params)
      rw [ih h.1, hidentifier h.2] at hsplit
      exact hsplit
  | and left right ihLeft ihRight =>
      rw [identifiers, List.forall_mem_append] at h
      have hsplit := tokenize_join .and left.text right.text
      rw [ihLeft h.1, ihRight h.2] at hsplit
      exact hsplit
  | or left right ihLeft ihRight =>
      rw [identifiers, List.forall_mem_append] at h
      have hsplit := tokenize_join .or left.text right.text
      rw [ihLeft h.1, ihRight h.2] at hsplit
      exact hsplit

/-- A chain has the tokens of its text exactly if all its identifiers are legible: not empty,
without symbols, and without white space at their ends. What else stands in them does not matter,
nor does the way in which the chain was put together. -/
theorem tokenize_text_eq_tokens_iff (chain : Chain) :
    tokenize chain.text = chain.tokens ↔ ∀ text ∈ chain.identifiers, Token.Legible text := by
  constructor
  · intro h text htext
    have hlexical := Token.lexical_tokenize chain.text
    rw [h] at hlexical
    exact hlexical.legible text (mem_tokens_of_mem_identifiers htext)
  · exact tokenize_text_of_legible

/-- Single bars at the ends of identifiers stay with them, and so do blanks and colons inside. -/
example :
    let chain := Chain.or (.check "a|" []) (.andCheck (.check "|b" ["x y", ":"]) "&" [])
    chain.text = "a| || (|b:x y,: && &)" ∧ tokenize chain.text = chain.tokens := by
  decide

end Chain

end FieldRules
