import FieldRules.Proofs.Folding

/-!
# Two evaluations of one tree

An evaluation depends on its setting only through the identifiers of the tree: two settings in which
they have the same outcomes give the same steps, and the same result. Without a negation the result
is monotone as well, although `&&` turns it off again: at every point of a group both evaluations
have the same combinator, and the second is true where the first is.
-/

namespace FieldRules

namespace Tree

variable {tree : Tree}

/-- The identifier is a node of the tree. -/
def Mentions (tree : Tree) (text : String) : Prop :=
  ∃ node ∈ tree.nodes, node.kind = .identifier text

theorem exists_node_of_kind? {id : NodeId} {kind : NodeKind} (h : tree.kind? id = some kind) :
    ∃ node ∈ tree.nodes, node.kind = kind := by
  obtain ⟨node, hnode, hkind⟩ := Option.map_eq_some_iff.mp h
  exact ⟨node, Array.mem_of_getElem? hnode, hkind⟩

theorem Depicts.exists_node {ids : List NodeId} {body : Body} (h : tree.Depicts ids body)
    {l : Leaf} (hmem : l.token ∈ body.tokens) : ∃ node ∈ tree.nodes, node.kind = l.kind := by
  have hopen : l.token ≠ .groupOpen := by cases l <;> simp [Leaf.token]
  have hclose : l.token ≠ .groupClose := by cases l <;> simp [Leaf.token]
  induction h with
  | empty => cases hmem
  | @leaf id ids another rest hkind hrest ih =>
      rcases List.mem_cons.mp hmem with hsame | hmem
      · obtain rfl : l = another := by cases l <;> cases another <;> cases hsame <;> rfl
        exact exists_node_of_kind? hkind
      · exact ih hmem
  | group hkind hinside hrest ihInside ihRest =>
      simp only [Body.tokens, List.mem_cons, List.mem_append, hopen, hclose, false_or] at hmem
      exact hmem.elim ihInside ihRest

theorem token_mem_of_mem_nodes {body : Body} {n : Nat} {node : Node} (hnode : node ∈ body.nodes n)
    {l : Leaf} (hkind : node.kind = l.kind) : l.token ∈ body.tokens := by
  induction body generalizing n with
  | empty => cases hnode
  | leaf another rest ih =>
      rcases List.mem_cons.mp hnode with rfl | hnode
      · rw [Leaf.kind_injective hkind]
        exact List.mem_cons_self
      · exact List.mem_cons_of_mem _ (ih hnode)
  | group inside rest ihInside ihRest =>
      rw [Body.nodes, List.mem_cons, List.mem_append] at hnode
      rw [Body.tokens, List.mem_cons, List.mem_append, List.mem_cons]
      rcases hnode with rfl | hnode | hnode
      · exact absurd hkind.symm (l.kind_ne_group _)
      · exact .inr (.inl (ihInside hnode))
      · exact .inr (.inr (.inr (ihRest hnode)))

/-- The identifiers of a parsed tree are those that its rule writes. -/
theorem mentions_ofBody_iff (body : Body) (text : String) :
    (ofBody body).Mentions text ↔ .identifier text ∈ body.tokens := by
  constructor
  · rintro ⟨node, hnode, hkind⟩
    rw [ofBody, List.mem_toArray, List.mem_cons] at hnode
    rcases hnode with rfl | hnode
    · cases hkind
    · exact token_mem_of_mem_nodes hnode (l := .identifier text) hkind
  · exact (depicts_ofBody body).exists_node (l := .identifier text)

end Tree

namespace Setting

variable {first second : Setting} {tree : Tree}

/-! ## The same outcomes -/

theorem take_congr (h : ∀ text, tree.Mentions text → first.invoke text = second.invoke text)
    (depth : Nat) (id : NodeId) (rest : List NodeId) (fold : Fold) (outer : List Frame) :
    first.take tree depth id rest fold outer = second.take tree depth id rest fold outer := by
  unfold take
  split
  · rfl
  · next node hnode =>
      split
      · rfl
      · rfl
      · next text htext => rw [h text ⟨node, Array.mem_of_getElem? hnode, htext⟩]
      · rfl

theorem step_congr (h : ∀ text, tree.Mentions text → first.invoke text = second.invoke text)
    (frames : List Frame) : first.step tree frames = second.step tree frames := by
  unfold step
  split
  · rfl
  · exact take_congr h _ _ _ _ _
  · rfl
  · rfl

/-- Both settings take the same steps, whatever tree it is. -/
theorem run_congr (h : ∀ text, tree.Mentions text → first.invoke text = second.invoke text)
    (events : Array Event) (frames : List Frame) :
    first.run tree events frames = second.run tree events frames := by
  fun_induction run first tree events frames with
  | case1 events frames hdeep => rw [run, if_pos hdeep]
  | case2 events frames hdeep outcome hstep =>
      rw [step_congr h] at hstep
      rw [run_of_done (Bool.eq_false_iff.mpr hdeep) hstep]
  | case3 events frames hdeep next hstep ih =>
      rw [step_congr h] at hstep
      rw [ih, run_of_next (Bool.eq_false_iff.mpr hdeep) hstep]
      simp
  | case4 events frames hdeep next event hstep ih =>
      rw [step_congr h] at hstep
      rw [ih, run_of_next (Bool.eq_false_iff.mpr hdeep) hstep]
      simp

theorem evaluate_congr (h : ∀ text, tree.Mentions text → first.invoke text = second.invoke text) :
    first.evaluate tree = second.evaluate tree :=
  congrArg Logged.value (run_congr h _ _)

/-! ## Outcomes that are true where others are -/

/-- Both come to a result, and the second is true if the first is. -/
def Entails (first second : Except EvalError Bool) : Prop :=
  ∃ x y, first = .ok x ∧ second = .ok y ∧ (x = true → y = true)

/-- The outcome of the check that an identifier names. -/
def outcome (setting : Setting) (text : String) : Except EvalError Bool :=
  (setting.invoke text).map Prod.fst

theorem outcome_eq_ok_of_get? {setting : Setting} {text : String} {check : Check}
    (h : setting.registry.get? (Invocation.ofIdentifier text).name = some check) :
    setting.outcome text =
      .ok (check setting.fields setting.value (Invocation.ofIdentifier text).params) := by
  simp [outcome, invoke, h, Except.map]

theorem resultFrom_identifier (setting : Setting) (accumulator : Bool) (c : Combinator)
    (negation : Bool) (text : String) (rest : Body) :
    setting.resultFrom accumulator c negation (.leaf (.identifier text) rest) =
      (do let outcome ← setting.outcome text
          setting.resultFrom (accumulate c accumulator (outcome != negation)) c false rest) := by
  rw [resultFrom, outcome]
  cases setting.invoke text <;> rfl

theorem accumulate_mono (c : Combinator) {accumulator another x y : Bool}
    (haccumulator : accumulator = true → another = true) (h : x = true → y = true) :
    accumulate c accumulator x = true → accumulate c another y = true := by
  cases c <;> cases accumulator <;> cases x <;> simp_all [accumulate]

theorem Entails.bind {a b : Except EvalError Bool} {f g : Bool → Except EvalError Bool}
    (h : Entails a b) (hfg : ∀ x y, (x = true → y = true) → Entails (f x) (g y)) :
    Entails (a >>= f) (b >>= g) := by
  obtain ⟨x, y, rfl, rfl, hxy⟩ := h
  exact hfg x y hxy

/-- Both evaluations go on from results so far of which the second is true if the first is. -/
theorem entails_resultFrom {body : Body} (hpositive : .negation ∉ body.tokens)
    (h : ∀ text, .identifier text ∈ body.tokens →
      Entails (first.outcome text) (second.outcome text))
    (c : Combinator) {accumulator another : Bool}
    (haccumulator : accumulator = true → another = true) :
    Entails (first.resultFrom accumulator c false body)
      (second.resultFrom another c false body) := by
  induction body generalizing c accumulator another with
  | empty => exact ⟨_, _, rfl, rfl, haccumulator⟩
  | leaf l rest ih =>
      rw [Body.tokens, List.mem_cons, not_or] at hpositive
      have hrest := ih hpositive.2 fun text htext ↦ h text (List.mem_cons_of_mem _ htext)
      cases l with
      | combinator next => exact hrest next haccumulator
      | negation => exact absurd rfl hpositive.1
      | identifier text =>
          rw [resultFrom_identifier, resultFrom_identifier]
          refine (h text List.mem_cons_self).bind fun x y hxy ↦ ?_
          rw [Bool.bne_false, Bool.bne_false]
          exact hrest c (accumulate_mono c haccumulator hxy)
  | group inside rest ihInside ihRest =>
      simp only [Body.tokens, List.mem_cons, List.mem_append, not_or] at hpositive
      obtain ⟨-, hinside, -, hrest⟩ := hpositive
      rw [resultFrom_group, resultFrom_group]
      refine (ihInside hinside ?_ .or id).bind fun x y hxy ↦ ?_
      · exact fun text htext ↦ h text (by simp [Body.tokens, htext])
      · rw [Bool.bne_false, Bool.bne_false]
        refine ihRest hrest ?_ c (accumulate_mono c haccumulator hxy)
        exact fun text htext ↦ h text (by simp [Body.tokens, htext])

theorem entails_evaluate (sound : tree.Sound)
    (hpositive : ∀ node ∈ tree.nodes, node.kind ≠ .negation)
    (h : ∀ text, tree.Mentions text → Entails (first.outcome text) (second.outcome text)) :
    Entails (first.evaluate tree) (second.evaluate tree) := by
  have hbody := Tree.depicts_body sound
  rw [evaluate, evaluate, evaluation_eq sound, evaluation_eq sound]
  apply entails_resultFrom _ _ .or id
  · intro hmem
    obtain ⟨node, hnode, hkind⟩ := hbody.exists_node (l := .negation) hmem
    exact hpositive node hnode hkind
  · intro text hmem
    exact h text (hbody.exists_node (l := .identifier text) hmem)

end Setting

/-- A rule without negations that is true in one setting is true in every other where all its checks
are registered and each of them is true that is true in the first, whatever registries, fields and
values the two have. -/
theorem Rule.evaluate_mono {rule : Rule} {tree : Tree} (hparse : rule.parse = .ok tree)
    (hpositive : ∀ node ∈ tree.nodes, node.kind ≠ .negation) (first second : Setting)
    (h : ∀ text, tree.Mentions text →
      let call := Invocation.ofIdentifier text
      ∃ check another, first.registry.get? call.name = some check ∧
        second.registry.get? call.name = some another ∧
        (check first.fields first.value call.params = true →
          another second.fields second.value call.params = true)) :
    ∃ x y, first.evaluate tree = .ok x ∧ second.evaluate tree = .ok y ∧ (x = true → y = true) := by
  obtain ⟨body, -, rfl⟩ := Tree.exists_body_of_ofTokens hparse
  refine Setting.entails_evaluate (Tree.sound_ofBody body) hpositive fun text htext ↦ ?_
  obtain ⟨check, another, hcheck, hanother, himp⟩ := h text htext
  exact ⟨_, _, Setting.outcome_eq_ok_of_get? hcheck, Setting.outcome_eq_ok_of_get? hanother, himp⟩

/-- In the first setting `&& y` turns the result off and the group turns it on again; the second has
other checks, another field and another value. -/
theorem Rule.evaluate_mono_reset :
    let blank : Check := fun _ value _ ↦ value.isBlank
    let first : Setting :=
      ⟨(Registry.empty.register "x" blank).register "y" fun _ _ _ ↦ false, ∅, .null⟩
    let second : Setting :=
      ⟨(Registry.empty.register "y" fun _ _ _ ↦ true).register "x" blank.negated,
        Fields.ofList [("b", .string "z")], .boolean true⟩
    ∃ tree, (Rule.text "x && y || (otherX:b && x)").parse = .ok tree ∧
      first.evaluate tree = .ok true ∧ second.evaluate tree = .ok true := by
  intro blank first second
  let body : Body := .leaf (.identifier "x") <| .leaf (.combinator .and) <|
    .leaf (.identifier "y") <| .leaf (.combinator .or) <|
    .group (.leaf (.identifier "otherX:b") <| .leaf (.combinator .and) <|
      .leaf (.identifier "x") .empty) .empty
  have hparse : (Rule.text "x && y || (otherX:b && x)").parse = .ok (Tree.ofBody body) := rfl
  have hfirst : first.evaluate (Tree.ofBody body) = .ok true := by
    rw [Setting.evaluate_ofBody]
    rfl
  refine ⟨Tree.ofBody body, hparse, hfirst, ?_⟩
  have hpositive : ∀ node ∈ (Tree.ofBody body).nodes, node.kind ≠ .negation := by decide
  obtain ⟨x, y, hx, hy, himp⟩ := evaluate_mono hparse hpositive first second fun text htext ↦ by
    rw [Tree.mentions_ofBody_iff] at htext
    have htexts : text = "x" ∨ text = "y" ∨ text = "otherX:b" ∨ text = "x" := by
      simpa [body, Body.tokens, Leaf.token] using htext
    rcases htexts with rfl | rfl | rfl | rfl <;> exact ⟨_, _, rfl, rfl, by decide⟩
  rw [hfirst] at hx
  cases hx
  rw [hy, himp rfl]

end FieldRules
