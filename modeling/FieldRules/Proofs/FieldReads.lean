import FieldRules.Checks
import FieldRules.Proofs.Batches
import FieldRules.Proofs.Comparison
import FieldRules.Proofs.Registrations

/-!
# The other fields that a rule reads

A check that does not look at the fields by itself sees one of them only in its redirected variants,
and then the one that its first parameter names. So a rule reads the other fields through the first
parameters of its redirected identifiers alone, and one that has none has the same result in every
batch.
-/

namespace FieldRules

open Registry (Latest ofHistory)

/-- The check does not look at the fields. -/
def Check.IgnoresFields (check : Check) : Prop :=
  ∀ fields other, check fields = check other

theorem Registry.ignoresFields_standardChecks :
    ∀ call ∈ standardChecks, call.2.IgnoresFields := by
  simp only [standardChecks, List.forall_mem_cons]
  exact ⟨fun _ _ ↦ rfl, fun _ _ ↦ rfl, fun _ _ ↦ rfl, fun _ _ ↦ rfl, fun _ _ ↦ rfl, by simp⟩

namespace Variant

/-- Whether the variant judges the value of another field. -/
def redirects : Variant → Bool
  | .base => false
  | .other => true
  | .not => false
  | .notOther => true

theorem check_congr {given : Check} (hgiven : given.IgnoresFields) (variant : Variant)
    {fields other : Fields Value} {params : List String} (value : Value)
    (h : variant.redirects = true →
      fields.get? (params.headD "") = other.get? (params.headD "")) :
    variant.check given fields value params = variant.check given other value params := by
  have hplain : given fields value params = given other value params := by
    rw [hgiven fields other]
  have hredirected (hfield : fields.get? (params.headD "") = other.get? (params.headD "")) :
      given.redirected fields value params = given.redirected other value params := by
    rw [Check.redirected, Check.redirected, hgiven fields other, hfield]
  cases variant with
  | base => exact hplain
  | other => exact hredirected (h rfl)
  | not => exact congrArg (!·) hplain
  | notOther => exact congrArg (!·) (hredirected (h rfl))

end Variant

/-- An identifier of the tree names a redirected check, and its first parameter is this field. -/
def Tree.Reads (tree : Tree) (history : List (String × Check)) (field : String) : Prop :=
  ∃ text call variant, tree.Mentions text ∧
    Latest history (Invocation.ofIdentifier text).name call variant ∧
    variant.redirects = true ∧ field = (Invocation.ofIdentifier text).params.headD ""

namespace Setting

variable {history : List (String × Check)} {tree : Tree} {table other : Fields Value}

theorem invoke_congr (hignores : ∀ call ∈ history, call.2.IgnoresFields) (value : Value)
    (hsame : ∀ field, tree.Reads history field → table.get? field = other.get? field)
    {text : String} (htext : tree.Mentions text) :
    Setting.invoke ⟨ofHistory history, table, value⟩ text =
      Setting.invoke ⟨ofHistory history, other, value⟩ text := by
  unfold invoke
  dsimp only
  cases hget : (ofHistory history).get? (Invocation.ofIdentifier text).name with
  | none => rfl
  | some check =>
      obtain ⟨call, variant, hlatest, rfl⟩ := Registry.get?_ofHistory_iff.mp hget
      have hcheck := variant.check_congr (hignores call hlatest.mem) value fun hredirects ↦
        hsame _ ⟨text, call, variant, htext, hlatest, hredirects, rfl⟩
      dsimp only
      rw [hcheck]

theorem evaluate_eq_of_reads (hignores : ∀ call ∈ history, call.2.IgnoresFields) (value : Value)
    (hsame : ∀ field, tree.Reads history field → table.get? field = other.get? field) :
    Setting.evaluate ⟨ofHistory history, table, value⟩ tree =
      Setting.evaluate ⟨ofHistory history, other, value⟩ tree :=
  evaluate_congr fun _ htext ↦ invoke_congr hignores value hsame htext

end Setting

/-- If the registered checks do not look at the fields by themselves, a rule has the same result, or
the same error, for all fields that agree on those it reads. A rule that reads none of them has the
result in a batch that it has for its value alone. -/
theorem Registry.rule_reads_only_named_fields (history : List (String × Check))
    (hignores : ∀ call ∈ history, call.2.IgnoresFields) (rule : Rule) (tree : Tree)
    (hparse : rule.parse = .ok tree) :
    let registry := ofHistory history
    let evaluate (table : Fields Value) (value : Value) :=
      Setting.evaluate ⟨registry, table, value⟩ tree
    (∀ value (table other : Fields Value),
        (∀ field, tree.Reads history field → table.get? field = other.get? field) →
          evaluate table value = evaluate other value) ∧
      ((∀ field, ¬ tree.Reads history field) →
        (∀ value table other, evaluate table value = evaluate other value) ∧
        ∀ batch results name value, registry.validate batch = .ok results →
          batch.get? name = some ⟨value, rule⟩ →
            ∃ outcome, results.get? name = some outcome ∧
              registry.validateOne value rule = .ok outcome) := by
  intro registry evaluate
  have hagree (value : Value) (table other : Fields Value)
      (hsame : ∀ field, tree.Reads history field → table.get? field = other.get? field) :
      evaluate table value = evaluate other value :=
    Setting.evaluate_eq_of_reads hignores value hsame
  refine ⟨hagree, fun hnone ↦ ?_⟩
  have hall (value : Value) (table other : Fields Value) :
      evaluate table value = evaluate other value :=
    hagree value table other fun field hreads ↦ absurd hreads (hnone field)
  refine ⟨hall, fun batch results name value hvalidate hfield ↦ ?_⟩
  have hpointwise := (registry.validate_eq_ok_iff batch results).mp hvalidate
  obtain ⟨outcome, hresult, own, hown, hevaluate⟩ := hpointwise.exists_lookup hfield
  obtain rfl : tree = own := Except.ok.inj (hparse.symm.trans hown)
  have halone : (registry.alone value).evaluate tree = .ok outcome :=
    (hall value _ _).trans hevaluate
  refine ⟨outcome, hresult, ?_⟩
  rw [registry.validateOne_eq_evaluate value hparse, halone]
  rfl

/-- The first rule reads the field `b` alone, the second reads none. -/
theorem Registry.rule_reads_only_named_fields_required :
    let rule : Rule := .text "required && otherRequired:b"
    let lone : Rule := .text "!notRequired"
    let batch := Fields.ofList [("a", ⟨.string "x", lone⟩), ("b", ⟨.null, rule⟩)]
    (∃ tree, rule.parse = .ok tree ∧
      Setting.evaluate ⟨standard, Registry.table batch, .boolean true⟩ tree =
        Setting.evaluate ⟨standard, Fields.ofList [("b", .null)], .boolean true⟩ tree) ∧
      ∃ results outcome, standard.validate batch = .ok results ∧
        results.get? "a" = some outcome ∧
        standard.validateOne (.string "x") lone = .ok outcome := by
  intro rule lone batch
  let first : Body := .leaf (.identifier "required") <| .leaf (.combinator .and) <|
    .leaf (.identifier "otherRequired:b") .empty
  let second : Body := .leaf .negation <| .leaf (.identifier "notRequired") .empty
  have hfirst : rule.parse = .ok (Tree.ofBody first) := rfl
  have hsecond : lone.parse = .ok (Tree.ofBody second) := rfl
  -- What stands under these two names is not redirected.
  have hown : ∀ call ∈ standardChecks, ∀ variant ∈ Variant.all,
      variant.name call.1 = "required" ∨ variant.name call.1 = "notRequired" →
        variant.redirects = false := by decide
  constructor
  · refine ⟨Tree.ofBody first, hfirst, ?_⟩
    obtain ⟨hagree, -⟩ := rule_reads_only_named_fields standardChecks
      ignoresFields_standardChecks rule (Tree.ofBody first) hfirst
    refine hagree _ _ _ ?_
    rintro field ⟨text, call, variant, htext, hlatest, hredirects, rfl⟩
    rw [Tree.mentions_ofBody_iff] at htext
    have htexts : text = "required" ∨ text = "otherRequired:b" := by
      simpa [first, Body.tokens, Leaf.token] using htext
    rcases htexts with rfl | rfl
    · rw [hown call hlatest.mem variant variant.mem_all (.inl hlatest.name_eq)] at hredirects
      cases hredirects
    · rfl
  · obtain ⟨-, hnone⟩ := rule_reads_only_named_fields standardChecks
      ignoresFields_standardChecks lone (Tree.ofBody second) hsecond
    have hpointwise : standard.Pointwise (Registry.table batch) batch.entries
        [("a", true), ("b", false)] :=
      .cons ⟨rfl, Tree.ofBody second, hsecond, (Setting.evaluate_ofBody _ _).trans rfl⟩ <|
        .cons ⟨rfl, Tree.ofBody first, hfirst, (Setting.evaluate_ofBody _ _).trans rfl⟩ .nil
    obtain ⟨results, hvalidate, -⟩ := exists_validate_eq_ok hpointwise
    obtain ⟨-, hsame⟩ := hnone <| by
      rintro field ⟨text, call, variant, htext, hlatest, hredirects, rfl⟩
      rw [Tree.mentions_ofBody_iff] at htext
      obtain rfl : text = "notRequired" := by simpa [second, Body.tokens, Leaf.token] using htext
      rw [hown call hlatest.mem variant variant.mem_all (.inr hlatest.name_eq)] at hredirects
      cases hredirects
    obtain ⟨outcome, hresult, hlone⟩ := hsame batch results "a" (.string "x") hvalidate rfl
    exact ⟨results, outcome, hvalidate, hresult, hlone⟩

end FieldRules
