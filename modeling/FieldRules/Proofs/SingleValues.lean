import FieldRules.Proofs.BatchAnswers

/-!
# Values alone

A value is validated alone as if it were the only field of a batch, under the name that is meant for
it. Both ways come to the same table, so also a check that looks at the fields sees no difference.
-/

namespace FieldRules

/-- The batch that has this field alone. -/
def Batch.single (field : Field) : Batch :=
  Fields.ofList [(Registry.singleField, field)]

namespace Registry

theorem table_single (value : Value) (rule : Rule) :
    Registry.table (.single ⟨value, rule⟩) = (∅ : Fields Value).insert singleField value := rfl

theorem validate_single (registry : Registry) (value : Value) (rule : Rule) :
    registry.validate (.single ⟨value, rule⟩) =
      (registry.validateOne value rule).map fun outcome ↦
        Fields.ofList [(singleField, outcome)] := by
  have hentries : (Batch.single ⟨value, rule⟩).entries = [(singleField, ⟨value, rule⟩)] := rfl
  rw [validate_eq, table_single, hentries, validateOne, validationOne, validateFields]
  dsimp only
  cases (registry.judge ((∅ : Fields Value).insert singleField value) value rule).value <;> rfl

theorem validate_single_eq_ok_iff (registry : Registry) (value : Value) (rule : Rule)
    (outcome : Bool) :
    (∃ results, registry.validate (.single ⟨value, rule⟩) = .ok results ∧
        results.entries = [(singleField, outcome)]) ↔
      registry.validateOne value rule = .ok outcome := by
  rw [validate_single]
  constructor
  · rintro ⟨results, hresults, hentries⟩
    obtain ⟨own, hown, rfl⟩ := Json.exists_of_map_eq_ok hresults
    cases hentries
    exact hown
  · intro hone
    exact ⟨_, congrArg _ hone, rfl⟩

theorem validate_single_eq_error_iff (registry : Registry) (value : Value) (rule : Rule)
    (e : ValidationError) :
    registry.validate (.single ⟨value, rule⟩) = .error e ↔
      registry.validateOne value rule = .error e := by
  rw [validate_single]
  cases registry.validateOne value rule <;> simp [Except.map]

end Registry

namespace Command

/-- The batch in JSON with one field, a text with the text of a rule. -/
def single (value rule : String) : Json :=
  .object [(Registry.singleField, .array [.string value, .string rule])]

/-- The results in JSON for one field. -/
def answer (outcome : Bool) : Json :=
  .object [(Registry.singleField, .boolean outcome)]

theorem fits_single (value rule : String) : Json.Fits Json.maxDepth (single value rule) := by
  refine .object (List.nodup_singleton _) (List.forall_mem_singleton.mpr ?_)
  exact .array (List.forall_mem_cons.mpr ⟨.string, List.forall_mem_singleton.mpr .string⟩)

theorem fits_answer (outcome : Bool) : Json.Fits Json.maxDepth (answer outcome) :=
  .object (List.nodup_singleton _) (List.forall_mem_singleton.mpr .boolean)

/-- The answer to the batch is the result of the value alone, in JSON. -/
theorem batch_single {input value rule : String} (hread : Json.read input = .ok (single value rule))
    (onLines : Bool) :
    batch (some input) onLines =
      (check rule (some value)).map fun outcome ↦ (answer outcome).print onLines := by
  have hbatch : Batch.ofJson (single value rule) = .ok (.single ⟨.string value, .text rule⟩) := rfl
  have hvalidate := Registry.standard.validate_single (.string value) (.text rule)
  rw [check, Option.elim]
  cases hone : Registry.standard.validateOne (.string value) (.text rule) with
  | error e =>
      rw [hone, Except.map] at hvalidate
      rw [batch_of_validate_error hread hbatch hvalidate]
      rfl
  | ok outcome =>
      have hanswer : Batch.resultsToJson (Fields.ofList [(Registry.singleField, outcome)]) =
          answer outcome := rfl
      rw [hone, Except.map] at hvalidate
      rw [batch_of_validate_ok hread hbatch hvalidate, hanswer]
      rfl

theorem batch_single_eq_ok_iff {input value rule : String}
    (hread : Json.read input = .ok (single value rule)) (onLines outcome : Bool) :
    (∃ output, batch (some input) onLines = .ok output ∧ Json.read output = .ok (answer outcome)) ↔
      check rule (some value) = .ok outcome := by
  rw [batch_single hread]
  constructor
  · rintro ⟨output, houtput, hanswer⟩
    obtain ⟨own, hown, rfl⟩ := Json.exists_of_map_eq_ok houtput
    rw [Json.read_print (fits_answer own)] at hanswer
    cases hanswer
    exact hown
  · intro hcheck
    exact ⟨_, congrArg _ hcheck, Json.read_print (fits_answer outcome) onLines⟩

theorem batch_single_eq_error_iff {input value rule : String}
    (hread : Json.read input = .ok (single value rule)) (onLines : Bool) (e : CommandError) :
    batch (some input) onLines = .error e ↔ check rule (some value) = .error e := by
  rw [batch_single hread]
  cases check rule (some value) <;> simp [Except.map]

/-- A value that is validated alone succeeds and fails as the only field of a batch does, with the
same result and the same error, whatever checks there are. So the two commands agree on every text
and every rule, for all texts in JSON that give the field this pair. -/
theorem alone_as_only_field :
    (∀ (registry : Registry) (value : Value) (rule : Rule),
      let only : Batch := .single ⟨value, rule⟩
      (∀ outcome, registry.validateOne value rule = .ok outcome ↔
        ∃ results, registry.validate only = .ok results ∧
          results.entries = [(Registry.singleField, outcome)]) ∧
      ∀ e, registry.validateOne value rule = .error e ↔ registry.validate only = .error e) ∧
    ∀ (value rule : String) (onLines : Bool),
      Json.read ((single value rule).print onLines) = .ok (single value rule) ∧
      ∀ input, Json.read input = .ok (single value rule) →
        (∀ outcome, check rule (some value) = .ok outcome ↔
          ∃ output, batch (some input) onLines = .ok output ∧
            Json.read output = .ok (answer outcome)) ∧
        ∀ e, check rule (some value) = .error e ↔ batch (some input) onLines = .error e := by
  constructor
  · intro registry value rule only
    constructor
    · intro outcome
      exact (registry.validate_single_eq_ok_iff value rule outcome).symm
    · intro e
      exact (registry.validate_single_eq_error_iff value rule e).symm
  · intro value rule onLines
    refine ⟨Json.read_print (fits_single value rule) onLines, fun input hread ↦ ⟨?_, ?_⟩⟩
    · intro outcome
      exact (batch_single_eq_ok_iff hread onLines outcome).symm
    · intro e
      exact (batch_single_eq_error_iff hread onLines e).symm

/-- The redirected check finds the value itself, as the only field of the batch. -/
theorem alone_as_only_field_redirected :
    check "otherRequired:value" (some "x") = .ok true ∧
      ∃ output, batch (some ((single "x" "otherRequired:value").print true)) false = .ok output ∧
        Json.read output = .ok (answer true) := by
  let body : Body := .leaf (.identifier "otherRequired:value") .empty
  have hparse : (Rule.text "otherRequired:value").parse = .ok (Tree.ofBody body) := rfl
  have hcheck : check "otherRequired:value" (some "x") = .ok true := by
    rw [check, Registry.validateOne_eq_evaluate _ _ hparse, Setting.evaluate_ofBody]
    rfl
  obtain ⟨-, hcommands⟩ := alone_as_only_field
  obtain ⟨hread, -⟩ := hcommands "x" "otherRequired:value" true
  obtain ⟨-, hagree⟩ := hcommands "x" "otherRequired:value" false
  exact ⟨hcheck, ((hagree _ hread).1 true).mp hcheck⟩

end Command

end FieldRules
