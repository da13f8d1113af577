import FieldRules.Proofs.Fields
import FieldRules.Proofs.Folding
import FieldRules.Proofs.UnknownChecks

/-!
# Batches

Every field of a batch is judged on its own, among the values of all fields. The results stand under
the names of the fields and in their order. If some rules fail, the first of them in the batch
decides the error, whatever stands behind it.
-/

namespace FieldRules

namespace Field

variable {registry : Registry} {table : Fields Value} {field : Field}

/-- The rule of the field parses, and has this result for its value among the fields of a table. -/
def Gives (registry : Registry) (table : Fields Value) (field : Field) (outcome : Bool) : Prop :=
  ∃ tree, field.rule.parse = .ok tree ∧
    Setting.evaluate ⟨registry, table, field.value⟩ tree = .ok outcome

/-- The rule of the field does not parse, or it parses and its evaluation meets an unknown check. -/
def Fails (registry : Registry) (table : Fields Value) (field : Field) (e : ValidationError) :
    Prop :=
  (∃ cause, field.rule.parse = .error cause ∧ e = .parse cause) ∨
    ∃ tree name, field.rule.parse = .ok tree ∧
      Setting.evaluate ⟨registry, table, field.value⟩ tree = .error (.unknownCheck name) ∧
      e = .eval (.unknownCheck name)

theorem judge_eq_ok_iff {outcome : Bool} :
    (registry.judge table field.value field.rule).value = .ok outcome ↔
      field.Gives registry table outcome := by
  cases hparse : field.rule.parse with
  | error cause => simp [Registry.judge, Gives, hparse]
  | ok tree =>
      simp only [registry.value_judge table field.value hparse, Gives, hparse, Except.ok.injEq,
        exists_eq_left']
      cases Setting.evaluate ⟨registry, table, field.value⟩ tree <;> simp [Except.mapError]

theorem judge_eq_error_iff {e : ValidationError} :
    (registry.judge table field.value field.rule).value = .error e ↔
      field.Fails registry table e := by
  cases hparse : field.rule.parse with
  | error cause => simp [Registry.judge, Fails, hparse, eq_comm]
  | ok tree =>
      rw [registry.value_judge table field.value hparse,
        ValidationError.mapError_eval_eq_error_iff]
      constructor
      · rintro ⟨cause, hcause, rfl⟩
        obtain ⟨name, -, rfl⟩ := (Setting.evaluate_eq_error_iff _ hparse cause).mp hcause
        exact .inr ⟨tree, name, hparse, hcause, rfl⟩
      · rintro (⟨cause, hcause, -⟩ | ⟨other, name, hother, hfails, rfl⟩)
        · rw [hparse] at hcause
          cases hcause
        · rw [hparse, Except.ok.injEq] at hother
          exact ⟨_, hother ▸ hfails, rfl⟩

theorem gives_or_fails (registry : Registry) (table : Fields Value) (field : Field) :
    (∃ outcome, field.Gives registry table outcome) ∨ ∃ e, field.Fails registry table e := by
  cases hjudge : (registry.judge table field.value field.rule).value with
  | ok outcome => exact .inl ⟨outcome, judge_eq_ok_iff.mp hjudge⟩
  | error e => exact .inr ⟨e, judge_eq_error_iff.mp hjudge⟩

/-- The other fields decide neither whether a rule fails nor its error. -/
theorem Fails.of_table {e : ValidationError} (h : field.Fails registry table e)
    (other : Fields Value) : field.Fails registry other e := by
  rcases h with hparse | ⟨tree, name, hparse, hfails, rfl⟩
  · exact .inl hparse
  · refine .inr ⟨tree, name, hparse, ?_, rfl⟩
    rw [Setting.evaluate_eq_error_iff _ hparse] at hfails ⊢
    exact hfails

theorem Fails.not_gives {e : ValidationError} (h : field.Fails registry table e) {outcome : Bool} :
    ¬ field.Gives registry table outcome := by
  intro hgives
  have hjudge := judge_eq_ok_iff.mpr hgives
  rw [judge_eq_error_iff.mpr h] at hjudge
  cases hjudge

theorem Gives.of_table {outcome : Bool} (h : field.Gives registry table outcome)
    (other : Fields Value) : ∃ outcome, field.Gives registry other outcome := by
  rcases gives_or_fails registry other field with hgives | ⟨e, hfails⟩
  · exact hgives
  · exact absurd h (hfails.of_table table).not_gives

theorem Gives.unique {outcome other : Bool} (h : field.Gives registry table outcome)
    (hother : field.Gives registry table other) : outcome = other := by
  have hjudge := judge_eq_ok_iff.mpr h
  rw [judge_eq_ok_iff.mpr hother] at hjudge
  exact (Except.ok.inj hjudge).symm

end Field

namespace Registry

variable {registry : Registry} {table : Fields Value} {entries : List (String × Field)}

/-- The results belong to the entries one for one: each stands under the name of its field, and is
what the field gives among the fields of a table. -/
def Pointwise (registry : Registry) (table : Fields Value) :
    List (String × Field) → List (String × Bool) → Prop :=
  List.Forall₂ fun entry result ↦ result.1 = entry.1 ∧ entry.2.Gives registry table result.2

theorem validateFields_of_pointwise {added : List (String × Bool)}
    (h : registry.Pointwise table entries added) (results : Fields Bool) :
    (registry.validateFields table results entries).value = .ok (results.insertAll added) := by
  induction h generalizing results with
  | nil => rfl
  | @cons entry result entries added hfirst _ ih =>
      obtain ⟨name, field⟩ := entry
      obtain ⟨_, outcome⟩ := result
      obtain ⟨rfl, hgives⟩ := hfirst
      simp only [validateFields, Field.judge_eq_ok_iff.mpr hgives]
      exact ih _

/-- The rules of the entries before some entry succeed, and the rule of that one fails. -/
structure FailsFirst (registry : Registry) (table : Fields Value) (entries : List (String × Field))
    (before : List (String × Field)) (entry : String × Field) (e : ValidationError) : Prop where
  exists_after : ∃ after, entries = before ++ entry :: after
  before_gives : ∀ earlier ∈ before, ∃ outcome, earlier.2.Gives registry table outcome
  fails : entry.2.Fails registry table e

theorem validateFields_of_failsFirst {before : List (String × Field)} {entry : String × Field}
    {e : ValidationError} (h : registry.FailsFirst table entries before entry e)
    (results : Fields Bool) :
    (registry.validateFields table results entries).value = .error e := by
  obtain ⟨⟨after, rfl⟩, hbefore, hfails⟩ := h
  induction before generalizing results with
  | nil => simp [validateFields, Field.judge_eq_error_iff.mpr hfails]
  | cons first before ih =>
      obtain ⟨outcome, hgives⟩ := hbefore _ List.mem_cons_self
      simp only [List.cons_append, validateFields, Field.judge_eq_ok_iff.mpr hgives]
      exact ih _ (fun earlier hearlier ↦ hbefore earlier (List.mem_cons_of_mem _ hearlier))

/-- Either all rules succeed, or one of them is the first that fails. -/
theorem pointwise_or_failsFirst (registry : Registry) (table : Fields Value)
    (entries : List (String × Field)) :
    (∃ added, registry.Pointwise table entries added) ∨
      ∃ before entry e, registry.FailsFirst table entries before entry e := by
  induction entries with
  | nil => exact .inl ⟨[], .nil⟩
  | cons first rest ih =>
      rcases first.2.gives_or_fails registry table with ⟨outcome, hgives⟩ | ⟨e, hfails⟩
      · rcases ih with ⟨added, hadded⟩ | ⟨before, entry, e, ⟨after, rfl⟩, hbefore, hfails⟩
        · exact .inl ⟨(first.1, outcome) :: added, .cons ⟨rfl, hgives⟩ hadded⟩
        · exact .inr ⟨first :: before, entry, e, ⟨after, rfl⟩,
            List.forall_mem_cons.mpr ⟨⟨outcome, hgives⟩, hbefore⟩, hfails⟩
      · exact .inr ⟨[], first, e, ⟨rest, rfl⟩, by simp, hfails⟩

theorem FailsFirst.of_table {before : List (String × Field)} {entry : String × Field}
    {e : ValidationError} (h : registry.FailsFirst table entries before entry e)
    (other : Fields Value) : registry.FailsFirst other entries before entry e where
  exists_after := h.exists_after
  before_gives := by
    intro earlier hearlier
    obtain ⟨outcome, hgives⟩ := h.before_gives earlier hearlier
    exact hgives.of_table other
  fails := h.fails.of_table other

theorem FailsFirst.append {before : List (String × Field)} {entry : String × Field}
    {e : ValidationError} (h : registry.FailsFirst table entries before entry e)
    (later : List (String × Field)) :
    registry.FailsFirst table (entries ++ later) before entry e where
  exists_after := by
    obtain ⟨after, rfl⟩ := h.exists_after
    exact ⟨after ++ later, by simp⟩
  before_gives := h.before_gives
  fails := h.fails

theorem Pointwise.map_fst {results : List (String × Bool)}
    (h : registry.Pointwise table entries results) :
    results.map Prod.fst = entries.map Prod.fst :=
  Fields.map_fst_of_forall₂ (fun _ (field : Field) ↦ field.Gives registry table) h

theorem Pointwise.gives {results : List (String × Bool)}
    (h : registry.Pointwise table entries results) :
    ∀ entry ∈ entries, ∃ outcome, entry.2.Gives registry table outcome := by
  induction h with
  | nil => simp
  | cons hfirst _ ih => exact List.forall_mem_cons.mpr ⟨⟨_, hfirst.2⟩, ih⟩

theorem Pointwise.exists_lookup {results : List (String × Bool)}
    (h : registry.Pointwise table entries results) {name : String} {field : Field}
    (hfield : entries.lookup name = some field) :
    ∃ outcome, results.lookup name = some outcome ∧ field.Gives registry table outcome :=
  Fields.exists_lookup_of_forall₂ (fun _ (field : Field) ↦ field.Gives registry table) h
    hfield

theorem validate_eq (registry : Registry) (batch : Batch) :
    registry.validate batch =
      (registry.validateFields (Registry.table batch) ∅ batch.entries).value := by
  simp only [validate, validation]
  split <;> next h => rw [h]

/-- A batch whose rules all succeed has exactly the results of its fields. -/
theorem exists_validate_eq_ok {batch : Batch} {added : List (String × Bool)}
    (h : registry.Pointwise (Registry.table batch) batch.entries added) :
    ∃ results, registry.validate batch = .ok results ∧ results.entries = added := by
  have hnodup : (added.map Prod.fst).Nodup := by
    rw [h.map_fst]
    exact batch.nodup
  refine ⟨_, (registry.validate_eq batch).trans (validateFields_of_pointwise h ∅), ?_⟩
  exact Fields.entries_insertAll ∅ hnodup

theorem validate_eq_error_of_failsFirst {batch : Batch} {before : List (String × Field)}
    {entry : String × Field} {e : ValidationError}
    (h : registry.FailsFirst (Registry.table batch) batch.entries before entry e) :
    registry.validate batch = .error e := by
  rw [validate_eq, validateFields_of_failsFirst h]

theorem validate_eq_ok_iff (registry : Registry) (batch : Batch) (results : Fields Bool) :
    registry.validate batch = .ok results ↔
      registry.Pointwise (Registry.table batch) batch.entries results.entries := by
  constructor
  · intro hvalidate
    rcases registry.pointwise_or_failsFirst (Registry.table batch) batch.entries with
      ⟨added, hadded⟩ | ⟨before, entry, e, hfirst⟩
    · obtain ⟨given, hgiven, rfl⟩ := exists_validate_eq_ok hadded
      rw [hvalidate] at hgiven
      cases hgiven
      exact hadded
    · rw [validate_eq_error_of_failsFirst hfirst] at hvalidate
      cases hvalidate
  · intro h
    obtain ⟨given, hgiven, hentries⟩ := exists_validate_eq_ok h
    rw [hgiven, Fields.ext hentries]

theorem validate_eq_error_iff (registry : Registry) (batch : Batch) (e : ValidationError) :
    registry.validate batch = .error e ↔
      ∃ before entry, registry.FailsFirst (Registry.table batch) batch.entries before entry e := by
  constructor
  · intro hvalidate
    rcases registry.pointwise_or_failsFirst (Registry.table batch) batch.entries with
      ⟨added, hadded⟩ | ⟨before, entry, cause, hfirst⟩
    · obtain ⟨given, hgiven, -⟩ := exists_validate_eq_ok hadded
      rw [hvalidate] at hgiven
      cases hgiven
    · rw [validate_eq_error_of_failsFirst hfirst] at hvalidate
      cases hvalidate
      exact ⟨before, entry, hfirst⟩
  · rintro ⟨before, entry, hfirst⟩
    exact validate_eq_error_of_failsFirst hfirst

/-- The table of a batch is what inserting its values one after the other makes. -/
theorem table_eq_ofList (batch : Batch) :
    Registry.table batch =
      Fields.ofList (batch.entries.map fun entry ↦ (entry.1, entry.2.value)) :=
  (Fields.ofList_entries (Registry.table batch)).symm

theorem get?_table (batch : Batch) (name : String) :
    (Registry.table batch).get? name = (batch.get? name).map Field.value :=
  Fields.get?_map Field.value batch name

theorem exists_pointwise_iff :
    (∃ added, registry.Pointwise table entries added) ↔
      ∀ entry ∈ entries, ∃ outcome, entry.2.Gives registry table outcome := by
  refine ⟨fun ⟨_, hadded⟩ ↦ hadded.gives, fun hgives ↦ ?_⟩
  rcases registry.pointwise_or_failsFirst table entries with
    hadded | ⟨before, entry, e, ⟨after, rfl⟩, -, hfails⟩
  · exact hadded
  · obtain ⟨outcome, houtcome⟩ := hgives entry (by simp)
    exact absurd houtcome hfails.not_gives

/-- Whether the rules of a batch succeed does not depend on the other fields. -/
theorem exists_validate_eq_ok_iff (registry : Registry) (batch : Batch) (among : Fields Value) :
    (∃ results, registry.validate batch = .ok results) ↔
      ∀ entry ∈ batch.entries, ∃ outcome, entry.2.Gives registry among outcome := by
  constructor
  · rintro ⟨results, hvalidate⟩ entry hentry
    have hpointwise := (registry.validate_eq_ok_iff batch results).mp hvalidate
    obtain ⟨outcome, hgives⟩ := hpointwise.gives entry hentry
    exact hgives.of_table among
  · intro hgives
    have hown : ∀ entry ∈ batch.entries, ∃ outcome,
        entry.2.Gives registry (Registry.table batch) outcome := by
      intro entry hentry
      obtain ⟨outcome, hgives⟩ := hgives entry hentry
      exact hgives.of_table (Registry.table batch)
    obtain ⟨added, hadded⟩ := exists_pointwise_iff.mpr hown
    obtain ⟨results, hvalidate, -⟩ := exists_validate_eq_ok hadded
    exact ⟨results, hvalidate⟩

theorem names_eq_of_validate {batch : Batch} {results : Fields Bool}
    (h : registry.validate batch = .ok results) :
    results.names = batch.names :=
  ((registry.validate_eq_ok_iff batch results).mp h).map_fst

theorem get?_results_iff {batch : Batch} {results : Fields Bool}
    (h : registry.validate batch = .ok results) (name : String) (outcome : Bool) :
    results.get? name = some outcome ↔
      ∃ field, batch.get? name = some field ∧
        field.Gives registry (Registry.table batch) outcome := by
  have hpointwise := (registry.validate_eq_ok_iff batch results).mp h
  constructor
  · intro hresult
    have hmem : name ∈ batch.names := by
      rw [← names_eq_of_validate h]
      exact (results.mem_names_iff name).mpr ⟨outcome, hresult⟩
    obtain ⟨field, hfield⟩ := (batch.mem_names_iff name).mp hmem
    obtain ⟨found, hfound, hgives⟩ := hpointwise.exists_lookup hfield
    obtain rfl : outcome = found := Option.some.inj (hresult.symm.trans hfound)
    exact ⟨field, hfield, hgives⟩
  · rintro ⟨field, hfield, hgives⟩
    obtain ⟨found, hfound, hother⟩ := hpointwise.exists_lookup hfield
    obtain rfl := hgives.unique hother
    exact hfound

/-- Nothing that stands behind a failing field counts, neither rules nor values. -/
theorem validate_eq_of_fails {batch other : Batch} {before after later : List (String × Field)}
    {entry : String × Field} {e : ValidationError}
    (hbatch : batch.entries = before ++ entry :: after)
    (h : entry.2.Fails registry (Registry.table batch) e)
    (hother : other.entries = before ++ entry :: later) :
    registry.validate other = registry.validate batch := by
  -- The first failure is among the entries that both batches have, for the one table and the other.
  rcases registry.pointwise_or_failsFirst (Registry.table batch) (before ++ [entry]) with
    ⟨added, hadded⟩ | ⟨earlier, first, cause, hfirst⟩
  · obtain ⟨outcome, hgives⟩ := hadded.gives entry (by simp)
    exact absurd hgives h.not_gives
  · have hbatch' : batch.entries = before ++ [entry] ++ after := by simp [hbatch]
    have hother' : other.entries = before ++ [entry] ++ later := by simp [hother]
    have hfails := hfirst.append after
    have hfails' := (hfirst.of_table (Registry.table other)).append later
    rw [← hbatch'] at hfails
    rw [← hother'] at hfails'
    rw [validate_eq_error_of_failsFirst hfails, validate_eq_error_of_failsFirst hfails']

/-- A batch is validated field by field, among the values of all its fields, and succeeds only as a
whole: its results are those of the fields, under their names and in their order, and its error is
that of the first field that fails, whatever fields stand behind it. -/
theorem validate_pointwise (registry : Registry) (batch : Batch) :
    let table := Registry.table batch
    (table = Fields.ofList (batch.entries.map fun entry ↦ (entry.1, entry.2.value)) ∧
        ∀ name, table.get? name = (batch.get? name).map Field.value) ∧
      ((∃ results, registry.validate batch = .ok results) ↔
        ∀ entry ∈ batch.entries, ∃ outcome, entry.2.Gives registry table outcome) ∧
      (∀ results, registry.validate batch = .ok results ↔
        registry.Pointwise table batch.entries results.entries) ∧
      (∀ results, registry.validate batch = .ok results → results.names = batch.names) ∧
      (∀ e, registry.validate batch = .error e ↔
        ∃ before entry, registry.FailsFirst table batch.entries before entry e) ∧
      ∀ (before after later : List (String × Field)) (entry : String × Field) (other : Batch),
        batch.entries = before ++ entry :: after → (∃ e, entry.2.Fails registry table e) →
          other.entries = before ++ entry :: later →
            registry.validate other = registry.validate batch := by
  intro table
  refine ⟨⟨table_eq_ofList batch, get?_table batch⟩, ?_, registry.validate_eq_ok_iff batch, ?_,
    registry.validate_eq_error_iff batch, ?_⟩
  · simp only [validate_eq_ok_iff, ← exists_pointwise_iff]
    constructor
    · rintro ⟨results, hresults⟩
      exact ⟨results.entries, hresults⟩
    · rintro ⟨added, hadded⟩
      obtain ⟨results, -, rfl⟩ := exists_validate_eq_ok hadded
      exact ⟨results, hadded⟩
  · intro results h
    exact ((registry.validate_eq_ok_iff batch results).mp h).map_fst
  · rintro before after later entry other hbatch ⟨e, hfails⟩ hother
    exact validate_eq_of_fails hbatch hfails hother

/-- The second field fails, and the value and the rule of the third do not count. -/
theorem validate_pointwise_unknown :
    let registry := Registry.empty.register "odd" fun _ _ _ ↦ true
    let before : List (String × Field) := [("a", ⟨.absent, .text "odd"⟩)]
    let entry : String × Field := ("b", ⟨.absent, .text "odd && prime"⟩)
    let batch := Fields.ofList (before ++ [entry, ("c", ⟨.null, .text "(odd"⟩)])
    registry.validate batch = .error (.eval (.unknownCheck "prime")) ∧
      registry.validate (Fields.ofList (before ++ [entry])) =
        .error (.eval (.unknownCheck "prime")) := by
  intro registry before entry batch
  let first : Body := .leaf (.identifier "odd") .empty
  let second : Body := .leaf (.identifier "odd") <| .leaf (.combinator .and) <|
    .leaf (.identifier "prime") .empty
  have hgives : ∀ earlier ∈ before, ∃ outcome,
      earlier.2.Gives registry (Registry.table batch) outcome := by
    refine List.forall_mem_singleton.mpr ⟨true, Tree.ofBody first, rfl, ?_⟩
    rw [Setting.evaluate_ofBody]
    rfl
  have hfails : entry.2.Fails registry (Registry.table batch) (.eval (.unknownCheck "prime")) := by
    refine .inr ⟨Tree.ofBody second, "prime", rfl, ?_, rfl⟩
    rw [Setting.evaluate_ofBody]
    rfl
  obtain ⟨-, -, -, -, herror, hlater⟩ := validate_pointwise registry batch
  have hbatch := (herror _).mpr ⟨before, entry, ⟨_, rfl⟩, hgives, hfails⟩
  refine ⟨hbatch, ?_⟩
  rw [hlater before _ [] entry (Fields.ofList (before ++ [entry])) rfl ⟨_, hfails⟩ rfl, hbatch]

end Registry

end FieldRules
