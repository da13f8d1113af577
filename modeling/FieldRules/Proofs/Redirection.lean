import FieldRules.Checks
import FieldRules.Proofs.Batches
import FieldRules.Proofs.Invocations

/-!
# Checks of other fields

The variant of a check for another field takes the name of that field as its first parameter, and
judges the value there by the parameters behind it. Every field of a batch can be reached so, from
every other one and from itself; a name that is not there stands for an absent value. A value that
is validated alone is reached under its own name.
-/

namespace FieldRules

open Invocation (Kept)

/-- The rule that is one identifier. -/
def Rule.single (name : String) (params : List String) : Rule :=
  .tokens [.identifier (Invocation.identifier name params)]

/-- The value of a field, or an absent one if the batch does not have the field. -/
def Batch.valueOf (batch : Batch) (name : String) : Value :=
  ((batch.get? name).map Field.value).getD .absent

namespace Registry

variable {registry : Registry} {name : String} {check : Check} {params : List String}

/-- The outcome of a single identifier for a value among the fields of a table. -/
def call (registry : Registry) (table : Fields Value) (value : Value) (name : String)
    (params : List String) : Except ValidationError Bool :=
  (registry.judge table value (.single name params)).value

theorem call_eq (hcheck : registry.get? name = some check) (hname : Kept ':' name)
    (hparams : ∀ param ∈ params, Kept ',' param) (table : Fields Value) (value : Value) :
    registry.call table value name params = .ok (check table value params) := by
  let body : Body := .leaf (.identifier (Invocation.identifier name params)) .empty
  have hparse : (Rule.single name params).parse = .ok (Tree.ofBody body) :=
    Tree.ofTokens_tokens body
  have hinvoke : ∃ event, Setting.invoke ⟨registry, table, value⟩
      (Invocation.identifier name params) = .ok (check table value params, event) := by
    simp [Setting.invoke, Invocation.ofIdentifier_identifier hname hparams, hcheck]
  obtain ⟨event, hevent⟩ := hinvoke
  rw [call, registry.value_judge table value hparse, Setting.evaluate_ofBody,
    Setting.result_identifier, hevent]
  rfl

theorem validateOne_single (registry : Registry) (value : Value) (name : String)
    (params : List String) :
    registry.validateOne value (.single name params) =
      registry.call ((∅ : Fields Value).insert singleField value) value name params := rfl

theorem get?_of_call_eq_ok {batch : Batch} {field : String} {value : Value} {outcome : Bool}
    {results : Fields Bool} (hcall : registry.call (table batch) value name params = .ok outcome)
    (hfield : batch.get? field = some ⟨value, .single name params⟩)
    (hvalidate : registry.validate batch = .ok results) : results.get? field = some outcome := by
  apply (get?_results_iff hvalidate field outcome).mpr
  exact ⟨_, hfield, Field.judge_eq_ok_iff.mp hcall⟩

end Registry

/-! ## The standard checks -/

namespace Registry

variable {foo : String} {check : Check}

theorem get?_standard : ∀ entry ∈ standardChecks, standard.get? entry.1 = some entry.2 := by
  simp only [standardChecks, List.forall_mem_cons]
  exact ⟨rfl, rfl, rfl, rfl, rfl, by simp⟩

theorem get?_standard_otherName :
    ∀ entry ∈ standardChecks, standard.get? (otherName entry.1) = some entry.2.redirected := by
  simp only [standardChecks, List.forall_mem_cons]
  exact ⟨rfl, rfl, rfl, rfl, rfl, by simp⟩

theorem get?_standard_notName_otherName :
    ∀ entry ∈ standardChecks,
      standard.get? (notName (otherName entry.1)) = some entry.2.redirected.negated := by
  simp only [standardChecks, List.forall_mem_cons]
  exact ⟨rfl, rfl, rfl, rfl, rfl, by simp⟩

theorem kept_names : ∀ entry ∈ standardChecks,
    Kept ':' entry.1 ∧ Kept ':' (otherName entry.1) ∧ Kept ':' (notName (otherName entry.1)) := by
  have hnames : ∀ entry ∈ standardChecks,
      ∀ name ∈ [entry.1, otherName entry.1, notName (otherName entry.1)],
        Text.trimmed name = name ∧ ':' ∉ name.toList := by
    simp only [standardChecks, List.forall_mem_cons]
    refine ⟨?_, ?_, ?_, ?_, ?_, by simp⟩ <;> decide
  intro entry hentry
  have hkept : ∀ name ∈ [entry.1, otherName entry.1, notName (otherName entry.1)],
      Kept ':' name :=
    fun name hname ↦ ⟨(hnames entry hentry name hname).1, (hnames entry hentry name hname).2⟩
  exact ⟨hkept _ (by simp), hkept _ (by simp), hkept _ (by simp)⟩

/-- No standard check looks at the other fields itself. -/
theorem standardChecks_table (h : (foo, check) ∈ standardChecks) (table other : Fields Value) :
    check table = check other := by
  have hall : ∀ entry ∈ standardChecks, entry.2 table = entry.2 other := by
    simp only [standardChecks, List.forall_mem_cons]
    exact ⟨rfl, rfl, rfl, rfl, rfl, by simp⟩
  exact hall _ h

theorem call_redirected (h : (foo, check) ∈ standardChecks) {given : List String}
    (hgiven : ∀ param ∈ given, Kept ',' param) (table : Fields Value) (own : Value) :
    ∃ result,
      standard.call table ((table.get? (given.headD "")).getD .absent) foo given.tail = .ok result ∧
      standard.call table own (otherName foo) given = .ok result ∧
      standard.call table own (notName (otherName foo)) given = .ok (!result) := by
  obtain ⟨hfoo, hother, hnotOther⟩ := kept_names _ h
  have htail : ∀ param ∈ given.tail, Kept ',' param :=
    fun param hparam ↦ hgiven param (List.mem_of_mem_tail hparam)
  refine ⟨_, call_eq (get?_standard _ h) hfoo htail _ _, ?_, ?_⟩
  · exact call_eq (get?_standard_otherName _ h) hother hgiven table own
  · exact call_eq (get?_standard_notName_otherName _ h) hnotOther hgiven table own

theorem get?_table_eq_valueOf (batch : Batch) (name : String) :
    ((table batch).get? name).getD .absent = batch.valueOf name := by
  rw [get?_table, Batch.valueOf]

/-- A standard check of another field gives what the check itself gives on the value of that field,
and its negation gives the opposite, whatever value they stand at. A batch has these results for the
fields with such rules. Without parameters the field without a name is read, and a value that is
validated alone is the only field there is. -/
theorem standard_redirects (hfoo : (foo, check) ∈ standardChecks) {other : String}
    {params : List String} (hother : Kept ',' other) (hparams : ∀ param ∈ params, Kept ',' param) :
    (∀ (batch : Batch) (own : Value), ∃ result,
        standard.call (table batch) (batch.valueOf other) foo params = .ok result ∧
        standard.call (table batch) own (otherName foo) (other :: params) = .ok result ∧
        standard.call (table batch) own (notName (otherName foo)) (other :: params) =
          .ok (!result) ∧
        ∀ field results, standard.validate batch = .ok results →
          (batch.get? field = some ⟨own, .single (otherName foo) (other :: params)⟩ →
            results.get? field = some result) ∧
          (batch.get? field = some ⟨own, .single (notName (otherName foo)) (other :: params)⟩ →
            results.get? field = some (!result))) ∧
      (∀ (batch : Batch) (own : Value), ∃ result,
        standard.call (table batch) (batch.valueOf "") foo [] = .ok result ∧
        standard.call (table batch) own (otherName foo) [] = .ok result ∧
        standard.call (table batch) own (notName (otherName foo)) [] = .ok (!result)) ∧
      ∀ own : Value, ∃ result,
        standard.validateOne (if other = singleField then own else .absent) (.single foo params) =
          .ok result ∧
        standard.validateOne own (.single (otherName foo) (other :: params)) = .ok result ∧
        standard.validateOne own (.single (notName (otherName foo)) (other :: params)) =
          .ok (!result) := by
  have hgiven : ∀ param ∈ other :: params, Kept ',' param :=
    List.forall_mem_cons.mpr ⟨hother, hparams⟩
  refine ⟨fun batch own ↦ ?_, fun batch own ↦ ?_, fun own ↦ ?_⟩
  · obtain ⟨result, hresult, hredirected, hnegated⟩ :=
      call_redirected hfoo hgiven (table batch) own
    rw [List.headD_cons, List.tail_cons, get?_table_eq_valueOf] at hresult
    refine ⟨result, hresult, hredirected, hnegated, fun field results hvalidate ↦ ⟨?_, ?_⟩⟩
    · intro hfield
      exact get?_of_call_eq_ok hredirected hfield hvalidate
    · intro hfield
      exact get?_of_call_eq_ok hnegated hfield hvalidate
  · obtain ⟨result, hresult, hredirected⟩ :=
      call_redirected hfoo (List.forall_mem_nil _) (table batch) own
    rw [List.headD_nil, List.tail_nil, get?_table_eq_valueOf] at hresult
    exact ⟨result, hresult, hredirected⟩
  · let alone : Fields Value := (∅ : Fields Value).insert singleField own
    obtain ⟨result, hresult, hredirected⟩ := call_redirected hfoo hgiven alone own
    refine ⟨result, ?_, hredirected⟩
    have hvalue : (alone.get? other).getD .absent =
        if other = singleField then own else .absent := by
      rw [Fields.get?_insert, Fields.get?_empty]
      split <;> rfl
    have hcheck : standard.get? foo = some check := get?_standard _ hfoo
    have hname : Kept ':' foo := (kept_names _ hfoo).1
    rw [List.headD_cons, List.tail_cons, hvalue, call_eq hcheck hname hparams] at hresult
    rw [validateOne_single, call_eq hcheck hname hparams, standardChecks_table hfoo _ alone]
    exact hresult

/-- A field without a value is judged by a later one, whose name has a colon in it. -/
theorem standard_redirects_later :
    let rule : Rule := .tokens [.identifier "notOtherRequired:b:c"]
    let batch : Batch := Fields.ofList
      [("a", ⟨.null, rule⟩), ("b:c", ⟨.string "x", .tokens [.identifier "required"]⟩)]
    ("required", Check.required) ∈ standardChecks ∧ Kept ',' "b:c" ∧
      standard.validate batch = .ok (Fields.ofList [("a", false), ("b:c", true)]) ∧
      standard.validateOne (.string "x") rule = .ok true := by
  intro rule batch
  have hrequired : ("required", Check.required) ∈ standardChecks := List.mem_cons_self
  have hother : Kept ',' "b:c" := ⟨by decide, by decide⟩
  obtain ⟨hbatch, -, halone⟩ :=
    standard_redirects hrequired hother (List.forall_mem_nil (Kept ','))
  have hcheck (table : Fields Value) (value : Value) :
      standard.call table value "required" [] = .ok (!value.isBlank) :=
    call_eq (get?_standard _ hrequired) (kept_names _ hrequired).1 (by simp) table value
  refine ⟨hrequired, hother, ?_, ?_⟩
  · obtain ⟨result, hresult, -, hnegated, -⟩ := hbatch batch .null
    rw [hcheck] at hresult
    cases hresult
    apply (standard.validate_eq_ok_iff batch _).mpr
    refine .cons ⟨rfl, Field.judge_eq_ok_iff.mp hnegated⟩ (.cons ⟨rfl, ?_⟩ .nil)
    exact Field.judge_eq_ok_iff.mp (hcheck (table batch) (.string "x"))
  · obtain ⟨result, hresult, -, hnegated⟩ := halone (.string "x")
    rw [validateOne_single, hcheck] at hresult
    cases hresult
    exact hnegated

end Registry

end FieldRules
