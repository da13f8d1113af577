import FieldRules.Proofs.FieldReads

/-!
# The order of the fields

The fields of a batch are validated in their order, but none of them is judged by it: a rule reads the
other fields by their names. So an order decides which error stops a batch and how the results stand,
and neither whether there are results nor what they are. A field that no rule reads can be added
anywhere and leaves the results of the others alone.
-/

namespace FieldRules

open Registry (ofHistory standardChecks)

/-- The field has the same results among fields that agree on those that its rule reads. -/
theorem Field.gives_iff_of_reads {history : List (String × Check)} {field : Field}
    {table other : Fields Value} (hignores : ∀ call ∈ history, call.2.IgnoresFields)
    (hsame : ∀ tree, field.rule.parse = .ok tree → ∀ name, tree.Reads history name →
      table.get? name = other.get? name) (outcome : Bool) :
    field.Gives (ofHistory history) table outcome ↔
      field.Gives (ofHistory history) other outcome := by
  apply exists_congr
  intro tree
  apply and_congr_right
  intro hparse
  rw [Setting.evaluate_eq_of_reads hignores field.value (hsame tree hparse)]

namespace Registry

variable {registry : Registry} {history : List (String × Check)} {batch other : Batch}
  {results others : Fields Bool}

/-- Two batches have the same result for a field that they share, if they share the values that its
rule reads. -/
theorem get?_results_eq (hignores : ∀ call ∈ history, call.2.IgnoresFields)
    (hbatch : (ofHistory history).validate batch = .ok results)
    (hother : (ofHistory history).validate other = .ok others) {name : String}
    (hfield : batch.get? name = other.get? name)
    (hsame : ∀ field, batch.get? name = some field → ∀ tree, field.rule.parse = .ok tree →
      ∀ read, tree.Reads history read → batch.get? read = other.get? read) :
    results.get? name = others.get? name := by
  apply Option.ext
  intro outcome
  rw [get?_results_iff hbatch, get?_results_iff hother, ← hfield]
  apply exists_congr
  intro field
  apply and_congr_right
  intro hown
  apply Field.gives_iff_of_reads hignores
  intro tree hparse read hreads
  rw [get?_table, get?_table, hsame field hown tree hparse read hreads]

/-! ## Fields in another order, and one more field -/

theorem exists_validate_eq_ok_of_perm (registry : Registry)
    (h : batch.entries.Perm other.entries) :
    (∃ results, registry.validate batch = .ok results) ↔
      ∃ others, registry.validate other = .ok others := by
  rw [registry.exists_validate_eq_ok_iff batch ∅, registry.exists_validate_eq_ok_iff other ∅]
  simp only [h.mem_iff]

theorem get?_results_of_perm (hignores : ∀ call ∈ history, call.2.IgnoresFields)
    (h : batch.entries.Perm other.entries)
    (hbatch : (ofHistory history).validate batch = .ok results)
    (hother : (ofHistory history).validate other = .ok others) (name : String) :
    results.get? name = others.get? name :=
  get?_results_eq hignores hbatch hother (Fields.get?_eq_of_perm h name)
    fun _ _ _ _ read _ ↦ Fields.get?_eq_of_perm h read

theorem exists_validate_eq_ok_of_perm_cons {entry : String × Field} {among : Fields Value}
    (h : other.entries.Perm (entry :: batch.entries))
    (hbatch : ∃ results, registry.validate batch = .ok results)
    (hentry : ∃ outcome, entry.2.Gives registry among outcome) :
    ∃ others, registry.validate other = .ok others := by
  rw [registry.exists_validate_eq_ok_iff _ among] at hbatch ⊢
  simp only [h.mem_iff, List.forall_mem_cons]
  exact ⟨hentry, hbatch⟩

theorem get?_results_of_perm_cons (hignores : ∀ call ∈ history, call.2.IgnoresFields)
    {name key : String} {field : Field}
    (h : other.entries.Perm ((name, field) :: batch.entries))
    (hunread : ∀ entry ∈ batch.entries, ∀ tree, entry.2.rule.parse = .ok tree →
      ¬ tree.Reads history name)
    (hbatch : (ofHistory history).validate batch = .ok results)
    (hother : (ofHistory history).validate other = .ok others) (hkey : key ≠ name) :
    others.get? key = results.get? key := by
  symm
  apply get?_results_eq hignores hbatch hother (Fields.get?_eq_of_perm_cons h hkey).symm
  intro own hown tree hparse read hreads
  have hne : read ≠ name := by
    rintro rfl
    exact hunread (key, own) ((batch.get?_eq_some_iff key own).mp hown) tree hparse hreads
  exact (Fields.get?_eq_of_perm_cons h hne).symm

/-- With the standard checks, a batch in another order has results if the batch has, each under the
same name, and they stand in the order of its own fields. A further field, anywhere among the others,
whose rule succeeds and that no redirected check of theirs names leaves all other results as they
are. -/
theorem standard_order_irrelevant :
    (∀ batch other : Batch, batch.entries.Perm other.entries →
      ((∃ results, standard.validate batch = .ok results) ↔
        ∃ others, standard.validate other = .ok others) ∧
      ∀ results others, standard.validate batch = .ok results →
        standard.validate other = .ok others →
          (∀ name, results.get? name = others.get? name) ∧
          results.names = batch.names ∧ others.names = other.names) ∧
    ∀ (batch larger : Batch) (results : Fields Bool) (name : String) (field : Field),
      standard.validate batch = .ok results →
        larger.entries.Perm ((name, field) :: batch.entries) →
        (∀ entry ∈ batch.entries, ∀ tree, entry.2.rule.parse = .ok tree →
          ¬ tree.Reads standardChecks name) →
        (∃ outcome, field.Gives standard (table larger) outcome) →
          ∃ others, standard.validate larger = .ok others ∧
            ∀ key, key ≠ name → others.get? key = results.get? key := by
  have hignores := ignoresFields_standardChecks
  refine ⟨fun batch other h ↦ ⟨standard.exists_validate_eq_ok_of_perm h, ?_⟩, ?_⟩
  · intro results others hbatch hother
    exact ⟨get?_results_of_perm hignores h hbatch hother, names_eq_of_validate hbatch,
      names_eq_of_validate hother⟩
  · intro batch larger results name field hbatch h hunread hfield
    obtain ⟨others, hlarger⟩ := exists_validate_eq_ok_of_perm_cons h ⟨results, hbatch⟩ hfield
    refine ⟨others, hlarger, fun key hkey ↦ ?_⟩
    exact get?_results_of_perm_cons hignores h hunread hbatch hlarger hkey

/-- Two fields that read each other, and a third one between them that reads the first. -/
theorem standard_order_irrelevant_crossing :
    let first : String × Field := ("a", ⟨.string "x", .text "otherRequired:b"⟩)
    let second : String × Field := ("b", ⟨.null, .text "notOtherRequired:a"⟩)
    let third : String × Field := ("c", ⟨.string "y", .text "otherRequired:a"⟩)
    let batch : Batch := Fields.ofList [first, second]
    let other : Batch := Fields.ofList [second, first]
    let larger : Batch := Fields.ofList [second, third, first]
    ∃ results others more, standard.validate batch = .ok results ∧
      standard.validate other = .ok others ∧ standard.validate larger = .ok more ∧
      (∀ name, results.get? name = others.get? name) ∧ others.names = ["b", "a"] ∧
      ∀ name, name ≠ "c" → more.get? name = results.get? name := by
  intro first second third batch other larger
  let body (text : String) : Body := .leaf (.identifier text) .empty
  have hfirst : first.2.rule.parse = .ok (Tree.ofBody (body "otherRequired:b")) := rfl
  have hsecond : second.2.rule.parse = .ok (Tree.ofBody (body "notOtherRequired:a")) := rfl
  have hthird : third.2.rule.parse = .ok (Tree.ofBody (body "otherRequired:a")) := rfl
  have hpointwise : standard.Pointwise (table batch) batch.entries [("a", false), ("b", false)] :=
    .cons ⟨rfl, _, hfirst, (Setting.evaluate_ofBody _ _).trans rfl⟩ <|
      .cons ⟨rfl, _, hsecond, (Setting.evaluate_ofBody _ _).trans rfl⟩ .nil
  obtain ⟨results, hbatch, -⟩ := exists_validate_eq_ok hpointwise
  have hunread (text : String) (hparam : (Invocation.ofIdentifier text).params.headD "" ≠ "c") :
      ¬ (Tree.ofBody (body text)).Reads standardChecks "c" := by
    rintro ⟨mentioned, call, variant, hmentioned, -, -, hread⟩
    rw [Tree.mentions_ofBody_iff] at hmentioned
    obtain rfl : mentioned = text := by simpa [body, Body.tokens, Leaf.token] using hmentioned
    exact hparam hread.symm
  have hboth : ∀ entry ∈ batch.entries, ∀ tree, entry.2.rule.parse = .ok tree →
      ¬ tree.Reads standardChecks "c" := by
    refine List.forall_mem_cons.mpr ⟨fun tree htree ↦ ?_,
      List.forall_mem_singleton.mpr fun tree htree ↦ ?_⟩
    · obtain rfl := Except.ok.inj (hfirst.symm.trans htree)
      exact hunread _ (by decide)
    · obtain rfl := Except.ok.inj (hsecond.symm.trans htree)
      exact hunread _ (by decide)
  obtain ⟨horder, hadded⟩ := standard_order_irrelevant
  obtain ⟨hsucceeds, hsame⟩ := horder batch other (.swap second first [])
  obtain ⟨others, hother⟩ := hsucceeds.mp ⟨results, hbatch⟩
  obtain ⟨hget, -, hnames⟩ := hsame results others hbatch hother
  have hlarger : larger.entries.Perm (third :: batch.entries) :=
    (List.Perm.swap third second [first]).trans ((List.Perm.swap first second []).cons third)
  obtain ⟨more, hmore, hkept⟩ := hadded batch larger results "c" third.2 hbatch hlarger hboth
    ⟨true, _, hthird, (Setting.evaluate_ofBody _ _).trans rfl⟩
  exact ⟨results, others, more, hbatch, hother, hmore, hget, hnames, hkept⟩

end Registry

end FieldRules
