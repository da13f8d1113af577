import FieldRules.Commands
import FieldRules.Proofs.Batches
import FieldRules.Proofs.Json.Members

/-!
# Answers to batches in JSON

A text is first read as JSON, then all its members are read as fields, and only then are the rules
looked at. So a member that is no field decides the answer, whatever the rules before it are, and
the results stand for the last of the members with a key, in the place of the first.
-/

namespace FieldRules

namespace Batch

variable {members : List (String × Json)} {entries : List (String × Field)}

/-- The entries belong to the members one for one, and each is what its member is read as. -/
def Converts : List (String × Json) → List (String × Field) → Prop :=
  List.Forall₂ fun member entry ↦
    entry.1 = member.1 ∧ fieldOfJson member.1 member.2 = .ok entry.2

/-- The members before some member are read as fields, and that one is not. -/
structure StopsFirst (members before : List (String × Json)) (member : String × Json)
    (e : BatchError) : Prop where
  exists_after : ∃ after, members = before ++ member :: after
  before_converts : ∀ earlier ∈ before, ∃ field, fieldOfJson earlier.1 earlier.2 = .ok field
  stops : fieldOfJson member.1 member.2 = .error e

theorem addMembers_of_converts (h : Converts members entries) (batch : Batch) :
    addMembers batch members = .ok (batch.insertAll entries) := by
  induction h generalizing batch with
  | nil => rfl
  | @cons member entry members entries hfirst _ ih =>
      obtain ⟨name, json⟩ := member
      obtain ⟨_, field⟩ := entry
      obtain ⟨rfl, hfield⟩ := hfirst
      rw [addMembers, hfield]
      exact ih _

theorem addMembers_of_stopsFirst {before : List (String × Json)} {member : String × Json}
    {e : BatchError} (h : StopsFirst members before member e) (batch : Batch) :
    addMembers batch members = .error e := by
  obtain ⟨⟨after, rfl⟩, hbefore, hstops⟩ := h
  induction before generalizing batch with
  | nil => rw [List.nil_append, addMembers, hstops]
  | cons first before ih =>
      obtain ⟨field, hfield⟩ := hbefore _ List.mem_cons_self
      rw [List.cons_append, addMembers, hfield]
      exact ih _ fun earlier hearlier ↦ hbefore earlier (List.mem_cons_of_mem _ hearlier)

theorem converts_or_stopsFirst (members : List (String × Json)) :
    (∃ entries, Converts members entries) ∨
      ∃ before member e, StopsFirst members before member e := by
  induction members with
  | nil => exact .inl ⟨[], .nil⟩
  | cons first rest ih =>
      cases hfield : fieldOfJson first.1 first.2 with
      | error e => exact .inr ⟨[], first, e, ⟨rest, rfl⟩, by simp, hfield⟩
      | ok field =>
          rcases ih with ⟨entries, hentries⟩ | ⟨before, member, e, ⟨after, rfl⟩, hbefore, hstops⟩
          · exact .inl ⟨(first.1, field) :: entries, .cons ⟨rfl, hfield⟩ hentries⟩
          · exact .inr ⟨first :: before, member, e, ⟨after, rfl⟩,
              List.forall_mem_cons.mpr ⟨⟨field, hfield⟩, hbefore⟩, hstops⟩

theorem exists_converts
    (h : ∀ member ∈ members, ∃ field, fieldOfJson member.1 member.2 = .ok field) :
    ∃ entries, Converts members entries := by
  rcases converts_or_stopsFirst members with
    hconverts | ⟨before, member, e, ⟨after, rfl⟩, -, hstops⟩
  · exact hconverts
  · obtain ⟨field, hfield⟩ := h member (by simp)
    rw [hstops] at hfield
    cases hfield

theorem Converts.map_fst (h : Converts members entries) :
    entries.map Prod.fst = members.map Prod.fst :=
  Fields.map_fst_of_forall₂ (fun name json field ↦ fieldOfJson name json = .ok field) h

theorem Converts.exists_lookup (h : Converts members entries) {name : String} {json : Json}
    (hjson : members.lookup name = some json) :
    ∃ field, entries.lookup name = some field ∧ fieldOfJson name json = .ok field :=
  Fields.exists_lookup_of_forall₂ (fun name json field ↦ fieldOfJson name json = .ok field) h hjson

theorem Converts.exists_ofJson_eq_ok (h : Converts members entries)
    (hkeys : (members.map Prod.fst).Nodup) :
    ∃ batch, ofJson (.object members) = .ok batch ∧ batch.entries = entries := by
  have hnodup : (entries.map Prod.fst).Nodup := by rwa [h.map_fst]
  exact ⟨_, addMembers_of_converts h ∅, Fields.entries_ofList hnodup⟩

theorem fits_resultsToJson (room : Nat) (results : Fields Bool) :
    Json.Fits (room + 1) (resultsToJson results) := by
  apply Json.Fits.object
  · rw [List.map_map]
    exact results.nodup
  · intro member hmember
    obtain ⟨result, -, rfl⟩ := List.mem_map.mp hmember
    exact .boolean

end Batch

namespace Command

variable {text : String} {json : Json} {fields : Batch} {onLines : Bool}

theorem batch_of_ofJson_error {e : BatchError} (hread : Json.read text = .ok json)
    (h : Batch.ofJson json = .error e) : batch (some text) onLines = .error (.batch e) := by
  rw [batch, hread]
  dsimp only
  rw [h]

theorem batch_of_validate_error {e : ValidationError} (hread : Json.read text = .ok json)
    (hbatch : Batch.ofJson json = .ok fields)
    (h : Registry.standard.validate fields = .error e) :
    batch (some text) onLines = .error (.validation e) := by
  rw [batch, hread]
  dsimp only
  rw [hbatch]
  dsimp only
  rw [h]

theorem batch_of_validate_ok {results : Fields Bool} (hread : Json.read text = .ok json)
    (hbatch : Batch.ofJson json = .ok fields)
    (h : Registry.standard.validate fields = .ok results) :
    batch (some text) onLines = .ok ((Batch.resultsToJson results).print onLines) := by
  rw [batch, hread]
  dsimp only
  rw [hbatch]
  dsimp only
  rw [h]

theorem batch_eq_error_batch_iff {members : List (String × Json)}
    (hread : Json.read text = .ok (.object members)) (hkeys : (members.map Prod.fst).Nodup)
    (e : BatchError) :
    batch (some text) onLines = .error (.batch e) ↔
      ∃ before member, Batch.StopsFirst members before member e := by
  constructor
  · intro hbatch
    rcases Batch.converts_or_stopsFirst members with
      ⟨entries, hentries⟩ | ⟨before, member, cause, hstops⟩
    · obtain ⟨fields, hfields, -⟩ := hentries.exists_ofJson_eq_ok hkeys
      cases hvalidate : Registry.standard.validate fields with
      | error cause =>
          rw [batch_of_validate_error hread hfields hvalidate] at hbatch
          cases hbatch
      | ok results =>
          rw [batch_of_validate_ok hread hfields hvalidate] at hbatch
          cases hbatch
    · rw [batch_of_ofJson_error hread (Batch.addMembers_of_stopsFirst hstops ∅)] at hbatch
      cases hbatch
      exact ⟨before, member, hstops⟩
  · rintro ⟨before, member, hstops⟩
    exact batch_of_ofJson_error hread (Batch.addMembers_of_stopsFirst hstops ∅)

theorem batch_eq_error_validation_iff (hread : Json.read text = .ok json)
    (hfields : Batch.ofJson json = .ok fields) (e : ValidationError) :
    batch (some text) onLines = .error (.validation e) ↔
      ∃ before entry,
        Registry.standard.FailsFirst (Registry.table fields) fields.entries before entry e := by
  rw [← Registry.validate_eq_error_iff]
  constructor
  · intro hbatch
    cases hvalidate : Registry.standard.validate fields with
    | error cause =>
        rw [batch_of_validate_error hread hfields hvalidate] at hbatch
        cases hbatch
        rfl
    | ok results =>
        rw [batch_of_validate_ok hread hfields hvalidate] at hbatch
        cases hbatch
  · exact batch_of_validate_error hread hfields

/-- A batch in JSON is answered in three phases: the text is read, all members are read as fields,
and the rules are evaluated. The first member that is no field decides the answer, and else the
first field whose rule fails. Results stand under the keys in the order in which these come first,
each for the last value and rule that are written with the key, among the last values of all. -/
theorem batch_answers (onLines : Bool) :
    batch none onLines = .error .noInput ∧
      ∀ text,
        (∀ fault, Json.read text = .error fault →
          batch (some text) onLines = .error (.json fault)) ∧
        (∀ json, Json.read text = .ok json → (∀ members, json ≠ .object members) →
          batch (some text) onLines = .error (.batch .notAnObject)) ∧
        ∀ members, Json.read text = .ok (.object members) →
          let keys := ((Json.written text).map Prod.fst).eraseDups
          let last (name : String) := (Json.written text).reverse.lookup name
          (members.map Prod.fst = keys ∧ ∀ name, members.lookup name = last name) ∧
          (∀ e, batch (some text) onLines = .error (.batch e) ↔
            ∃ before member, Batch.StopsFirst members before member e) ∧
          ((∀ member ∈ members, ∃ field, Batch.fieldOfJson member.1 member.2 = .ok field) →
            ∃ fields : Batch,
              (fields.names = keys ∧
                ∀ name json, last name = some json →
                  ∃ field, fields.get? name = some field ∧
                    Batch.fieldOfJson name json = .ok field) ∧
              (∀ e, batch (some text) onLines = .error (.validation e) ↔
                ∃ before entry, Registry.standard.FailsFirst (Registry.table fields)
                  fields.entries before entry e) ∧
              ((∀ entry ∈ fields.entries, ∃ outcome,
                  entry.2.Gives Registry.standard (Registry.table fields) outcome) →
                ∃ (output : String) (results : Fields Bool),
                  batch (some text) onLines = .ok output ∧
                  Json.read output =
                    .ok (.object (results.entries.map fun result ↦ (result.1, .boolean result.2))) ∧
                  results.names = keys ∧
                  ∀ name field, fields.get? name = some field →
                    ∃ outcome, results.get? name = some outcome ∧
                      field.Gives Registry.standard (Registry.table fields) outcome)) := by
  refine ⟨rfl, fun text ↦ ⟨?_, ?_, ?_⟩⟩
  · intro fault hread
    rw [batch, hread]
  · intro json hread hjson
    apply batch_of_ofJson_error hread
    cases json with
    | object members => exact absurd rfl (hjson members)
    | _ => rfl
  intro members hread keys last
  obtain rfl := Json.eq_ofList_written hread
  have hkeys := Fields.names_ofList (Json.written text)
  have hlast := Fields.get?_ofList (Json.written text)
  refine ⟨⟨hkeys, hlast⟩, batch_eq_error_batch_iff hread (Fields.nodup _), fun hconverts ↦ ?_⟩
  obtain ⟨entries, hentries⟩ := Batch.exists_converts hconverts
  obtain ⟨fields, hfields, rfl⟩ := hentries.exists_ofJson_eq_ok (Fields.nodup _)
  have hnames : fields.names = keys := hentries.map_fst.trans hkeys
  refine ⟨fields, ⟨hnames, ?_⟩, batch_eq_error_validation_iff hread hfields, fun hgives ↦ ?_⟩
  · intro name json hjson
    exact hentries.exists_lookup ((hlast name).trans hjson)
  · obtain ⟨added, hadded⟩ := Registry.exists_pointwise_iff.mpr hgives
    obtain ⟨results, hvalidate, rfl⟩ := Registry.exists_validate_eq_ok hadded
    refine ⟨_, results, batch_of_validate_ok hread hfields hvalidate, ?_, ?_, ?_⟩
    · exact Json.read_print (Batch.fits_resultsToJson 126 results) onLines
    · exact hadded.map_fst.trans hnames
    · intro name field hfield
      exact hadded.exists_lookup hfield

/-- The first entry of a field is no pair and does not count, also not for the rule of the field
behind it. -/
theorem batch_answers_repeated :
    let pair (value : Json) (rule : String) : Json := .array [value, .string rule]
    let members := [("a", Json.null), ("b", pair .null "otherRequired:a"),
      ("a", pair (.string "x") "required")]
    ∃ output, batch (some ((Json.object members).print true)) false = .ok output ∧
      Json.read output = .ok (.object [("a", .boolean true), ("b", .boolean true)]) := by
  intro pair members
  have hfits : ∀ member ∈ members, Json.Fits 126 member.2 := by
    have hpair (value : Json) (rule : String) (h : Json.Fits 125 value) :
        Json.Fits 126 (pair value rule) :=
      .array (List.forall_mem_cons.mpr ⟨h, List.forall_mem_singleton.mpr .string⟩)
    simp only [members, List.forall_mem_cons]
    exact ⟨.null, hpair _ _ .null, hpair _ _ .string, by simp⟩
  obtain ⟨-, -, hobject⟩ := (batch_answers false).2 ((Json.object members).print true)
  obtain ⟨-, -, hanswer⟩ := hobject _ (Json.read_print_object hfits true)
  rw [Json.written_print hfits] at hanswer
  have hconverts : ∀ member ∈ (Fields.ofList members).entries,
      ∃ field, Batch.fieldOfJson member.1 member.2 = .ok field := by
    exact List.forall_mem_cons.mpr ⟨⟨_, rfl⟩, List.forall_mem_singleton.mpr ⟨_, rfl⟩⟩
  obtain ⟨fields, ⟨hnames, hlast⟩, -, hresults⟩ := hanswer hconverts
  obtain ⟨a, ha, hreadA⟩ := hlast "a" _ rfl
  obtain ⟨b, hb, hreadB⟩ := hlast "b" _ rfl
  cases hreadA
  cases hreadB
  let lasting : Batch := Fields.ofList
    [("a", ⟨.string "x", .text "required"⟩), ("b", ⟨.null, .text "otherRequired:a"⟩)]
  obtain rfl : fields = lasting := by
    apply Fields.ext_get? hnames
    rw [hnames]
    exact List.forall_mem_cons.mpr ⟨ha, List.forall_mem_singleton.mpr hb⟩
  have hgives (field : Field) (name : String) (hparse : field.rule.parse =
      .ok (Tree.ofBody (.leaf (.identifier name) .empty)))
      (hresult : Setting.result ⟨Registry.standard, Registry.table lasting, field.value⟩
        (.leaf (.identifier name) .empty) = .ok true) :
      field.Gives Registry.standard (Registry.table lasting) true :=
    ⟨_, hparse, (Setting.evaluate_ofBody _ _).trans hresult⟩
  have hgivesA := hgives ⟨.string "x", .text "required"⟩ "required" rfl rfl
  have hgivesB := hgives ⟨.null, .text "otherRequired:a"⟩ "otherRequired:a" rfl rfl
  obtain ⟨output, results, houtput, hread, hkeys, houtcomes⟩ := hresults
    (List.forall_mem_cons.mpr ⟨⟨true, hgivesA⟩, List.forall_mem_singleton.mpr ⟨true, hgivesB⟩⟩)
  obtain ⟨outcomeA, hresultA, houtcomeA⟩ := houtcomes "a" _ ha
  obtain ⟨outcomeB, hresultB, houtcomeB⟩ := houtcomes "b" _ hb
  obtain rfl := houtcomeA.unique hgivesA
  obtain rfl := houtcomeB.unique hgivesB
  obtain rfl : results = Fields.ofList [("a", true), ("b", true)] := by
    apply Fields.ext_get? hkeys
    rw [hkeys]
    exact List.forall_mem_cons.mpr ⟨hresultA, List.forall_mem_singleton.mpr hresultB⟩
  exact ⟨output, houtput, hread⟩

end Command

end FieldRules
