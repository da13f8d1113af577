import FieldRules.Proofs.Fields
import FieldRules.Registry
import Mathlib.Data.Finset.Card
import Mathlib.Data.String.Basic

/-!
# Registrations

A call registers a check under four names, and what stands under a name comes from the last call
that has it among its four. So the variants of one check can come from different calls, and none of
them follows a later call that replaces another.
-/

namespace FieldRules

namespace Text

theorem upper_ne_nil (c : Char) : upper c ≠ [] := by
  have hexpansions : ∀ entry ∈ upperExpansions, entry.2 ≠ [] := by decide
  unfold upper
  split
  · next codes hcodes =>
      obtain ⟨before, after, hsplit, -⟩ := List.lookup_eq_some_iff.mp hcodes
      have hne : codes ≠ [] := hexpansions (c.toNat, codes) (by simp [hsplit])
      simpa using hne
  · split <;> simp

theorem length_le_capitalize (text : String) : text.length ≤ (capitalize text).length := by
  unfold capitalize
  rw [← String.length_toList]
  split
  · next hnil => simp [hnil]
  · next c rest hcons =>
      have hupper := List.length_pos_iff.mpr (upper_ne_nil c)
      simp only [hcons, List.length_cons, String.length_ofList, List.length_append]
      omega

theorem capitalize_append {word : String} (hword : word ≠ "") (text : String) :
    capitalize (word ++ text) = capitalize word ++ text := by
  obtain ⟨c, rest, hcons⟩ := List.exists_cons_of_ne_nil (mt String.toList_eq_nil_iff.mp hword)
  apply String.toList_injective
  simp [capitalize, hcons]

end Text

theorem length_otherName (name : String) :
    (otherName name).length = (Text.capitalize name).length + 5 := by
  rw [otherName, derivedName, String.length_append, Nat.add_comm]
  rfl

theorem length_notName (name : String) :
    (notName name).length = (Text.capitalize name).length + 3 := by
  rw [notName, derivedName, String.length_append, Nat.add_comm]
  rfl

theorem capitalize_otherName (name : String) :
    Text.capitalize (otherName name) = "Other" ++ Text.capitalize name :=
  Text.capitalize_append (by decide) _

theorem capitalize_notName (name : String) :
    Text.capitalize (notName name) = "Not" ++ Text.capitalize name :=
  Text.capitalize_append (by decide) _

theorem length_notName_otherName (name : String) :
    (notName (otherName name)).length = (Text.capitalize name).length + 8 := by
  rw [length_notName, capitalize_otherName, String.length_append, Nat.add_comm "Other".length]
  rfl

theorem length_notName_notName (name : String) :
    (notName (notName name)).length = (Text.capitalize name).length + 6 := by
  rw [length_notName, capitalize_notName, String.length_append, Nat.add_comm "Not".length]
  rfl

/-- The ways in which one call installs a check. -/
inductive Variant
  | base
  | other
  | not
  | notOther
  deriving DecidableEq, Repr

namespace Variant

def all : List Variant :=
  [.base, .other, .not, .notOther]

theorem mem_all (variant : Variant) : variant ∈ all := by
  cases variant <;> decide

/-- The name under which this variant of a check is installed. -/
def name (given : String) : Variant → String
  | .base => given
  | .other => otherName given
  | .not => notName given
  | .notOther => notName (otherName given)

/-- What is installed for this variant of a check. -/
def check (given : Check) : Variant → Check
  | .base => given
  | .other => given.redirected
  | .not => given.negated
  | .notOther => given.redirected.negated

/-- The value of the field that is named first, and the parameters behind its name. A field that is
not there is absent, and without parameters the field without a name is meant. -/
def subject (fields : Fields Value) : List String → Value × List String
  | [] => ((fields.get? "").getD .absent, [])
  | field :: rest => ((fields.get? field).getD .absent, rest)

/-- The outcome of this variant of a check. -/
def outcome (given : Check) (fields : Fields Value) (value : Value) (params : List String) :
    Variant → Bool
  | .base => given fields value params
  | .other => given fields (subject fields params).1 (subject fields params).2
  | .not => !given fields value params
  | .notOther => !given fields (subject fields params).1 (subject fields params).2

theorem check_eq_outcome (variant : Variant) (given : Check) (fields : Fields Value) (value : Value)
    (params : List String) :
    variant.check given fields value params = variant.outcome given fields value params := by
  cases variant <;> cases params <;> rfl

/-- The four names of a call have four lengths. -/
theorem name_injective (given : String) : Function.Injective (name given) := by
  intro variant another h
  have hbase := Text.length_le_capitalize given
  have hother := length_otherName given
  have hnot := length_notName given
  have hnotOther := length_notName_otherName given
  have hlength := congrArg String.length h
  cases variant <;> cases another <;> simp only [name, reduceCtorEq] at hlength ⊢ <;> omega

end Variant

namespace Registry

variable {registry : Registry} {history : List (String × Check)} {name key : String} {check : Check}

/-- The registry after some calls in their order, from nothing on. -/
def ofHistory (history : List (String × Check)) : Registry :=
  (empty.registerAll history).value

/-- All the names that some calls install, each as often as a call installs it. -/
def installed (history : List (String × Check)) : List String :=
  history.flatMap fun call ↦ Variant.all.map fun variant ↦ variant.name call.1

/-- Among the calls that install something under a name, `call` is the last, and it installs there
this variant of its check. -/
structure Latest (history : List (String × Check)) (name : String) (call : String × Check)
    (variant : Variant) : Prop where
  name_eq : variant.name call.1 = name
  exists_after : ∃ before after, history = before ++ call :: after ∧
    ∀ later ∈ after, ∀ another : Variant, another.name later.1 ≠ name

/-! ## One call -/

theorem get?_register (registry : Registry) (name key : String) (check : Check) :
    (registry.register name check).get? key =
      if key = Variant.name name .notOther then some (Variant.check check .notOther)
      else if key = Variant.name name .not then some (Variant.check check .not)
      else if key = Variant.name name .other then some (Variant.check check .other)
      else if key = Variant.name name .base then some (Variant.check check .base)
      else registry.get? key := by
  rw [register, get?, variants, Fields.insertAll, List.foldl_cons, List.foldl_cons, List.foldl_cons,
    List.foldl_cons, List.foldl_nil]
  simp only [Fields.get?_insert]
  rfl

theorem get?_register_name (registry : Registry) (name : String) (check : Check)
    (variant : Variant) :
    (registry.register name check).get? (variant.name name) = some (variant.check check) := by
  cases variant <;> simp [get?_register, (Variant.name_injective name).eq_iff]

theorem get?_register_of_ne (registry : Registry) (check : Check)
    (h : ∀ variant : Variant, variant.name name ≠ key) :
    (registry.register name check).get? key = registry.get? key := by
  rw [get?_register, if_neg (h _).symm, if_neg (h _).symm, if_neg (h _).symm, if_neg (h _).symm]

/-! ## A history of calls -/

theorem ofHistory_nil : ofHistory [] = empty := rfl

theorem value_registerAll (registry : Registry) (history : List (String × Check)) :
    (registry.registerAll history).value =
      history.foldl (fun registry call ↦ registry.register call.1 call.2) registry := by
  induction history generalizing registry with
  | nil => rfl
  | cons call history ih => exact ih (registry.register call.1 call.2)

theorem ofHistory_append_singleton (history : List (String × Check)) (call : String × Check) :
    ofHistory (history ++ [call]) = (ofHistory history).register call.1 call.2 := by
  rw [ofHistory, ofHistory, value_registerAll, value_registerAll, List.foldl_append]
  rfl

theorem latest_append_singleton_iff {last call : String × Check} {variant : Variant} :
    Latest (history ++ [last]) name call variant ↔
      call = last ∧ variant.name last.1 = name ∨
        (∀ another : Variant, another.name last.1 ≠ name) ∧ Latest history name call variant := by
  constructor
  · rintro ⟨hname, before, after, hsplit, hafter⟩
    rcases List.eq_nil_or_concat' after with rfl | ⟨earlier, final, rfl⟩
    · obtain ⟨rfl, hcall⟩ := List.append_inj' hsplit rfl
      cases hcall
      exact .inl ⟨rfl, hname⟩
    · rw [← List.cons_append, ← List.append_assoc] at hsplit
      obtain ⟨rfl, hfinal⟩ := List.append_inj' hsplit rfl
      cases hfinal
      obtain ⟨hearlier, hlast⟩ := List.forall_mem_append.mp hafter
      exact .inr ⟨hlast _ List.mem_cons_self, hname, before, earlier, rfl, hearlier⟩
  · rintro (⟨rfl, hname⟩ | ⟨hlast, hname, before, after, rfl, hafter⟩)
    · exact ⟨hname, history, [], rfl, by simp⟩
    · refine ⟨hname, before, after ++ [last], by simp, ?_⟩
      rw [List.forall_mem_append]
      exact ⟨hafter, List.forall_mem_singleton.mpr hlast⟩

theorem Latest.mem {call : String × Check} {variant : Variant}
    (h : Latest history name call variant) : call ∈ history := by
  obtain ⟨before, after, hsplit, -⟩ := h.exists_after
  simp [hsplit]

theorem not_latest_nil {call : String × Check} {variant : Variant} :
    ¬ Latest [] name call variant :=
  fun h ↦ List.not_mem_nil h.mem

theorem get?_ofHistory_iff :
    (ofHistory history).get? name = some check ↔
      ∃ call variant, Latest history name call variant ∧ check = variant.check call.2 := by
  induction history using List.reverseRecOn with
  | nil => simp [ofHistory_nil, get?, empty, not_latest_nil]
  | append_singleton history last ih =>
      rw [ofHistory_append_singleton]
      by_cases hinstalls : ∃ variant : Variant, variant.name last.1 = name
      · -- The last call decides, and no earlier one counts for the name.
        obtain ⟨variant, rfl⟩ := hinstalls
        rw [get?_register_name, Option.some.injEq]
        constructor
        · rintro rfl
          exact ⟨last, variant, latest_append_singleton_iff.mpr (.inl ⟨rfl, rfl⟩), rfl⟩
        · rintro ⟨call, another, hlatest, rfl⟩
          rcases latest_append_singleton_iff.mp hlatest with ⟨rfl, hname⟩ | ⟨hlast, -⟩
          · rw [Variant.name_injective _ hname]
          · exact absurd rfl (hlast variant)
      · have hlast := not_exists.mp hinstalls
        have hsame {call : String × Check} {variant : Variant} :
            Latest (history ++ [last]) name call variant ↔ Latest history name call variant := by
          simp [latest_append_singleton_iff, hlast]
        simp only [get?_register_of_ne _ _ hlast, ih, hsame]

/-- A name and the name of its negation that come from the same call stand for a check and for its
negation. -/
theorem Latest.exists_get?_notName {call : String × Check} {variant another : Variant}
    (h : Latest history name call variant) (hnot : Latest history (notName name) call another) :
    ∃ check, (ofHistory history).get? name = some check ∧
      (ofHistory history).get? (notName name) = some check.negated := by
  refine ⟨variant.check call.2, get?_ofHistory_iff.mpr ⟨call, variant, h, rfl⟩,
    get?_ofHistory_iff.mpr ⟨call, another, hnot, ?_⟩⟩
  have hname := hnot.name_eq
  rw [← h.name_eq] at hname
  -- A second `not` in front gives a length that none of the four names has.
  have hlength := congrArg String.length hname
  have hbaseLength := Text.length_le_capitalize call.1
  have hotherLength := length_otherName call.1
  have hnotLength := length_notName call.1
  have hnotOtherLength := length_notName_otherName call.1
  cases variant with
  | base =>
      obtain rfl : another = .not := Variant.name_injective call.1 hname
      rfl
  | other =>
      obtain rfl : another = .notOther := Variant.name_injective call.1 hname
      rfl
  | not =>
      have hnotNotLength := length_notName_notName call.1
      cases another <;> simp only [Variant.name] at hlength <;> omega
  | notOther =>
      have hcapital := length_notName (otherName call.1)
      have hnotNotLength := length_notName_notName (otherName call.1)
      cases another <;> simp only [Variant.name] at hlength <;> omega

theorem checks_ofHistory (history : List (String × Check)) :
    (ofHistory history).checks =
      Fields.ofList (history.flatMap fun call ↦ variants call.1 call.2) := by
  induction history using List.reverseRecOn with
  | nil => rfl
  | append_singleton history call ih =>
      rw [ofHistory_append_singleton, register, ih, Fields.ofList, Fields.ofList, Fields.insertAll,
        Fields.insertAll, Fields.insertAll, ← List.foldl_append, List.flatMap_append,
        List.flatMap_singleton]

theorem names_checks_ofHistory (history : List (String × Check)) :
    (ofHistory history).checks.names = (installed history).eraseDups := by
  rw [checks_ofHistory, Fields.names_ofList, List.map_flatMap]
  rfl

theorem exists_get?_ofHistory_iff :
    (∃ check, (ofHistory history).get? name = some check) ↔ name ∈ installed history := by
  rw [← List.mem_eraseDups, ← names_checks_ofHistory, Fields.mem_names_iff]
  rfl

theorem size_ofHistory (history : List (String × Check)) :
    (ofHistory history).size = (installed history).toFinset.card := by
  have hnames := names_checks_ofHistory history
  have hnodup : (installed history).eraseDups.Nodup := hnames ▸ (ofHistory history).checks.nodup
  have hsize : (ofHistory history).size = (ofHistory history).checks.names.length :=
    (List.length_map _).symm
  rw [hsize, hnames, ← List.toFinset_card_of_nodup hnodup]
  congr 1
  ext name
  simp

theorem names_pairwise_lt (registry : Registry) : registry.names.Pairwise (· < ·) := by
  have hle : registry.names.Pairwise (· ≤ ·) := by
    have hsorted := @List.pairwise_mergeSort String (fun a b ↦ decide (a ≤ b))
      (by simpa using fun _ _ _ ↦ String.le_trans) (by simpa using String.le_total)
      registry.checks.names
    exact hsorted.imp of_decide_eq_true
  have hnodup : registry.names.Nodup :=
    (List.mergeSort_perm _ _).nodup_iff.mpr registry.checks.nodup
  exact hle.imp₂ (fun _ _ ↦ lt_of_le_of_ne) hnodup

/-- What stands under a name comes from the last call that installs something there, and behaves as
that variant of the call's own check, also if the check itself has been replaced since. A call has
four different names, and the names of a registry are those of its calls, in order and each once. -/
theorem latest_registration_stands (history : List (String × Check)) :
    let registry := ofHistory history
    (∀ name, (∃ check, registry.get? name = some check) ↔
        ∃ call ∈ history, ∃ variant : Variant, variant.name call.1 = name) ∧
      (∀ name check, registry.get? name = some check ↔
        ∃ call variant, Latest history name call variant ∧
          ∀ fields value params,
            check fields value params = variant.outcome call.2 fields value params) ∧
      (∀ name, [name, otherName name, notName name, notName (otherName name)].Nodup) ∧
      registry.size = (installed history).toFinset.card ∧
      registry.names.Pairwise (· < ·) ∧
      ∀ name, name ∈ registry.names ↔ name ∈ installed history := by
  intro registry
  refine ⟨fun name ↦ ?_, fun name check ↦ ?_, fun name ↦ ?_, size_ofHistory history,
    names_pairwise_lt registry, fun name ↦ ?_⟩
  · simp [registry, exists_get?_ofHistory_iff, installed, Variant.mem_all]
  · simp only [registry, get?_ofHistory_iff, ← Variant.check_eq_outcome, funext_iff]
  · exact List.Nodup.map (Variant.name_injective name) (by decide : Variant.all.Nodup)
  · rw [names, List.mem_mergeSort, Fields.mem_names_iff]
    exact exists_get?_ofHistory_iff

/-- The second call takes `otherFlag` and `notOtherFlag` over and leaves the others. -/
example :
    let registry := ofHistory [("otherFlag", fun _ _ _ ↦ true), ("flag", fun _ _ _ ↦ false)]
    let outcome (name : String) := (registry.get? name).map fun check ↦ check ∅ .absent []
    registry.size = 6 ∧ outcome "otherFlag" = some false ∧ outcome "notOtherFlag" = some true ∧
      outcome "otherOtherFlag" = some true ∧ outcome "notOtherOtherFlag" = some false := by
  decide

end Registry

end FieldRules
