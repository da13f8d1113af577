import FieldRules.Fields
import Mathlib.Data.List.Forall2
import Mathlib.Data.List.Induction
import Mathlib.Data.List.Nodup

/-!
# Fields as maps in order

Inserting entries under new names puts them behind the others, so a map is what its own entries make
when they are inserted one after the other into an empty one.
-/

namespace FieldRules

namespace Fields

universe u v

variable {α : Type u} {β : Type v}

theorem entries_insert_of_notMem (fields : Fields α) {name : String} (item : α)
    (h : name ∉ fields.names) :
    (fields.insert name item).entries = fields.entries ++ [(name, item)] := by
  obtain ⟨entries, hnodup⟩ := fields
  change name ∉ entries.map Prod.fst at h
  change (put name item entries).2 = entries ++ [(name, item)]
  clear hnodup
  induction entries with
  | nil => rfl
  | cons entry rest ih =>
      rw [List.map_cons, List.mem_cons, not_or] at h
      simp [put, Ne.symm h.1, ih h.2]

theorem entries_insertAll (fields : Fields α) {entries : List (String × α)}
    (h : (fields.names ++ entries.map Prod.fst).Nodup) :
    (fields.insertAll entries).entries = fields.entries ++ entries := by
  induction entries generalizing fields with
  | nil => simp [insertAll]
  | cons entry rest ih =>
      have hnew : entry.1 ∉ fields.names := by
        intro hmem
        exact (List.nodup_append.mp h).2.2 _ hmem _ (by simp) rfl
      have hentries := fields.entries_insert_of_notMem entry.2 hnew
      have hnames : (fields.insert entry.1 entry.2).names = fields.names ++ [entry.1] := by
        simp [names, hentries]
      change ((fields.insert entry.1 entry.2).insertAll rest).entries = _
      rw [ih _ (by simpa [hnames] using h), hentries]
      simp

theorem entries_ofList {entries : List (String × α)} (h : (entries.map Prod.fst).Nodup) :
    (ofList entries).entries = entries :=
  entries_insertAll empty h

theorem ofList_entries (fields : Fields α) : ofList fields.entries = fields :=
  ext (entries_ofList fields.nodup)

theorem ofList_append_singleton (entries : List (String × α)) (entry : String × α) :
    ofList (entries ++ [entry]) = (ofList entries).insert entry.1 entry.2 := by
  rw [ofList, insertAll, List.foldl_append]
  rfl

theorem names_ofList (entries : List (String × α)) :
    (ofList entries).names = (entries.map Prod.fst).eraseDups := by
  induction entries using List.reverseRecOn with
  | nil => rfl
  | append_singleton entries entry ih =>
      rw [ofList_append_singleton, names_insert, ih, List.map_append, List.map_singleton,
        List.eraseDups_append]
      by_cases h : entry.1 ∈ entries.map Prod.fst
      · rw [if_pos (List.mem_eraseDups.mpr h)]
        simp [List.removeAll, h]
      · rw [if_neg (fun hmem ↦ h (List.mem_eraseDups.mp hmem))]
        simp [List.removeAll, List.eraseDups_cons, h]

theorem get?_ofList (entries : List (String × α)) (name : String) :
    (ofList entries).get? name = entries.reverse.lookup name := by
  induction entries using List.reverseRecOn with
  | nil => rfl
  | append_singleton entries entry ih =>
      rw [ofList_append_singleton, get?_insert, ih, List.reverse_append, List.reverse_singleton,
        List.singleton_append, List.lookup_cons]
      by_cases h : name = entry.1
      · simp [h]
      · simp [h, beq_false_of_ne h]

theorem map_insert (f : α → β) (fields : Fields α) (name : String) (item : α) :
    (fields.insert name item).map f = (fields.map f).insert name (f item) := by
  obtain ⟨entries, hnodup⟩ := fields
  apply ext
  change (put name item entries).2.map _ = (put name (f item) (entries.map _)).2
  clear hnodup
  induction entries with
  | nil => rfl
  | cons entry entries ih =>
      rw [List.map_cons, put, put]
      split
      · rfl
      · exact congrArg _ ih

theorem mem_names_iff (fields : Fields α) (name : String) :
    name ∈ fields.names ↔ ∃ item, fields.get? name = some item := by
  rw [← Option.isSome_iff_exists, get?, List.lookup_isSome_iff, names, List.mem_map]
  simp only [beq_iff_eq, eq_comm (a := name)]

theorem get?_eq_none_iff (fields : Fields α) (name : String) :
    fields.get? name = none ↔ name ∉ fields.names := by
  rw [mem_names_iff, Option.eq_none_iff_forall_ne_some, not_exists]

theorem get?_eq_some_iff (fields : Fields α) (name : String) (item : α) :
    fields.get? name = some item ↔ (name, item) ∈ fields.entries := by
  obtain ⟨entries, hnodup⟩ := fields
  change entries.lookup name = some item ↔ (name, item) ∈ entries
  induction entries with
  | nil => simp
  | cons entry rest ih =>
      obtain ⟨key, found⟩ := entry
      rw [List.map_cons, List.nodup_cons] at hnodup
      by_cases h : name = key
      · subst h
        have hrest : (name, item) ∉ rest := fun hmem ↦ hnodup.1 (List.mem_map.mpr ⟨_, hmem, rfl⟩)
        simp [hrest, eq_comm]
      · simp [List.lookup_cons, beq_false_of_ne h, h, ih hnodup.2]

theorem get?_eq_of_perm {fields other : Fields α} (h : fields.entries.Perm other.entries)
    (name : String) : fields.get? name = other.get? name := by
  apply Option.ext
  intro item
  rw [get?_eq_some_iff, get?_eq_some_iff, h.mem_iff]

theorem get?_eq_of_perm_cons {fields other : Fields α} {name key : String} {item : α}
    (h : fields.entries.Perm ((name, item) :: other.entries)) (hne : key ≠ name) :
    fields.get? key = other.get? key := by
  apply Option.ext
  intro found
  rw [get?_eq_some_iff, get?_eq_some_iff, h.mem_iff, List.mem_cons]
  exact or_iff_right fun heq ↦ hne (congrArg Prod.fst heq)

/-- Maps with the same names in the same order and the same items are the same. -/
theorem ext_get? {fields other : Fields α} (hnames : fields.names = other.names)
    (h : ∀ name ∈ fields.names, fields.get? name = other.get? name) : fields = other := by
  obtain ⟨entries, hnodup⟩ := fields
  obtain ⟨others, hothers⟩ := other
  apply ext
  change entries.map Prod.fst = others.map Prod.fst at hnames
  change ∀ name ∈ entries.map Prod.fst, entries.lookup name = others.lookup name at h
  dsimp only
  clear hothers
  induction entries generalizing others with
  | nil => exact (List.map_eq_nil_iff.mp hnames.symm).symm
  | cons entry entries ih =>
      obtain ⟨name, item⟩ := entry
      cases others with
      | nil => cases hnames
      | cons first others =>
          obtain ⟨_, found⟩ := first
          rw [List.map_cons, List.map_cons] at hnames
          obtain ⟨rfl, htail⟩ := List.cons.inj hnames
          rw [List.map_cons, List.forall_mem_cons] at h
          rw [List.map_cons, List.nodup_cons] at hnodup
          have hitem : item = found := by simpa using h.1
          rw [hitem, ih hnodup.2 others htail]
          intro key hkey
          have hne : key ≠ name := fun heq ↦ hnodup.1 (heq ▸ hkey)
          simpa [List.lookup_cons, beq_false_of_ne hne] using h.2 key hkey

section

variable (R : String → α → β → Prop) {entries : List (String × α)} {others : List (String × β)}

theorem map_fst_of_forall₂
    (h : List.Forall₂ (fun entry other ↦ other.1 = entry.1 ∧ R entry.1 entry.2 other.2)
      entries others) : others.map Prod.fst = entries.map Prod.fst := by
  induction h with
  | nil => rfl
  | cons hfirst _ ih => rw [List.map_cons, List.map_cons, ih, hfirst.1]

theorem exists_lookup_of_forall₂
    (h : List.Forall₂ (fun entry other ↦ other.1 = entry.1 ∧ R entry.1 entry.2 other.2)
      entries others) {name : String} {item : α} (hitem : entries.lookup name = some item) :
    ∃ other, others.lookup name = some other ∧ R name item other := by
  induction h with
  | nil => cases hitem
  | @cons entry other entries others hfirst _ ih =>
      rw [List.lookup_cons] at hitem ⊢
      rw [hfirst.1]
      cases hname : name == entry.1 with
      | true =>
          rw [hname] at hitem
          cases hitem
          rw [eq_of_beq hname]
          exact ⟨other.2, rfl, hfirst.2⟩
      | false =>
          rw [hname] at hitem
          exact ih hitem

end

theorem get?_map (f : α → β) (fields : Fields α) (name : String) :
    (fields.map f).get? name = (fields.get? name).map f := by
  change (fields.entries.map fun entry ↦ (entry.1, f entry.2)).lookup name =
    (fields.entries.lookup name).map f
  induction fields.entries with
  | nil => rfl
  | cons entry rest ih =>
      rw [List.map_cons, List.lookup_cons, List.lookup_cons, ih]
      cases name == entry.1 <;> rfl

end Fields

end FieldRules
