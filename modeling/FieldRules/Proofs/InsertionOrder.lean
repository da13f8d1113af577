import FieldRules.Proofs.Fields
import Mathlib.Data.Finset.Card

/-!
# Insertion order

A map keeps for every name the place at which it came first and the item that came last. Storing an
item touches one entry, which is that of the name or a new one behind all others.
-/

namespace FieldRules

namespace Fields

universe u

variable {α : Type u} {name : String} {item : α} {names inserted : List String}
  {entries : List (String × α)}

/-- The names are the inserted ones in the order in which they came first, so none stands twice. -/
structure InFirstPlaces (names inserted : List String) : Prop where
  mem_iff : ∀ name, name ∈ names ↔ name ∈ inserted
  ordered : names.Pairwise fun a b ↦ inserted.idxOf a < inserted.idxOf b

/-- No later entry under the name stands behind the one with this item. -/
def LastUnder (entries : List (String × α)) (name : String) (item : α) : Prop :=
  ∃ before after, entries = before ++ (name, item) :: after ∧ name ∉ after.map Prod.fst

/-- What storing an item hands back and leaves behind. -/
inductive Stores (name : String) (item : α) :
    List (String × α) → Option α × List (String × α) → Prop
  | inPlace {before after : List (String × α)} {old : α} (hbefore : name ∉ before.map Prod.fst) :
      Stores name item (before ++ (name, old) :: after)
        (some old, before ++ (name, item) :: after)
  | behind {entries : List (String × α)} (hnew : name ∉ entries.map Prod.fst) :
      Stores name item entries (none, entries ++ [(name, item)])

/-! ## One more insertion -/

theorem InFirstPlaces.nodup (h : InFirstPlaces names inserted) : names.Nodup := by
  apply h.ordered.imp
  rintro a b hlt rfl
  exact lt_irrefl _ hlt

theorem InFirstPlaces.insert (h : InFirstPlaces names inserted) (name : String) :
    InFirstPlaces (if name ∈ names then names else names ++ [name]) (inserted ++ [name]) := by
  have hkept (a : String) (ha : a ∈ names) :
      (inserted ++ [name]).idxOf a = inserted.idxOf a :=
    List.idxOf_append_of_mem ((h.mem_iff a).mp ha)
  have hordered : names.Pairwise fun a b ↦
      (inserted ++ [name]).idxOf a < (inserted ++ [name]).idxOf b := by
    apply h.ordered.imp_of_mem
    intro a b ha hb hlt
    rwa [hkept a ha, hkept b hb]
  split
  · next hmem =>
      refine ⟨fun a ↦ ?_, hordered⟩
      rw [List.mem_append, List.mem_singleton, ← h.mem_iff]
      exact ⟨.inl, fun ha ↦ ha.elim id fun heq ↦ heq ▸ hmem⟩
  · next hnew =>
      refine ⟨fun a ↦ by simp [h.mem_iff], ?_⟩
      apply List.pairwise_append.mpr
      refine ⟨hordered, List.pairwise_singleton _ _, fun a ha b hb ↦ ?_⟩
      obtain rfl := List.mem_singleton.mp hb
      have hlast : (inserted ++ [b]).idxOf b = inserted.length := by
        rw [List.idxOf_append_of_notMem fun hmem ↦ hnew ((h.mem_iff b).mpr hmem)]
        simp
      rw [hkept a ha, hlast]
      exact List.idxOf_lt_length_iff.mpr ((h.mem_iff a).mp ha)

theorem stores_put (name : String) (item : α) (entries : List (String × α)) :
    Stores name item entries (put name item entries) := by
  induction entries with
  | nil => exact .behind (by simp)
  | cons entry rest ih =>
      obtain ⟨key, old⟩ := entry
      by_cases hkey : key = name
      · subst hkey
        rw [put, if_pos rfl]
        change Stores key item ([] ++ (key, old) :: rest) (some old, [] ++ (key, item) :: rest)
        apply Stores.inPlace
        simp
      · have hne : name ≠ key := fun heq ↦ hkey heq.symm
        rw [put, if_neg hkey]
        generalize put name item rest = result at ih
        cases ih with
        | @inPlace before after found hbefore =>
            change Stores name item ((key, old) :: before ++ (name, found) :: after)
              (some found, (key, old) :: before ++ (name, item) :: after)
            apply Stores.inPlace
            simpa [hne] using hbefore
        | behind hnew =>
            apply Stores.behind
            simpa [hne] using hnew

theorem stores_replace (fields : Fields α) (name : String) (item : α) :
    Stores name item fields.entries
      ((fields.replace name item).1, (fields.replace name item).2.entries) :=
  stores_put name item fields.entries

/-! ## All insertions -/

theorem ofList_append (collected added : List (String × α)) :
    ofList (collected ++ added) = (ofList collected).insertAll added := by
  rw [ofList, insertAll, List.foldl_append]
  rfl

theorem inFirstPlaces_ofList (entries : List (String × α)) :
    InFirstPlaces (ofList entries).names (entries.map Prod.fst) := by
  induction entries using List.reverseRecOn with
  | nil => exact ⟨by simp [ofList, insertAll, names, empty], List.Pairwise.nil⟩
  | append_singleton entries entry ih =>
      rw [ofList_append_singleton, names_insert, List.map_append, List.map_singleton]
      exact ih.insert entry.1

theorem get?_ofList_eq_some_iff :
    (ofList entries).get? name = some item ↔ LastUnder entries name item := by
  rw [get?_ofList, List.lookup_eq_some_iff]
  constructor
  · rintro ⟨later, earlier, hsplit, hlater⟩
    refine ⟨earlier.reverse, later.reverse, ?_, ?_⟩
    · rw [← List.reverse_reverse entries, hsplit]
      simp
    · rw [List.map_reverse, List.mem_reverse, List.mem_map]
      rintro ⟨entry, hentry, heq⟩
      have hne := hlater entry hentry
      simp [heq] at hne
  · rintro ⟨before, after, rfl, hafter⟩
    refine ⟨after.reverse, before.reverse, by simp, fun entry hentry ↦ ?_⟩
    rw [bne_iff_ne]
    rintro rfl
    exact hafter (List.mem_map_of_mem (List.mem_reverse.mp hentry))

theorem size_ofList (entries : List (String × α)) :
    (ofList entries).size = (entries.map Prod.fst).toFinset.card := by
  have hplaces := inFirstPlaces_ofList entries
  have hsame : (ofList entries).names.toFinset = (entries.map Prod.fst).toFinset := by
    ext name
    rw [List.mem_toFinset, List.mem_toFinset]
    exact hplaces.mem_iff name
  rw [← hsame, List.toFinset_card_of_nodup hplaces.nodup, names, List.length_map]
  rfl

/-- Whatever is collected into a map and inserted after that, its names stand in the order in which
they first came, each with the last item that came under it. The next insertion hands back the item
before and touches no other entry. A map is what its own entries make, and so two maps are the same
if they have the same entries in the same order. -/
theorem first_places_last_items (collected added : List (String × α)) :
    let fields : Fields α := (ofList collected).insertAll added
    let inserted := collected ++ added
    InFirstPlaces fields.names (inserted.map Prod.fst) ∧
      (∀ name item, fields.get? name = some item ↔ LastUnder inserted name item) ∧
      (∀ name, fields.get? name = none ↔ name ∉ inserted.map Prod.fst) ∧
      (∀ name item,
        (fields.replace name item).1 = fields.get? name ∧
        (fields.replace name item).2 = (ofList collected).insertAll (added ++ [(name, item)]) ∧
        Stores name item fields.entries
          ((fields.replace name item).1, (fields.replace name item).2.entries)) ∧
      fields.size = (inserted.map Prod.fst).toFinset.card ∧
      ofList fields.entries = fields ∧
      ∀ other : Fields α, fields = other ↔ fields.entries = other.entries := by
  intro fields inserted
  have hfields : fields = ofList inserted := (ofList_append collected added).symm
  have hplaces : InFirstPlaces fields.names (inserted.map Prod.fst) :=
    hfields ▸ inFirstPlaces_ofList inserted
  refine ⟨hplaces, fun name item ↦ ?_, fun name ↦ ?_, fun name item ↦ ⟨?_, ?_, ?_⟩, ?_,
    ofList_entries fields, fun other ↦ ⟨congrArg entries, ext⟩⟩
  · rw [hfields]
    exact get?_ofList_eq_some_iff
  · rw [get?_eq_none_iff, hplaces.mem_iff]
  · exact fst_replace fields name item
  · rw [← ofList_append, ← List.append_assoc, ofList_append_singleton, ← hfields]
    rfl
  · exact stores_replace fields name item
  · rw [hfields]
    exact size_ofList inserted

/-- The name that comes again keeps its place and gets the new item. -/
example :
    let fields := (ofList [("b", 1), ("a", 2)]).insertAll [("b", 3), ("c", 4)]
    fields.entries = [("b", 3), ("a", 2), ("c", 4)] ∧ (fields.replace "a" 5).1 = some 2 := by
  decide

end Fields

end FieldRules
