/-!
# Fields

A map from field names to items that keeps the order in which the names came. Inserting a name again
replaces its item in place.
-/

namespace FieldRules

universe u v

/-- Items under distinct names, in order. -/
structure Fields (α : Type u) where
  entries : List (String × α)
  nodup : (entries.map Prod.fst).Nodup
  deriving Repr

namespace Fields

variable {α : Type u} {β : Type v}

theorem ext {a b : Fields α} (h : a.entries = b.entries) : a = b := by
  cases a
  cases b
  cases h
  rfl

instance [DecidableEq α] : DecidableEq (Fields α) := fun a b ↦
  decidable_of_iff (a.entries = b.entries) ⟨ext, fun h ↦ h ▸ rfl⟩

def empty : Fields α :=
  ⟨[], List.nodup_nil⟩

instance : EmptyCollection (Fields α) := ⟨empty⟩

instance : Inhabited (Fields α) := ⟨∅⟩

/-- Gives the entry under `name` a new item, or adds it behind the others; also the item before. -/
def put (name : String) (item : α) : List (String × α) → Option α × List (String × α)
  | [] => (none, [(name, item)])
  | (key, old) :: rest =>
    if key = name then (some old, (key, item) :: rest)
    else
      let (before, rest) := put name item rest
      (before, (key, old) :: rest)

theorem map_fst_put (name : String) (item : α) (entries : List (String × α)) :
    (put name item entries).2.map Prod.fst =
      if name ∈ entries.map Prod.fst then entries.map Prod.fst
      else entries.map Prod.fst ++ [name] := by
  induction entries with
  | nil => simp [put]
  | cons entry rest ih =>
    obtain ⟨key, old⟩ := entry
    by_cases h : key = name
    · simp [put, h]
    · have h' : name ≠ key := fun e ↦ h e.symm
      simp only [put, h, if_false, List.map_cons, ih, List.mem_cons, h', false_or]
      split <;> rfl

theorem nodup_put {name : String} {item : α} {entries : List (String × α)}
    (h : (entries.map Prod.fst).Nodup) : ((put name item entries).2.map Prod.fst).Nodup := by
  rw [map_fst_put]
  split
  · exact h
  · next hn =>
    refine List.nodup_append.mpr ⟨h, by simp, ?_⟩
    rintro a ha b hb rfl
    exact hn (List.mem_singleton.mp hb ▸ ha)

/-- Stores an item under a name; also gives the item that was there before. -/
def replace (fields : Fields α) (name : String) (item : α) : Option α × Fields α :=
  ((put name item fields.entries).1, ⟨(put name item fields.entries).2, nodup_put fields.nodup⟩)

/-- Stores an item under a name. -/
def insert (fields : Fields α) (name : String) (item : α) : Fields α :=
  (fields.replace name item).2

def get? (fields : Fields α) (name : String) : Option α :=
  fields.entries.lookup name

def contains (fields : Fields α) (name : String) : Bool :=
  (fields.get? name).isSome

def names (fields : Fields α) : List String :=
  fields.entries.map Prod.fst

def size (fields : Fields α) : Nat :=
  fields.entries.length

def isEmpty (fields : Fields α) : Bool :=
  fields.entries.isEmpty

theorem fst_put (name : String) (item : α) (entries : List (String × α)) :
    (put name item entries).1 = entries.lookup name := by
  induction entries with
  | nil => rfl
  | cons entry rest ih =>
    obtain ⟨key, old⟩ := entry
    by_cases h : key = name
    · subst h
      simp [put]
    · have h' : (name == key) = false := beq_false_of_ne fun e ↦ h e.symm
      simp [put, h, h', List.lookup_cons, ih]

theorem lookup_put (name key : String) (item : α) (entries : List (String × α)) :
    (put name item entries).2.lookup key = if key = name then some item else entries.lookup key := by
  induction entries with
  | nil =>
    by_cases h : key = name
    · simp [put, h]
    · simp [put, List.lookup_cons, h, beq_false_of_ne h]
  | cons entry rest ih =>
    obtain ⟨first, old⟩ := entry
    by_cases hname : first = name
    · subst hname
      by_cases h : key = first
      · simp [put, h]
      · simp [put, List.lookup_cons, h, beq_false_of_ne h]
    · by_cases h : key = first
      · subst h
        simp [put, hname]
      · simp [put, hname, List.lookup_cons, beq_false_of_ne h, ih]

@[simp]
theorem get?_empty (name : String) : (∅ : Fields α).get? name = none := rfl

@[simp]
theorem names_empty : (∅ : Fields α).names = [] := rfl

theorem fst_replace (fields : Fields α) (name : String) (item : α) :
    (fields.replace name item).1 = fields.get? name :=
  fst_put name item fields.entries

@[simp]
theorem get?_insert (fields : Fields α) (name key : String) (item : α) :
    (fields.insert name item).get? key = if key = name then some item else fields.get? key :=
  lookup_put name key item fields.entries

theorem names_insert (fields : Fields α) (name : String) (item : α) :
    (fields.insert name item).names =
      if name ∈ fields.names then fields.names else fields.names ++ [name] :=
  map_fst_put name item fields.entries

/-- Inserts the entries of a list one after the other. -/
def insertAll (fields : Fields α) (entries : List (String × α)) : Fields α :=
  entries.foldl (fun fields entry ↦ fields.insert entry.1 entry.2) fields

def ofList (entries : List (String × α)) : Fields α :=
  empty.insertAll entries

/-- Changes the items and keeps the names. -/
def map (f : α → β) (fields : Fields α) : Fields β :=
  ⟨fields.entries.map fun entry ↦ (entry.1, f entry.2), by
    simpa [Function.comp_def] using fields.nodup⟩

end Fields

end FieldRules
