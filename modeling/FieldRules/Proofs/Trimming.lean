import FieldRules.Text.Blank
import Mathlib.Data.List.DropRight

/-!
# Texts without the white space at their ends

Trimming takes white space from both ends of a text and nothing else, so it keeps a text that has
none there, its own results in particular.
-/

namespace FieldRules.Text

variable {c : Char} {cs : List Char}

theorem trim_eq_rdropWhile (cs : List Char) :
    trim cs = (cs.dropWhile isBlank).rdropWhile isBlank := rfl

theorem trim_cons_of_isBlank (h : isBlank c) : trim (c :: cs) = trim cs := by
  simp [trim, h]

theorem trim_append_of_isBlank (h : isBlank c) : trim (cs ++ [c]) = trim cs := by
  rw [trim_eq_rdropWhile, trim_eq_rdropWhile, List.dropWhile_append]
  split
  · next hempty =>
      rw [List.isEmpty_iff] at hempty
      simp [hempty, h]
  · exact List.rdropWhile_concat_pos _ _ _ h

theorem trim_eq_self (h : ∀ c ∈ cs, ¬ isBlank c) : trim cs = cs := by
  have hleft : cs.dropWhile isBlank = cs :=
    List.dropWhile_eq_self_iff.mpr fun _ ↦ h _ (List.getElem_mem _)
  rw [trim_eq_rdropWhile, hleft]
  exact List.rdropWhile_eq_self_iff.mpr fun hne ↦ h _ (List.getLast_mem hne)

theorem trim_isInfix (cs : List Char) : trim cs <:+: cs := by
  have hleft : cs.dropWhile isBlank <:+: cs := (List.dropWhile_suffix isBlank).isInfix
  exact (List.rdropWhile_prefix isBlank _).isInfix.trans hleft

theorem exists_eq_append_trim (cs : List Char) :
    ∃ left right, cs = left ++ (trim cs ++ right) ∧ (∀ c ∈ left, isBlank c) ∧
      ∀ c ∈ right, isBlank c := by
  refine ⟨cs.takeWhile isBlank, (cs.dropWhile isBlank).rtakeWhile isBlank, ?_,
    fun c hc ↦ List.mem_takeWhile_imp hc, fun c hc ↦ List.mem_rtakeWhile_imp hc⟩
  rw [trim_eq_rdropWhile, List.rdropWhile_append_rtakeWhile, List.takeWhile_append_dropWhile]

/-- Trimming from the right keeps the first character that is not blank. -/
theorem dropWhile_trim (cs : List Char) : (trim cs).dropWhile isBlank = trim cs := by
  obtain ⟨back, hback⟩ := List.rdropWhile_prefix isBlank (cs.dropWhile isBlank)
  rw [← trim_eq_rdropWhile] at hback
  cases htrim : trim cs with
  | nil => rfl
  | cons c rest =>
      have hstart : (cs.dropWhile isBlank).dropWhile isBlank = cs.dropWhile isBlank :=
        List.dropWhile_idempotent isBlank cs
      have hc : ¬ isBlank c := by
        rw [← hback, htrim, List.dropWhile_eq_self_iff] at hstart
        exact hstart (by simp)
      exact List.dropWhile_cons_of_neg hc

@[simp] theorem trim_trim (cs : List Char) : trim (trim cs) = trim cs := by
  rw [trim_eq_rdropWhile (trim cs), dropWhile_trim, trim_eq_rdropWhile cs]
  exact List.rdropWhile_idempotent isBlank _

theorem trim_eq_nil_iff : trim cs = [] ↔ ∀ c ∈ cs, isBlank c := by
  rw [trim_eq_rdropWhile, List.rdropWhile_eq_nil_iff]
  constructor
  · intro h c hc
    rw [← List.takeWhile_append_dropWhile (p := isBlank) (l := cs), List.mem_append] at hc
    exact hc.elim List.mem_takeWhile_imp (h c)
  · intro h c hc
    exact h c ((List.dropWhile_suffix isBlank).mem hc)

theorem trimmed_ofList (cs : List Char) :
    trimmed (String.ofList cs) = String.ofList (trim cs) := by
  simp [trimmed]

theorem trimmed_eq_self_iff (text : String) :
    trimmed text = text ↔ trim text.toList = text.toList := by
  rw [trimmed, String.ext_iff, String.toList_ofList]

end FieldRules.Text
