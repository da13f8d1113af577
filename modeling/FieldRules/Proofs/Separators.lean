import Mathlib.Data.List.Basic

/-!
# Texts in pieces

A text is cut in one way only at the first character of a kind that its first piece does not have. So
a text of many pieces determines them if each ends with a character that is in none of them.
-/

namespace FieldRules

variable {α : Type} {p : α → Prop} {xs ys r s : List α}

theorem eq_of_append_eq_append (hxs : ∀ c ∈ xs, p c) (hys : ∀ c ∈ ys, p c)
    (hr : ∀ c ∈ r.head?, ¬ p c) (hs : ∀ c ∈ s.head?, ¬ p c) (h : xs ++ r = ys ++ s) :
    xs = ys ∧ r = s := by
  -- What one text has more than the other begins with a character of both kinds.
  rcases List.append_eq_append_iff.mp h with ⟨more, rfl, rfl⟩ | ⟨more, rfl, rfl⟩
  · cases more with
    | nil => simp
    | cons c more => exact absurd (hys c (by simp)) (hr c (by simp))
  · cases more with
    | nil => simp
    | cons c more => exact absurd (hxs c (by simp)) (hs c (by simp))

theorem eq_of_flatMap_append_singleton_eq {last : α} {pieces others : List (List α)}
    (hpieces : ∀ piece ∈ pieces, last ∉ piece) (hothers : ∀ piece ∈ others, last ∉ piece)
    (h : pieces.flatMap (· ++ [last]) = others.flatMap (· ++ [last])) : pieces = others := by
  induction pieces generalizing others with
  | nil =>
      cases others with
      | nil => rfl
      | cons other others => simp at h
  | cons piece pieces ih =>
      cases others with
      | nil => simp at h
      | cons other others =>
          rw [List.forall_mem_cons] at hpieces hothers
          rw [List.flatMap_cons, List.flatMap_cons, List.append_assoc, List.append_assoc] at h
          obtain ⟨rfl, htail⟩ := eq_of_append_eq_append (p := (· ≠ last))
            (fun c hc hlast ↦ hpieces.1 (hlast ▸ hc)) (fun c hc hlast ↦ hothers.1 (hlast ▸ hc))
            (by simp) (by simp) h
          rw [ih hpieces.2 hothers.2 (List.append_cancel_left htail)]

end FieldRules
