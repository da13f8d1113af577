import FieldRules.Json.Text
import Mathlib.Data.List.Basic

/-!
# Quoted strings read back

Every character is escaped on its own, and what it is escaped as is read as that character whatever
stands behind it. So a text between quotes is read back as it was.
-/

namespace FieldRules.Json

theorem readHex_append {cs rest : List Char} {code : Nat} (h : readHex cs = .ok (code, rest))
    (later : List Char) : readHex (cs ++ later) = .ok (code, rest ++ later) := by
  unfold readHex at h
  split at h
  · simp only [List.cons_append, readHex]
    split at h
    · cases h
      rfl
    · cases h
  · cases h

theorem readHex_controlCode {c : Char} (hc : c < ' ') (rest : List Char) :
    readHex (controlCode c ++ rest) = .ok (c.toNat, rest) := by
  have hall : ∀ n < 32, readHex (controlCode (Char.ofNat n)) = .ok (n, []) := by decide
  have hcode := hall c.toNat hc
  rw [Char.ofNat_toNat] at hcode
  exact readHex_append hcode rest

theorem readEscape_controlCode {c : Char} (hc : c < ' ') (rest : List Char) :
    readEscape ('u' :: (controlCode c ++ rest)) = .ok (c, rest) := by
  have hlt : c.toNat < 32 := hc
  rw [readEscape]
  simp only [readHex_controlCode hc]
  rw [if_neg (by omega), if_neg (by omega), Char.ofNat_toNat]

/-- A character has an escape that is read as the character, or it stands for itself. -/
theorem escape_cases (c : Char) :
    (∃ cs, escape c = '\\' :: cs ∧ ∀ rest, readEscape (cs ++ rest) = .ok (c, rest)) ∨
      (escape c = [c] ∧ ¬ c < ' ' ∧ c ≠ '"' ∧ c ≠ '\\') := by
  by_cases hquote : c = '"'
  · subst hquote
    exact .inl ⟨['"'], rfl, fun _ ↦ rfl⟩
  by_cases hbackslash : c = '\\'
  · subst hbackslash
    exact .inl ⟨['\\'], rfl, fun _ ↦ rfl⟩
  by_cases hletter : c ∈ ['\x08', '\x0c', '\n', '\r', '\t']
  · simp only [List.mem_cons, List.not_mem_nil, or_false] at hletter
    rcases hletter with rfl | rfl | rfl | rfl | rfl
    · exact .inl ⟨['b'], rfl, fun _ ↦ rfl⟩
    · exact .inl ⟨['f'], rfl, fun _ ↦ rfl⟩
    · exact .inl ⟨['n'], rfl, fun _ ↦ rfl⟩
    · exact .inl ⟨['r'], rfl, fun _ ↦ rfl⟩
    · exact .inl ⟨['t'], rfl, fun _ ↦ rfl⟩
  simp only [List.mem_cons, List.not_mem_nil, or_false, not_or] at hletter
  by_cases hcontrol : c < ' '
  · refine .inl ⟨'u' :: controlCode c, ?_, fun rest ↦ readEscape_controlCode hcontrol rest⟩
    simp [escape, hquote, hbackslash, hletter, hcontrol]
  · refine .inr ⟨?_, hcontrol, hquote, hbackslash⟩
    simp [escape, hquote, hbackslash, hletter, hcontrol]

theorem readString_escape (c : Char) (read rest : List Char) :
    readString read (escape c ++ rest) = readString (c :: read) rest := by
  rcases escape_cases c with ⟨cs, hescape, hread⟩ | ⟨hescape, hcontrol, hquote, hbackslash⟩
  · rw [hescape, List.cons_append, readString]
    split
    · next hfound =>
        rw [hread] at hfound
        cases hfound
    · next hfound =>
        rw [hread] at hfound
        cases hfound
        rfl
  · rw [hescape, List.singleton_append, readString, if_neg hcontrol]
    · exact hquote
    · exact hbackslash

theorem readString_flatMap_escape (read cs rest : List Char) :
    readString read (cs.flatMap escape ++ '"' :: rest) =
      .ok (String.ofList (read.reverse ++ cs), rest) := by
  induction cs generalizing read with
  | nil =>
      rw [List.flatMap_nil, List.nil_append, readString, List.append_nil]
  | cons c cs ih =>
      rw [List.flatMap_cons, List.append_assoc, readString_escape, ih, List.reverse_cons,
        List.append_assoc, List.singleton_append]

theorem toList_quoted_append (text : String) (rest : List Char) :
    (quoted text).toList ++ rest = '"' :: (text.toList.flatMap escape ++ '"' :: rest) := by
  simp [quoted]

theorem readString_quoted (text : String) (rest : List Char) :
    readString [] (text.toList.flatMap escape ++ '"' :: rest) = .ok (text, rest) := by
  rw [readString_flatMap_escape, List.reverse_nil, List.nil_append, String.ofList_toList]

end FieldRules.Json
