import FieldRules.Invocation
import FieldRules.Proofs.Trimming

/-!
# Invocations written and read back

A name ends at its first colon and a parameter at the next comma. What holds no such character, and
no white space at its ends, comes back from the identifier in which it is written.
-/

namespace FieldRules.Invocation

/-- The text is kept as it is where `separator` ends the texts. -/
structure Kept (separator : Char) (text : String) : Prop where
  trimmed : Text.trimmed text = text
  notMem : separator ∉ text.toList

theorem splitCommas_eq (piece cs : List Char) :
    splitCommas piece cs = cs.splitOnPPrepend (· == ',') piece := by
  induction cs generalizing piece with
  | nil => rfl
  | cons c rest ih =>
      by_cases hc : c = ','
      · subst hc
        rw [splitCommas, ih, List.splitOnPPrepend_cons_pos (by simp)]
        rfl
      · rw [splitCommas, ih, List.splitOnPPrepend_cons_neg (by simpa using hc)]
        simpa using hc

theorem splitCommas_intercalate {pieces : List (List Char)} (hne : pieces ≠ [])
    (h : ∀ piece ∈ pieces, ',' ∉ piece) : splitCommas [] ([','].intercalate pieces) = pieces := by
  rw [splitCommas_eq]
  exact List.splitOn_intercalate ',' h hne

theorem ofIdentifier_of_notMem {text : String} (h : ':' ∉ text.toList) :
    ofIdentifier text = ⟨Text.trimmed text, []⟩ := by
  have hdrop : text.toList.dropWhile (· != ':') = [] := by
    apply List.dropWhile_eq_nil_iff.mpr
    intro c hc
    simpa using ne_of_mem_of_not_mem hc h
  simp only [ofIdentifier, hdrop]
  rfl

theorem ofIdentifier_of_colon {text : String} {name params : List Char}
    (htext : text.toList = name ++ ':' :: params) (hname : ':' ∉ name) :
    ofIdentifier text =
      ⟨String.ofList (Text.trim name),
        (splitCommas [] params).map fun cs ↦ String.ofList (Text.trim cs)⟩ := by
  have hbefore : ∀ c ∈ name, (c != ':') = true := by
    intro c hc
    simpa using ne_of_mem_of_not_mem hc hname
  have hdrop : text.toList.dropWhile (· != ':') = ':' :: params := by
    rw [htext, List.dropWhile_append_of_pos hbefore, List.dropWhile_cons_of_neg (by simp)]
  have htake : text.toList.takeWhile (· != ':') = name := by
    rw [htext, List.takeWhile_append_of_pos hbefore, List.takeWhile_cons_of_neg (by simp),
      List.append_nil]
  simp only [ofIdentifier, hdrop, htake]

theorem toList_identifier (name param : String) (params : List String) :
    (identifier name (param :: params)).toList =
      name.toList ++ ':' :: [','].intercalate ((param :: params).map String.toList) := by
  simp [identifier, String.toList_intercalate]

theorem ofIdentifier_identifier {name : String} {params : List String} (hname : Kept ':' name)
    (hparams : ∀ param ∈ params, Kept ',' param) :
    ofIdentifier (identifier name params) = ⟨name, params⟩ := by
  cases params with
  | nil =>
      rw [identifier, ofIdentifier_of_notMem hname.notMem, hname.trimmed]
  | cons param params =>
      have hpieces : ∀ piece ∈ (param :: params).map String.toList, ',' ∉ piece := by
        intro piece hpiece
        obtain ⟨text, htext, rfl⟩ := List.mem_map.mp hpiece
        exact (hparams text htext).notMem
      have htrimmed : (param :: params).map Text.trimmed = param :: params := by
        conv_rhs => rw [← List.map_id (param :: params)]
        exact List.map_congr_left fun text htext ↦ (hparams text htext).trimmed
      rw [ofIdentifier_of_colon (toList_identifier name param params) hname.notMem,
        splitCommas_intercalate (by simp) hpieces, List.map_map]
      exact congrArg₂ Invocation.mk hname.trimmed htrimmed

end FieldRules.Invocation
