import FieldRules.Chain
import FieldRules.Proofs.Invocations

/-!
# What can be written as an invocation

Reading an identifier gives a name without a colon and parameters without a comma, and no white space
around any of them. Those are the invocations that come back when they are written.
-/

namespace FieldRules.Invocation

variable {text : String} {separator : Char} {cs piece : List Char}

/-- The name and the parameters are kept when they are written. -/
structure Writable (call : Invocation) : Prop where
  name : Kept ':' call.name
  params : ∀ param ∈ call.params, Kept ',' param

theorem kept_ofList_trim (h : separator ∉ cs) : Kept separator (String.ofList (Text.trim cs)) where
  trimmed := by rw [Text.trimmed_ofList, Text.trim_trim]
  notMem := by
    rw [String.toList_ofList]
    exact fun hmem ↦ h ((Text.trim_isInfix cs).mem hmem)

/-! ## Parameters -/

theorem notMem_of_mem_splitCommas (h : ',' ∉ piece) :
    ∀ param ∈ splitCommas piece cs, ',' ∉ param := by
  fun_induction splitCommas piece cs with
  | case1 piece => simpa using h
  | case2 piece rest ih =>
      rw [List.forall_mem_cons]
      exact ⟨by simpa using h, ih (by simp)⟩
  | case3 piece c rest hc ih =>
      apply ih
      rw [List.mem_cons, not_or]
      exact ⟨fun heq ↦ hc heq.symm, h⟩

theorem length_splitCommas (piece cs : List Char) :
    (splitCommas piece cs).length = cs.count ',' + 1 := by
  fun_induction splitCommas piece cs with
  | case1 piece => rfl
  | case2 piece rest ih => rw [List.length_cons, ih, List.count_cons_self]
  | case3 piece c rest hc ih => rw [ih, List.count_cons_of_ne hc]

/-! ## Invocations -/

/-- A text is a bare name, or it has a first colon. -/
theorem notMem_or_exists_colon (text : String) :
    ':' ∉ text.toList ∨
      ∃ name params, text.toList = name ++ ':' :: params ∧ ':' ∉ name := by
  by_cases hcolon : ':' ∈ text.toList
  · exact .inr (List.eq_append_cons_of_mem hcolon)
  · exact .inl hcolon

theorem writable_ofIdentifier (text : String) : (ofIdentifier text).Writable := by
  rcases notMem_or_exists_colon text with hbare | ⟨name, params, htext, hname⟩
  · rw [ofIdentifier_of_notMem hbare]
    exact ⟨kept_ofList_trim hbare, by simp⟩
  · rw [ofIdentifier_of_colon htext hname]
    refine ⟨kept_ofList_trim hname, fun param hparam ↦ ?_⟩
    obtain ⟨piece, hpiece, rfl⟩ := List.mem_map.mp hparam
    exact kept_ofList_trim (notMem_of_mem_splitCommas (by simp) piece hpiece)

theorem length_params_of_colon {name params : List Char}
    (htext : text.toList = name ++ ':' :: params) (hname : ':' ∉ name) :
    (ofIdentifier text).params.length = params.count ',' + 1 := by
  rw [ofIdentifier_of_colon htext hname, List.length_map, length_splitCommas]

theorem params_eq_nil_iff (text : String) :
    (ofIdentifier text).params = [] ↔ ':' ∉ text.toList := by
  constructor
  · intro hnil hcolon
    obtain ⟨name, params, htext, hname⟩ := List.eq_append_cons_of_mem hcolon
    have hlength := length_params_of_colon htext hname
    rw [hnil, List.length_nil] at hlength
    omega
  · intro hbare
    rw [ofIdentifier_of_notMem hbare]

theorem ofIdentifier_identifier_iff (call : Invocation) :
    ofIdentifier (identifier call.name call.params) = call ↔ call.Writable := by
  constructor
  · intro h
    rw [← h]
    exact writable_ofIdentifier _
  · intro h
    exact ofIdentifier_identifier h.name h.params

/-- An invocation comes back from the identifier that a chain writes for it exactly if its name has
no colon, no parameter has a comma, and none of them has white space at its ends. What is read from a
text is always such an invocation, with no parameter if the text has no colon and otherwise with one
more than there are commas behind the first, and so it comes back as well. -/
theorem writable_iff_read_back :
    (∀ call : Invocation,
      ofIdentifier (Chain.identifier call.name call.params).spelling = call ↔ call.Writable) ∧
      ∀ text : String,
        let call := ofIdentifier text
        call.Writable ∧
          (call.params = [] ↔ ':' ∉ text.toList) ∧
          (∀ name params : List Char, text.toList = name ++ ':' :: params → ':' ∉ name →
            call.params.length = params.count ',' + 1) ∧
          ofIdentifier (Chain.identifier call.name call.params).spelling = call := by
  refine ⟨ofIdentifier_identifier_iff, fun text ↦ ?_⟩
  have hwritable := writable_ofIdentifier text
  refine ⟨hwritable, params_eq_nil_iff text, fun name params ↦ length_params_of_colon, ?_⟩
  exact (ofIdentifier_identifier_iff _).mpr hwritable

/-- A second colon and empty parameters. -/
theorem writable_iff_read_back_empty :
    let text := " equals : a:b ,, "
    let params := " a:b ,, ".toList
    text.toList = " equals ".toList ++ ':' :: params ∧ ':' ∉ " equals ".toList ∧
      (ofIdentifier text).params.length = params.count ',' + 1 := by
  intro text params
  have htext : text.toList = " equals ".toList ++ ':' :: params := by decide
  have hname : ':' ∉ " equals ".toList := by decide
  exact ⟨htext, hname, (writable_iff_read_back.2 text).2.2.1 _ _ htext hname⟩

/-- One empty parameter is not the same as none. -/
example : identifier "min" [""] = "min:" ∧ ofIdentifier "min:" = ⟨"min", [""]⟩ ∧
    ofIdentifier "min" = ⟨"min", []⟩ := by
  decide

end FieldRules.Invocation
