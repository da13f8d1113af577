import FieldRules.Proofs.BoundOrder

/-!
# Spellings of a number

A comparison reads two things of a literal, the nearest binary64 number and the number that its
decimal denotes. The first depends on the number of the literal alone. So does the second while no
digit is rounded before an exponent moves the point in the digits, and the exponent is not larger
than the places of a decimal: the literals of one number are interchangeable then, with or without an
exponent, zeros at either end, a sign of zero, or white space. Otherwise a decimal can be read from
one literal of a number and none from another.
-/

namespace FieldRules

namespace Number

/-- The two numbers are the same in both orders that numbers are compared in. -/
structure SameAs (v w : Number) : Prop where
  approx : v.approx = w.approx
  exact : v.exact.map Decimal.value = w.exact.map Decimal.value

variable {v w : Number}

theorem SameAs.rfl : v.SameAs v :=
  ⟨Eq.refl _, Eq.refl _⟩

theorem SameAs.compare_left (h : v.SameAs w) (u : Number) : v.compare u = w.compare u := by
  rw [compare_eq, compare_eq, h.approx, h.exact]

theorem SameAs.compare_right (h : v.SameAs w) (u : Number) : u.compare v = u.compare w := by
  rw [compare_eq, compare_eq, h.approx, h.exact]

end Number

/-! ## Literals of one number -/

/-- A decimal is read from both literals, or from neither, and no digit is rounded twice. -/
inductive Literal.ReadAlike (l m : Literal) : Prop
  | moderate (hl : l.Moderate) (hm : m.Moderate)
  | exactly (hl : l.RoundedOnce) (hm : m.RoundedOnce) (hd : Decimal.ofLiteral? l ≠ none)
      (he : Decimal.ofLiteral? m ≠ none)
  | approximately (hl : Decimal.ofLiteral? l = none) (hm : Decimal.ofLiteral? m = none)

variable {l m : Literal} {s t : String}

/-- What is read is a function of the number, as long as no digit is rounded twice. -/
theorem Decimal.map_value_eq (hl : ∀ d ∈ l.fraction, d < 10) (hm : ∀ d ∈ m.fraction, d < 10)
    (hlOnce : l.RoundedOnce) (hmOnce : m.RoundedOnce) (hvalue : l.value = m.value)
    (h : ofLiteral? l = none ↔ ofLiteral? m = none) :
    (ofLiteral? l).map value = (ofLiteral? m).map value := by
  cases hd : ofLiteral? l with
  | none => rw [h.mp hd]
  | some d =>
      obtain ⟨e, he⟩ := Option.ne_none_iff_exists'.mp fun hnone ↦ by simp [h.mpr hnone] at hd
      have hle := value_mono hl hm hlOnce hmOnce hd he hvalue.le
      have hge := value_mono hm hl hmOnce hlOnce he hd hvalue.ge
      rw [he, Option.map_some, Option.map_some, hle.antisymm hge]

theorem Literal.ReadAlike.map_value_ofLiteral? (h : l.ReadAlike m) (hs : l.IsReadFrom s)
    (ht : m.IsReadFrom t) (hvalue : l.value = m.value) :
    (Decimal.ofLiteral? l).map Decimal.value = (Decimal.ofLiteral? m).map Decimal.value := by
  have hldigits := digit_lt_of_read hs.isWrittenAs
  have hmdigits := digit_lt_of_read ht.isWrittenAs
  cases h with
  | moderate hl hm =>
      refine Decimal.map_value_eq hldigits hmdigits hl.roundedOnce hm.roundedOnce hvalue ?_
      rw [Decimal.ofLiteral?_eq_none_iff hldigits hl, Decimal.ofLiteral?_eq_none_iff hmdigits hm,
        ← l.abs_value, hvalue, m.abs_value]
  | exactly hl hm hd he =>
      exact Decimal.map_value_eq hldigits hmdigits hl hm hvalue (iff_of_false hd he)
  | approximately hl hm => rw [hl, hm]

theorem Number.sameAs_ofLiteral (hs : l.IsReadFrom s) (ht : m.IsReadFrom t)
    (hvalue : l.value = m.value) (h : l.ReadAlike m) : (ofLiteral l).SameAs (ofLiteral m) :=
  ⟨by rw [ofLiteral, ofLiteral, hvalue], h.map_value_ofLiteral? hs ht hvalue⟩

namespace Check

/-- No bound check tells the two texts apart, neither as its value nor among its parameters. -/
def Interchangeable (s t : String) : Prop :=
  ∀ check ∈ [min, max, between], ∀ fields : Fields Value,
    (∀ params, check fields (.string s) params = check fields (.string t) params) ∧
      ∀ value before after,
        check fields value (before ++ s :: after) = check fields value (before ++ t :: after)

variable {a b c d : Option Number}

theorem atLeast_congr (hac : Option.Rel Number.SameAs a c) (hbd : Option.Rel Number.SameAs b d) :
    atLeast a b = atLeast c d := by
  cases hac <;> cases hbd
  case some.some v w hv x y hx => rw [atLeast, atLeast, hv.compare_left, hx.compare_right]
  all_goals rfl

theorem atMost_congr (hac : Option.Rel Number.SameAs a c) (hbd : Option.Rel Number.SameAs b d) :
    atMost a b = atMost c d := by
  cases hac <;> cases hbd
  case some.some v w hv x y hx => rw [atMost, atMost, hv.compare_left, hx.compare_right]
  all_goals rfl

theorem rel_refl : Option.Rel Number.SameAs a a := by
  cases a with
  | none => exact .none
  | some v => exact .some .rfl

theorem rel_bound? (h : Option.Rel Number.SameAs (Number.ofText? s) (Number.ofText? t))
    (before after : List String) (index : ℕ) :
    Option.Rel Number.SameAs (bound? (before ++ s :: after) index)
      (bound? (before ++ t :: after) index) := by
  rw [bound?, bound?, List.getElem?_append, List.getElem?_append]
  split_ifs
  · exact rel_refl
  · cases index - before.length with
    | zero => exact h
    | succ k => exact rel_refl

theorem bounds_congr {value value' : Value} {params params' : List String}
    (hvalue : Option.Rel Number.SameAs value.magnitude? value'.magnitude?)
    (hparams : ∀ index, Option.Rel Number.SameAs (bound? params index) (bound? params' index)) :
    ∀ check ∈ [min, max, between], ∀ fields,
      check fields value params = check fields value' params' := by
  have hmin := atLeast_congr hvalue (hparams 0)
  simp only [List.forall_mem_cons, List.not_mem_nil, false_imp_iff, forall_const, and_true]
  refine ⟨fun _ ↦ hmin, fun _ ↦ atMost_congr hvalue (hparams 0), fun _ ↦ ?_⟩
  rw [between, between, hmin, atMost_congr hvalue (hparams 1)]

/-- Literals of one number are interchangeable, in the value and in the parameters, wherever a
decimal is read from both or from neither. -/
theorem interchangeable_of_value_eq (hs : l.IsReadFrom s) (ht : m.IsReadFrom t)
    (hvalue : l.value = m.value) (h : l.ReadAlike m) : Interchangeable s t := by
  have hrel : Option.Rel Number.SameAs (Number.ofText? s) (Number.ofText? t) := by
    rw [hs.ofText?_eq, ht.ofText?_eq]
    exact .some (Number.sameAs_ofLiteral hs ht hvalue h)
  have hmagnitude : Option.Rel Number.SameAs (Value.string s).magnitude?
      (Value.string t).magnitude? := by
    rwa [Value.magnitude?_string hs.ofText?_eq, Value.magnitude?_string ht.ofText?_eq,
      ← hs.ofText?_eq, ← ht.ofText?_eq]
  intro check hcheck fields
  exact ⟨fun _ ↦ bounds_congr hmagnitude (fun _ ↦ rel_refl) check hcheck fields,
    fun _ before after ↦ bounds_congr rel_refl (rel_bound? hrel before after) check hcheck fields⟩

/-- A number with an exponent, and with a sign and zeros at both ends instead. -/
theorem interchangeable_fifteen_hundred : Interchangeable "1.5e3" " +01500.00" := by
  have hs : Literal.IsReadFrom ⟨false, [1], [5], some ⟨false, 3⟩⟩ "1.5e3" :=
    Literal.IsWrittenAs.isReadFrom (by decide) (by decide +kernel)
  have ht : Literal.IsReadFrom ⟨false, [0, 1, 5, 0, 0], [0, 0], none⟩ " +01500.00" :=
    Literal.IsWrittenAs.isReadFrom (by decide) (by decide +kernel)
  refine interchangeable_of_value_eq hs ht ?_ (.moderate ?_ ?_)
  · norm_num [Literal.value, Literal.magnitude, Literal.coefficient, Literal.power, digitsValue,
      Exponent.value]
  · have hfits : Decimal.Fits (15 / 10) := ⟨15, 1, by decide, by decide, by norm_num⟩
    simpa [Literal.Moderate, Literal.digitsMagnitude, Literal.coefficient, digitsValue,
      Decimal.maxScale] using hfits
  · simp [Literal.Moderate]

/-- The largest mantissa is read from all its digits, and not if an exponent has to move the point
behind them. -/
theorem not_interchangeable_largest :
    ∃ l m : Literal, l.IsReadFrom "79228162514264337593543950335" ∧
      m.IsReadFrom "0.79228162514264337593543950335e29" ∧ l.value = m.value ∧
      Decimal.Fits l.value ∧
      ¬ min ∅ (.string "79228162514264337593543950334") ["79228162514264337593543950335"] ∧
      min ∅ (.string "79228162514264337593543950334") ["0.79228162514264337593543950335e29"] := by
  refine ⟨⟨false, [7, 9, 2, 2, 8, 1, 6, 2, 5, 1, 4, 2, 6, 4, 3, 3, 7, 5, 9, 3, 5, 4, 3, 9, 5, 0, 3,
    3, 5], [], none⟩, ⟨false, [0], [7, 9, 2, 2, 8, 1, 6, 2, 5, 1, 4, 2, 6, 4, 3, 3, 7, 5, 9, 3, 5,
    4, 3, 9, 5, 0, 3, 3, 5], some ⟨false, 29⟩⟩, ?_, ?_, ?_, ?_, by decide +kernel, by decide +kernel⟩
  · exact Literal.IsWrittenAs.isReadFrom (by decide) (by decide +kernel)
  · exact Literal.IsWrittenAs.isReadFrom (by decide) (by decide +kernel)
  · norm_num [Literal.value, Literal.magnitude, Literal.coefficient, Literal.power, digitsValue,
      Exponent.value]
  · refine ⟨79228162514264337593543950335, 0, by decide, by decide, ?_⟩
    norm_num [Literal.value, Literal.magnitude, Literal.coefficient, Literal.power, digitsValue]

/-- The digits are rounded upwards to a half before the exponent moves the point in them. -/
example :
    ¬ min ∅ (.string "4999999999999999999999999999.7") ["0.49999999999999999999999999995e28"] ∧
      min ∅ (.string "4999999999999999999999999999.7") ["4999999999999999999999999999.5"] := by
  decide +kernel

end Check

end FieldRules
