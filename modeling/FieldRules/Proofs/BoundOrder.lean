import FieldRules.Proofs.Bounds
import Mathlib.Order.Compare

/-!
# The order that bounds are judged in

Two numbers are compared in one of two orders, and which one depends on both of them. Either order is
total and is the same from both sides, so a lower bound and an upper bound are two sides of one
comparison.
-/

namespace FieldRules

/-! ## One comparison from both sides -/

theorem Decimal.compare_swap (d e : Decimal) : (d.compare e).swap = e.compare d :=
  Int.compare_swap _ _

namespace Number

variable {v w : Number} {text : String}

theorem compare_swap (v w : Number) : (v.compare w).swap = w.compare v := by
  obtain ⟨p, _ | d⟩ := v <;> obtain ⟨q, _ | e⟩ := w
  case some.some => exact d.compare_swap e
  all_goals exact Int.compare_swap _ _

theorem compare_eq (v w : Number) :
    v.compare w =
      match v.exact.map Decimal.value, w.exact.map Decimal.value with
      | some x, some y => cmp x y
      | _, _ => cmp v.approx.units w.approx.units := by
  obtain ⟨p, _ | d⟩ := v <;> obtain ⟨q, _ | e⟩ := w
  case some.some => exact d.compare_eq_cmp e
  all_goals exact (cmp_eq_compare p.units q.units).symm

theorem isGE_compare_eq (v w : Number) : (v.compare w).isGE = (w.compare v).isLE := by
  rw [← compare_swap, Ordering.isGE_swap]

theorem isLE_or_isGE_compare (v w : Number) : (v.compare w).isLE ∨ (v.compare w).isGE := by
  cases v.compare w <;> simp

/-- The approximation is a finite binary64 number. -/
def InRange (v : Number) : Prop :=
  v.approx.units.natAbs < Binary64.limit

theorem inRange_of_nearest {x : ℚ} (hunits : v.approx.units = Binary64.nearest x)
    (hx : Binary64.IsFinite x) : v.InRange := by
  rwa [InRange, hunits, Binary64.natAbs_nearest, Binary64.nearestAbs_lt_limit_iff]

theorem inRange_of_ofText? (h : ofText? text = some v) : v.InRange := by
  obtain ⟨l, hl, rfl⟩ := ofText?_eq_some_iff.mp h
  exact inRange_of_nearest rfl hl.isFinite

theorem inRange_ofInt {n : ℤ} (h : |n| < 2 ^ 65) : (ofInt n).InRange :=
  inRange_of_nearest (Binary64.units_ofInt n) (Binary64.isFinite_intCast h)

theorem abs_toInt_lt (n : Int64) : |n.toInt| < 2 ^ 65 := by
  refine abs_lt.mpr ⟨?_, ?_⟩
  · exact lt_of_lt_of_le (by decide) n.le_toInt
  · exact n.toInt_lt.trans (by decide)

theorem isSome_ofText?_iff : (ofText? text).isSome ↔ ∃ l : Literal, l.IsReadFrom text := by
  simp only [Option.isSome_iff_exists, ofText?_eq_some_iff]
  exact ⟨fun ⟨_, l, hl, _⟩ ↦ ⟨l, hl⟩, fun ⟨l, hl⟩ ↦ ⟨_, l, hl, rfl⟩⟩

end Number

theorem Literal.IsWrittenAs.isReadFrom {l : Literal} {text : String} (h : l.IsWrittenAs text)
    (hsome : (Number.ofText? text).isSome) : l.IsReadFrom text := by
  obtain ⟨m, hm⟩ := Number.isSome_ofText?_iff.mp hsome
  have heq : m = l := Option.some_inj.mp (hm.isWrittenAs.symm.trans h)
  rwa [← heq]

theorem Value.inRange_of_magnitude? {value : Value} {v : Number} (h : value.magnitude? = some v)
    (hlength : ∀ text, value = .string text → text.length < 2 ^ 64) : v.InRange := by
  cases value <;> simp only [magnitude?] at h
  case integer n =>
    cases h
    exact Number.inRange_ofInt (Number.abs_toInt_lt n)
  case float x => exact Number.inRange_of_ofText? h
  case string text =>
    cases htext : Number.ofText? text with
    | some w =>
        rw [htext] at h
        cases h
        exact Number.inRange_of_ofText? htext
    | none =>
        rw [htext] at h
        cases h
        refine Number.inRange_ofInt ?_
        have hlt := hlength text rfl
        rw [Nat.abs_cast]
        exact_mod_cast hlt.trans (by decide)
  all_goals contradiction

theorem Value.magnitude?_string {text : String} {v : Number} (h : Number.ofText? text = some v) :
    (Value.string text).magnitude? = some v := by
  rw [magnitude?, h]
  rfl

namespace Check

theorem min_eq_max {s t : String} {v w : Number} (hs : Number.ofText? s = some v)
    (ht : Number.ofText? t = some w) (fields : Fields Value) :
    min fields (.string s) [t] = max fields (.string t) [s] := by
  simpa [min, max, bound?, Value.magnitude?_string, hs, ht, atLeast, atMost] using
    v.isGE_compare_eq w

/-- A lower bound and an upper bound are two sides of one comparison, which is total. So a number is
within the bounds one by one, is on one side of each at least, and changes sides with its bound. -/
theorem bounds_dual (fields : Fields Value) (value : Value) :
    (∀ lo hi more, between fields value (lo :: hi :: more) =
      (min fields value [lo] && max fields value [hi])) ∧
    (∀ b more, value.magnitude? = none ∨ (¬ ∃ l : Literal, l.IsReadFrom b) →
      min fields value (b :: more) = false ∧ max fields value (b :: more) = false) ∧
    (∀ b more, value.magnitude? ≠ none → (∃ l : Literal, l.IsReadFrom b) →
      min fields value (b :: more) ∨ max fields value (b :: more)) ∧
    (∀ v, value.magnitude? = some v → (∀ text, value = .string text → text.length < 2 ^ 64) →
      v.InRange) ∧
    ∀ s t, (∃ l : Literal, l.IsReadFrom s) → (∃ m : Literal, m.IsReadFrom t) →
      min fields (.string s) [t] = max fields (.string t) [s] ∧
      (min fields (.string s) [t] ∧ max fields (.string s) [t] ↔
        min fields (.string t) [s] ∧ max fields (.string t) [s]) := by
  refine ⟨fun _ _ _ ↦ rfl, ?_, ?_, fun v ↦ Value.inRange_of_magnitude?, ?_⟩
  · rintro b more (hvalue | hb)
    · simp [min, max, hvalue, atLeast, atMost]
    · rw [← Number.isSome_ofText?_iff, Option.not_isSome_iff_eq_none] at hb
      cases hvalue : value.magnitude? <;> simp [min, max, hvalue, bound?, hb, atLeast, atMost]
  · intro b more hvalue hb
    obtain ⟨v, hv⟩ := Option.ne_none_iff_exists'.mp hvalue
    obtain ⟨w, hw⟩ := Option.isSome_iff_exists.mp (Number.isSome_ofText?_iff.mpr hb)
    have htotal := v.isLE_or_isGE_compare w
    simpa [min, max, hv, bound?, hw, atLeast, atMost] using htotal.symm
  · intro s t hs ht
    obtain ⟨v, hv⟩ := Option.isSome_iff_exists.mp (Number.isSome_ofText?_iff.mpr hs)
    obtain ⟨w, hw⟩ := Option.isSome_iff_exists.mp (Number.isSome_ofText?_iff.mpr ht)
    exact ⟨min_eq_max hv hw fields,
      by rw [min_eq_max hv hw fields, ← min_eq_max hw hv fields, and_comm]⟩

/-- The bound is too large for an exact comparison, as seen from either side. -/
theorem bounds_dual_large :
    min ∅ (.string "79228162514264337593543950335") ["79228162514264337593543950336"] =
        max ∅ (.string "79228162514264337593543950336") ["79228162514264337593543950335"] ∧
      (min ∅ .null ["1"] = false ∧ max ∅ .null ["1"] = false) := by
  obtain ⟨-, hnone, -, -, hswap⟩ := bounds_dual ∅ .null
  have hs : ∃ l : Literal, l.IsReadFrom "79228162514264337593543950335" :=
    Number.isSome_ofText?_iff.mp (by decide +kernel)
  have ht : ∃ l : Literal, l.IsReadFrom "79228162514264337593543950336" :=
    Number.isSome_ofText?_iff.mp (by decide +kernel)
  exact ⟨(hswap _ _ hs ht).1, hnone "1" [] (.inl rfl)⟩

end Check

end FieldRules
