import FieldRules.Checks.Bounds
import FieldRules.Proofs.ExactNumbers

/-!
# Bounds on exact numbers

Where the value and its bounds are known exactly, they are compared as rationals: the texts that
they are read from decide nothing beyond the numbers that they denote, and neither do the
approximations. A number that is known exactly is far from the largest binary64 number, so no text
of it is taken for one that is too large.
-/

namespace FieldRules

/-! ## Numbers that are known exactly -/

namespace Number

/-- The number is known exactly, and is `x`. -/
def IsExactly (v : Number) (x : ℚ) : Prop :=
  ∃ d, v.exact = some d ∧ d.value = x

/-- The comparison of the two numbers does not depend on their approximations. -/
def CompareExactly (v w : Number) : Prop :=
  ∀ p q : Binary64, Number.compare ⟨p, v.exact⟩ ⟨q, w.exact⟩ = v.compare w

variable {v w : Number} {x y : ℚ}

theorem IsExactly.compareExactly (hv : v.IsExactly x) (hw : w.IsExactly y) :
    v.CompareExactly w := by
  obtain ⟨d, hd, -⟩ := hv
  obtain ⟨e, he, -⟩ := hw
  intro p q
  simp only [compare, hd, he]

theorem IsExactly.isGE_compare (hv : v.IsExactly x) (hw : w.IsExactly y) :
    (v.compare w).isGE ↔ y ≤ x := by
  obtain ⟨d, hd, rfl⟩ := hv
  obtain ⟨e, he, rfl⟩ := hw
  simp only [compare, hd, he, Decimal.isGE_compare]

theorem IsExactly.isLE_compare (hv : v.IsExactly x) (hw : w.IsExactly y) :
    (v.compare w).isLE ↔ x ≤ y := by
  obtain ⟨d, hd, rfl⟩ := hv
  obtain ⟨e, he, rfl⟩ := hw
  simp only [compare, hd, he, Decimal.isLE_compare]

theorem isExactly_ofInt {n : ℤ} (h : Decimal.Fits n) : (ofInt n).IsExactly n :=
  ⟨⟨n, 0⟩, Decimal.mk?_of_fits h, by simp [Decimal.value]⟩

theorem exists_ofText? {n : Numeral} {text : String} (htext : n.IsWrittenAs text)
    (h : Decimal.Fits n.value) : ∃ v, ofText? text = some v ∧ v.IsExactly n.value := by
  have hread := htext.isReadFrom h.isFinite
  rw [← n.value_literal] at h ⊢
  obtain ⟨d, hd, hvalue⟩ :=
    Decimal.exists_ofLiteral?_of_fits n.digit_lt_of_literal n.moderate_literal h
  exact ⟨_, hread.ofText?_eq, d, hd, hvalue⟩

end Number

/-! ## Bounds -/

/-- What is compared with the bounds of the value: the number, or the length of a text that is not
one. -/
inductive Value.Measures : Value → ℚ → Prop
  | integer (n : Int64) : Measures (.integer n) n.toInt
  | numeral {n : Numeral} {text : String} (htext : n.IsWrittenAs text) :
      Measures (.string text) n.value
  | length {text : String} (htext : Number.ofText? text = none) :
      Measures (.string text) text.length

theorem Value.Measures.exists_magnitude? {value : Value} {x : ℚ} (h : value.Measures x)
    (hx : Decimal.Fits x) : ∃ v, value.magnitude? = some v ∧ v.IsExactly x := by
  cases h with
  | integer n => exact ⟨_, rfl, Number.isExactly_ofInt hx⟩
  | numeral htext =>
      obtain ⟨v, hv, hexact⟩ := Number.exists_ofText? htext hx
      exact ⟨v, by rw [magnitude?, hv]; rfl, hexact⟩
  | @length text htext =>
      refine ⟨.ofInt text.length, by rw [magnitude?, htext]; rfl, ?_⟩
      have hexact := Number.isExactly_ofInt (n := text.length) (by exact_mod_cast hx)
      exact_mod_cast hexact

namespace Check

variable {v bound : Number} {x b : ℚ}

theorem atLeast_iff (hv : v.IsExactly x) (hb : bound.IsExactly b) :
    atLeast (some v) (some bound) ↔ b ≤ x :=
  hv.isGE_compare hb

theorem atMost_iff (hv : v.IsExactly x) (hb : bound.IsExactly b) :
    atMost (some v) (some bound) ↔ x ≤ b :=
  hv.isLE_compare hb

/-- Bounds that are numerals are exact on numbers, on numerals and on lengths: however the numbers
are written, they are compared as rationals, and no approximation has a part in it. -/
theorem bounds_exact {value : Value} {x : ℚ} {a b : Numeral} {lo hi : String}
    (hvalue : value.Measures x) (hx : Decimal.Fits x)
    (hlo : a.IsWrittenAs lo) (ha : Decimal.Fits a.value)
    (hhi : b.IsWrittenAs hi) (hb : Decimal.Fits b.value)
    (fields : Fields Value) (more : List String) :
    (min fields value (lo :: more) ↔ a.value ≤ x) ∧
      (max fields value (hi :: more) ↔ x ≤ b.value) ∧
      (between fields value (lo :: hi :: more) ↔ a.value ≤ x ∧ x ≤ b.value) ∧
      ∃ v low high, value.magnitude? = some v ∧ Number.ofText? lo = some low ∧
        Number.ofText? hi = some high ∧ v.CompareExactly low ∧ v.CompareExactly high := by
  obtain ⟨v, hv, hexact⟩ := hvalue.exists_magnitude? hx
  obtain ⟨low, hlow, hlowExact⟩ := Number.exists_ofText? hlo ha
  obtain ⟨high, hhigh, hhighExact⟩ := Number.exists_ofText? hhi hb
  have hmin := atLeast_iff hexact hlowExact
  have hmax := atMost_iff hexact hhighExact
  refine ⟨?_, ?_, ?_, v, low, high, hv, hlow, hhigh, hexact.compareExactly hlowExact,
    hexact.compareExactly hhighExact⟩
  · simpa [min, bound?, hv, hlow] using hmin
  · simpa [max, bound?, hv, hhigh] using hmax
  · simp [between, bound?, hv, hlow, hhigh, hmin, hmax]

/-- A number with the largest mantissa of all, and a bound that is one unit of its last place below.
Their approximations are the same. -/
theorem bounds_exact_largest :
    min ∅ (.string "\t+0792281625142643375935439503.3500 ") ["792281625142643375935439503.34"] ∧
      ¬ max ∅ (.string "\t+0792281625142643375935439503.3500 ")
        ["792281625142643375935439503.34"] := by
  obtain ⟨number, hnumber, hx⟩ : ∃ n : Numeral,
      n.IsWrittenAs "\t+0792281625142643375935439503.3500 " ∧
        n.value = 79228162514264337593543950335 / 10 ^ 2 := by
    refine ⟨⟨.plus, [0, 7, 9, 2, 2, 8, 1, 6, 2, 5, 1, 4, 2, 6, 4, 3, 3, 7, 5, 9, 3, 5, 4, 3, 9, 5,
      0, 3], [3, 5, 0, 0], by decide⟩, by decide, ?_⟩
    norm_num [Numeral.value, Numeral.coefficient, Sign.isMinus, Nat.ofDigits]
  obtain ⟨bound, hbound, hb⟩ : ∃ n : Numeral, n.IsWrittenAs "792281625142643375935439503.34" ∧
      n.value = 79228162514264337593543950334 / 10 ^ 2 := by
    refine ⟨⟨.absent, [7, 9, 2, 2, 8, 1, 6, 2, 5, 1, 4, 2, 6, 4, 3, 3, 7, 5, 9, 3, 5, 4, 3, 9, 5,
      0, 3], [3, 4], by decide⟩, by decide, ?_⟩
    norm_num [Numeral.value, Numeral.coefficient, Sign.isMinus, Nat.ofDigits]
  have hfits : Decimal.Fits number.value :=
    ⟨79228162514264337593543950335, 2, by decide, by decide, by rw [hx]; norm_num⟩
  have hfitsBound : Decimal.Fits bound.value :=
    ⟨79228162514264337593543950334, 2, by decide, by decide, by rw [hb]; norm_num⟩
  obtain ⟨hmin, hmax, -⟩ :=
    bounds_exact (.numeral hnumber) hfits hbound hfitsBound hbound hfitsBound ∅ []
  rw [hx, hb] at hmin hmax
  rw [hmin, hmax]
  norm_num

end Check

end FieldRules
