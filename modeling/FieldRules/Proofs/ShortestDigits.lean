import FieldRules.Number.Shortest
import FieldRules.Proofs.Nearest

/-!
# The shortest decimals read back

Rounding leaves a number alone that is on the grid already, so all the digits of a binary64 number
read back. A shorter decimal is only taken if it reads back as well, and zeros at the end of its
digits count nothing, wherever the point is.
-/

namespace FieldRules

namespace Binary64

variable {n num den units m k coefficient coefficient' : ℕ} {power power' : ℤ}

/-! ## Numbers that are not rounded -/

theorem divNearest_eq_of_eq (hden : 0 < den) (h : (num : ℚ) / den = n) : divNearest num den = n :=
  le_antisymm (divNearest_le_of_le hden h.le) (le_divNearest hden h.ge)

theorem roundUnits_eq_of_gap_dvd (hden : 0 < den) (hunits : unitsIn num den = units)
    (hgap : gap units ∣ units) : roundUnits num den = units := by
  obtain ⟨m, hm⟩ := hgap
  have hpos := gap_pos units
  have hquot : ((num * one : ℕ) : ℚ) / (den * gap units : ℕ) = m := by
    rw [unitsIn_div, hunits, div_eq_iff (by exact_mod_cast hpos.ne'), mul_comm]
    exact_mod_cast hm
  rw [roundUnits_eq, hunits, Nat.floor_natCast,
    divNearest_eq_of_eq (Nat.mul_pos hden hpos) hquot, Nat.mul_comm, ← hm]

/-- There is a number of so many units: it is not too large, and on the grid of its leading bit. -/
structure IsRepresentable (units : ℕ) : Prop where
  gap_dvd : gap units ∣ units
  lt_limit : units < limit

theorem gap_mul_two_pow_dvd (hm : m < 2 ^ 53) : gap (m * 2 ^ k) ∣ m * 2 ^ k := by
  rcases Nat.eq_zero_or_pos m with rfl | hpos
  · simp
  · have hlog : (m * 2 ^ k).log2 < 53 + k := by
      rw [Nat.log2_lt (Nat.mul_pos hpos (Nat.two_pow_pos k)).ne', pow_add]
      exact Nat.mul_lt_mul_of_pos_right hm (Nat.two_pow_pos k)
    refine Nat.dvd_trans ?_ (Nat.dvd_mul_left _ m)
    exact pow_dvd_pow 2 (by omega)

theorem isRepresentable_mul_two_pow (hm : m < 2 ^ 53) (hk : k ≤ 2045) :
    IsRepresentable (m * 2 ^ k) := by
  refine ⟨gap_mul_two_pow_dvd hm, ?_⟩
  have hexponent : 53 + k ≤ 1024 + 1074 := by omega
  rw [limit_eq]
  generalize 1024 + 1074 = n at hexponent ⊢
  calc m * 2 ^ k < 2 ^ 53 * 2 ^ k := Nat.mul_lt_mul_of_pos_right hm (Nat.two_pow_pos k)
    _ = 2 ^ (53 + k) := (pow_add 2 53 k).symm
    _ ≤ 2 ^ n := Nat.pow_le_pow_right (by decide) hexponent

/-- The fraction of a number has 52 bits, and a leading bit unless the exponent is the smallest. -/
theorem isRepresentable_of_form {x : Float} {negative : Bool}
    (h : form x = .finite negative units) : IsRepresentable units := by
  have hfraction : x.toBits.toNat % Nat.pow 2 52 < 2 ^ 52 := Nat.mod_lt _ (by decide)
  simp only [form] at h
  generalize x.toBits.toNat % Nat.pow 2 52 = fraction at h hfraction
  generalize x.toBits.toNat / Nat.pow 2 52 % Nat.pow 2 11 = exponent at h
  split_ifs at h with hzero hlt <;> cases h
  · have hsubnormal := isRepresentable_mul_two_pow (m := units) (k := 0) (by omega) (by omega)
    rwa [pow_zero, mul_one] at hsubnormal
  · exact isRepresentable_mul_two_pow (Nat.add_lt_of_lt_sub' hfraction) (by omega)

/-! ## Decimals that read back -/

theorem unitsOfDecimal?_congr
    (h : (coefficient : ℚ) * 10 ^ power = coefficient' * 10 ^ power') :
    unitsOfDecimal? coefficient power = unitsOfDecimal? coefficient' power' := by
  have habs : |(coefficient : ℚ) * 10 ^ power| = coefficient * 10 ^ power :=
    abs_of_nonneg (by positivity)
  rw [unitsOfDecimal?_eq habs, unitsOfDecimal?_eq (habs.trans h)]

end Binary64

open Binary64

namespace Scientific

variable {s : Scientific} {units : ℕ}

/-- The number `coefficient * 10 ^ power`, as a rational. -/
def value (s : Scientific) : ℚ :=
  s.coefficient * 10 ^ s.power

/-- The decimal is read as the number of so many units. -/
def Reads (s : Scientific) (units : ℕ) : Prop :=
  unitsOfDecimal? s.coefficient s.power = some units

theorem value_nonneg (s : Scientific) : 0 ≤ s.value :=
  mul_nonneg (Nat.cast_nonneg _) (zpow_nonneg (by norm_num) _)

theorem value_strip (coefficient : ℕ) (power : ℤ) :
    (strip coefficient power).value = coefficient * 10 ^ power := by
  fun_induction strip coefficient power with
  | case1 coefficient power h ih =>
      have hten : 10 * (coefficient / 10) = coefficient := by omega
      calc (strip (coefficient / 10) (power + 1)).value
          = (coefficient / 10 : ℕ) * 10 ^ (power + 1) := ih
        _ = (10 * (coefficient / 10) : ℕ) * 10 ^ power := by
            rw [zpow_add_one₀ (by norm_num)]
            push_cast
            ring
        _ = coefficient * 10 ^ power := by rw [hten]
  | case2 coefficient power h => rfl

theorem Reads.strip (h : s.Reads units) : (strip s.coefficient s.power).Reads units := by
  rw [Reads, unitsOfDecimal?_congr (value_strip s.coefficient s.power)]
  exact h

theorem Reads.nearestAbs_eq (h : s.Reads units) :
    IsFinite s.value ∧ nearestAbs s.value = units := by
  have habs : |s.value| = s.coefficient * 10 ^ s.power := abs_of_nonneg s.value_nonneg
  rw [Reads, unitsOfDecimal?_eq habs] at h
  split_ifs at h with hlt
  exact ⟨nearestAbs_lt_limit_iff.mp hlt, Option.some_inj.mp h⟩

end Scientific

namespace Shortest

variable {units : ℕ}

theorem value_exact (units : ℕ) : (exact units).value = units / 2 ^ 1074 := by
  have hpower : (-1074 : ℤ) = -(1074 : ℕ) := rfl
  rw [exact, Scientific.value, hpower]
  generalize 1074 = n
  have hten : (10 : ℚ) ^ n = 2 ^ n * 5 ^ n := by
    rw [← mul_pow]
    norm_num
  rw [zpow_neg, zpow_natCast, hten, ← div_eq_mul_inv, Nat.pow_eq]
  push_cast
  exact mul_div_mul_right _ _ (by positivity)

theorem reads_exact (h : IsRepresentable units) : (exact units).Reads units := by
  have habs : |(exact units).value| = (exact units).value :=
    abs_of_nonneg (exact units).value_nonneg
  have hnearest : nearestAbs (exact units).value = units := by
    refine roundUnits_eq_of_gap_dvd (Rat.den_pos _) ?_ h.gap_dvd
    rw [unitsIn_eq, habs, value_exact]
    generalize 1074 = n
    exact div_mul_cancel₀ _ (by positivity)
  rw [Scientific.Reads, unitsOfDecimal?_eq habs, hnearest, if_pos h.lt_limit]

theorem reads_of_onGrid? {tie : Tie} {power : ℤ} {coefficient : ℕ}
    (h : onGrid? tie units power = some coefficient) :
    (Scientific.mk coefficient power).Reads units := by
  simp only [onGrid?] at h
  generalize (scaled units power).1 / (scaled units power).2 = low at h
  split at h
  case h_1 hlow _ =>
    cases h
    exact beq_iff_eq.mp hlow
  case h_2 _ hhigh =>
    cases h
    exact beq_iff_eq.mp hhigh
  case h_3 => contradiction
  case h_4 hlow hhigh =>
    have hcases : coefficient = low ∨ coefficient = low + 1 := by
      split at h
      · exact .inl (Option.some_inj.mp h).symm
      · exact .inr (Option.some_inj.mp h).symm
      · split_ifs at h
        · exact .inl (Option.some_inj.mp h).symm
        · exact .inr (Option.some_inj.mp h).symm
    rcases hcases with rfl | rfl
    · exact beq_iff_eq.mp hlow
    · exact beq_iff_eq.mp hhigh

/-- Whatever decimal is taken, it reads back. -/
theorem reads_ofUnits (tie : Tie) (h : IsRepresentable units) :
    (ofUnits tie units).Reads units := by
  simp only [ofUnits]
  split_ifs with hzero
  · simp [Scientific.Reads, unitsOfDecimal?, hzero]
  · apply Scientific.Reads.strip
    cases hfound : (List.range 17).findSome? fun n : ℕ ↦
        (onGrid? tie units (leading units - n)).map (Scientific.mk · (leading units - n)) with
    | none => exact reads_exact h
    | some s =>
        obtain ⟨n, -, hn⟩ := List.exists_of_findSome?_eq_some hfound
        obtain ⟨coefficient, hgrid, rfl⟩ := Option.map_eq_some_iff.mp hn
        exact reads_of_onGrid? hgrid

end Shortest

end FieldRules
