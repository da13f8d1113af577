import FieldRules.Proofs.Literals
import FieldRules.Proofs.RoundedDecimals
import Mathlib.Data.Nat.Cast.Field

/-!
# Numbers that are known exactly

Numbers that are known exactly are compared as rationals. A literal is read as the decimal to which
its number rounds, unless its digits are rounded before an exponent moves the point in them. So every
numeral is read exactly if its number has a mantissa of 96 bits and at most 28 places, and two
literals that are rounded once are read in the order of their numbers.
-/

namespace FieldRules

namespace Decimal

/-- The number that a decimal denotes. -/
def value (d : Decimal) : ℚ :=
  d.mantissa / 10 ^ d.scale

/-- The number is `m / 10 ^ s` for a whole number `m` of 96 bits and at most 28 places `s`. -/
def Fits (x : ℚ) : Prop :=
  ∃ (m : ℤ) (s : ℕ), |m| < 2 ^ 96 ∧ s ≤ 28 ∧ x = m / 10 ^ s

variable {a b : Decimal}

theorem isLE_cmp {α : Type*} [LinearOrder α] {x y : α} : (cmp x y).isLE ↔ x ≤ y := by
  rw [Ordering.isLE_iff_ne_gt, cmp_eq_gt_iff, not_lt]

theorem isGE_cmp {α : Type*} [LinearOrder α] {x y : α} : (cmp x y).isGE ↔ y ≤ x := by
  rw [← cmp_swap, Ordering.isGE_swap, isLE_cmp]

theorem compare_eq_cmp (a b : Decimal) : a.compare b = cmp a.value b.value := by
  have ha : (0 : ℚ) < 10 ^ a.scale := by positivity
  have hb : (0 : ℚ) < 10 ^ b.scale := by positivity
  have hleft : a.value * (10 ^ a.scale * 10 ^ b.scale) = (a.mantissa * 10 ^ b.scale : ℤ) := by
    rw [value]
    push_cast
    field_simp
  have hright : b.value * (10 ^ a.scale * 10 ^ b.scale) = (b.mantissa * 10 ^ a.scale : ℤ) := by
    rw [value]
    push_cast
    field_simp
  rw [← cmp_mul_pos_right (mul_pos ha hb), hleft, hright, Int.cast_strictMono.cmp_map_eq,
    cmp_eq_compare, compare]
  simp only [Nat.pow_eq]
  norm_cast

theorem isLE_compare : (a.compare b).isLE ↔ a.value ≤ b.value := by
  rw [compare_eq_cmp, isLE_cmp]

theorem isGE_compare : (a.compare b).isGE ↔ b.value ≤ a.value := by
  rw [compare_eq_cmp, isGE_cmp]

theorem limit_eq : limit = 2 ^ 96 := by
  rw [limit, Nat.pow_eq]

theorem mk?_eq_some {m : ℤ} {s : ℕ} (hm : |m| < 2 ^ 96) (hs : s ≤ 28) :
    mk? m s = some ⟨m, s⟩ := by
  have hlimit : m.natAbs < limit := by
    rw [limit_eq]
    zify
    exact hm
  exact if_pos ⟨hlimit, hs⟩

/-- A whole number that fits has 96 bits itself. -/
theorem mk?_of_fits {n : ℤ} (h : Fits n) : mk? n 0 = some ⟨n, 0⟩ := by
  obtain ⟨m, s, hm, -, hn⟩ := h
  refine mk?_eq_some (lt_of_le_of_lt ?_ hm) (Nat.zero_le _)
  have hmul : n * 10 ^ s = m := by
    have hpow : (10 : ℚ) ^ s ≠ 0 := by positivity
    have hmul := (eq_div_iff hpow).mp hn
    exact_mod_cast hmul
  rw [← hmul, abs_mul]
  exact le_mul_of_one_le_right (abs_nonneg n) (Int.one_le_abs (by positivity))

theorem mk?_signed {M S : ℕ} (hM : M < limit) (hS : S ≤ maxScale) (negative : Bool) :
    ∃ d, mk? (if negative then -M else M) S = some d ∧
      d.value = if negative then -(M / 10 ^ S : ℚ) else M / 10 ^ S := by
  have habs : |(M : ℤ)| < 2 ^ 96 := by
    rw [Nat.abs_cast]
    exact_mod_cast limit_eq ▸ hM
  cases negative with
  | true => exact ⟨_, mk?_eq_some ((abs_neg _).trans_lt habs) hS, by simp [value, neg_div]⟩
  | false => exact ⟨_, mk?_eq_some habs hS, by simp [value]⟩

/-- A number without a sign that fits is not changed by rounding. -/
theorem Fits.roundsTo {x : ℚ} (h : Fits x) (hx : 0 ≤ x) : RoundsTo x x := by
  obtain ⟨m, s, hm, hs, rfl⟩ := h
  have hlimit : m.natAbs < limit := by
    rw [limit_eq]
    zify
    exact hm
  refine roundsTo_self hlimit hs ?_
  have hnonneg : (0 : ℚ) ≤ m := by
    have hmul := mul_nonneg hx (by positivity : (0 : ℚ) ≤ 10 ^ s)
    rwa [div_mul_cancel₀ _ (by positivity)] at hmul
  rw [Nat.cast_natAbs, Int.cast_abs, abs_of_nonneg hnonneg]

end Decimal

/-! ## Reading literals -/

namespace Literal

/-- The number that the digits denote with their point, without the exponent. -/
def digitsMagnitude (l : Literal) : ℚ :=
  l.coefficient / 10 ^ l.fraction.length

/-- No digit is rounded off before the exponent moves the point. -/
def RoundedOnce (l : Literal) : Prop :=
  l.exponent = none ∨ Decimal.Fits l.digitsMagnitude

/-- An exponent, if there is one, moves the point by at most 28 places, in digits that are a decimal
by themselves. -/
def Moderate (l : Literal) : Prop :=
  ∀ e ∈ l.exponent, e.size ≤ Decimal.maxScale ∧ Decimal.Fits l.digitsMagnitude

theorem Moderate.roundedOnce {l : Literal} (h : l.Moderate) : l.RoundedOnce := by
  rw [RoundedOnce]
  cases hexponent : l.exponent with
  | none => exact .inl rfl
  | some e => exact .inr (h e hexponent).2

theorem magnitude_eq (l : Literal) :
    l.magnitude = l.digitsMagnitude * 10 ^ l.exponent.elim 0 Exponent.value := by
  rw [magnitude, digitsMagnitude, power, zpow_sub₀ (by norm_num), zpow_natCast, mul_div_assoc',
    div_mul_eq_mul_div]

end Literal

namespace Decimal

variable {l m : Literal} {d e : Decimal}

theorem mantissaAt_div {mantissa scale places : ℕ} :
    mantissaAt (mantissa / 10 ^ (scale + (places + 1))) scale =
      dropPlaces mantissa (places + 1) := by
  have hquot : (mantissa : ℚ) / 10 ^ (scale + (places + 1)) * 10 ^ scale + 1 / 2 =
      (mantissa + 10 ^ (places + 1) / 2 : ℕ) / (10 ^ (places + 1) : ℕ) := by
    have heven : 2 ∣ 10 ^ (places + 1) := Dvd.dvd.pow (by decide) (Nat.succ_ne_zero _)
    rw [pow_add, Nat.cast_add, Nat.cast_div heven (by norm_num)]
    push_cast
    field_simp
  rw [mantissaAt, hquot, Nat.floor_div_eq_div, dropPlaces, Nat.pow_eq]

theorem dropPlaces_le (mantissa places : ℕ) : dropPlaces mantissa places ≤ mantissa := by
  rw [dropPlaces, Nat.pow_eq]
  have hpos : 0 < 10 ^ places := Nat.pow_pos (by decide)
  have hmul : mantissa * 1 ≤ mantissa * 10 ^ places := Nat.mul_le_mul_left mantissa hpos
  refine Nat.le_of_lt_succ (Nat.div_lt_of_lt_mul ?_)
  rw [Nat.mul_succ, Nat.mul_comm]
  omega

/-- An exponent moves the point in a mantissa that holds the number, or rounds it to the places that
there are. Only moving the point behind all digits can make the mantissa too large. -/
theorem shift_cases {M S M' S' : ℕ} {exponent : Exponent} (hM : M < limit) (hS : S ≤ maxScale)
    (h : shift M S exponent = some (M', S')) :
    M' < limit ∧ S' ≤ maxScale ∧ RoundsTo (M / 10 ^ S * 10 ^ exponent.value) (M' / 10 ^ S') ∨
      limit ≤ M' ∧ (M : ℚ) / 10 ^ S * 10 ^ exponent.value = M' := by
  obtain ⟨negative, size⟩ := exponent
  cases negative with
  | false =>
      have hvalue : (10 : ℚ) ^ Exponent.value ⟨false, size⟩ = 10 ^ size := zpow_natCast 10 size
      rw [hvalue, div_mul_eq_mul_div]
      simp only [shift, Bool.false_eq_true, not_false_eq_true, true_and, if_true] at h
      split_ifs at h with hle <;> cases h
      · have hscale : S - size ≤ maxScale := (Nat.sub_le _ _).trans hS
        have hquot : (M : ℚ) * 10 ^ size / 10 ^ S = M / 10 ^ (S - size) := by
          obtain ⟨k, rfl⟩ := Nat.exists_eq_add_of_le hle
          rw [Nat.add_sub_cancel_left, pow_add, mul_comm, mul_div_mul_left _ _ (by positivity)]
        rw [hquot]
        exact .inl ⟨hM, hscale, roundsTo_self hM hscale rfl⟩
      · have hquot : (M : ℚ) * 10 ^ size / 10 ^ S = (M * Nat.pow 10 (size - S) : ℕ) := by
          obtain ⟨k, rfl⟩ := Nat.exists_eq_add_of_le (not_le.mp hle).le
          rw [Nat.add_sub_cancel_left, Nat.pow_eq, pow_add]
          push_cast
          field_simp
        rw [hquot]
        rcases lt_or_ge (M * Nat.pow 10 (size - S)) limit with hlt | hge
        · rw [pow_zero, div_one]
          exact .inl ⟨hlt, Nat.zero_le _, roundsTo_self hlt (Nat.zero_le _) (by simp)⟩
        · exact .inr ⟨hge, rfl⟩
  | true =>
      have hvalue : (M : ℚ) / 10 ^ S * 10 ^ Exponent.value ⟨true, size⟩ = M / 10 ^ (S + size) := by
        have hpow : (10 : ℚ) ^ Exponent.value ⟨true, size⟩ = (10 ^ size)⁻¹ := by
          rw [← zpow_natCast, ← zpow_neg]
          rfl
        rw [hpow, pow_add, ← div_eq_mul_inv, div_div]
      rw [hvalue]
      simp only [shift, not_true_eq_false, false_and, if_false] at h
      split_ifs at h with hsize hplaces <;> cases h
      · exact .inl ⟨hM, hplaces, roundsTo_self hM hplaces rfl⟩
      · obtain ⟨k, hk⟩ := Nat.exists_eq_add_of_lt (not_le.mp hplaces)
        have hdrop : S + size - maxScale = k + 1 := by omega
        have hexponent : S + size = maxScale + (k + 1) := by omega
        rw [hdrop, hexponent, ← mantissaAt_div]
        have hroom : HasRoom (M / 10 ^ (maxScale + (k + 1)) : ℚ) maxScale := by
          rw [HasRoom, mantissaAt_div]
          exact ⟨le_rfl, (dropPlaces_le M _).trans_lt hM⟩
        exact .inl ⟨hroom.2, le_rfl, maxScale, ⟨hroom, fun p hp ↦ hp.1⟩, rfl⟩

theorem lt_maxScale_of_shift {M S : ℕ} {exponent : Exponent} (h : shift M S exponent = none) :
    maxScale < exponent.size := by
  rw [shift] at h
  split_ifs at h
  assumption

theorem mk?_signed_eq_none {M S : ℕ} (h : limit ≤ M) (negative : Bool) :
    mk? (if negative then -M else M) S = none := by
  refine if_neg fun hfits ↦ ?_
  cases negative <;> simp at hfits <;> omega

/-- A literal is read as the decimal to which its number rounds. One with a moderate exponent is only
refused if its number is too large. -/
theorem ofLiteral?_cases (hl : ∀ d ∈ l.fraction, d < 10) (honce : l.RoundedOnce) :
    (∃ d y, ofLiteral? l = some d ∧ RoundsTo l.magnitude y ∧
      d.value = if l.negative then -y else y) ∨
      ofLiteral? l = none ∧ (l.Moderate → ¬ HasRoom l.magnitude 0) := by
  have hdigits : 0 ≤ l.digitsMagnitude := by
    rw [Literal.digitsMagnitude]
    positivity
  have hreads : Reads l.digitsMagnitude (takeDigits l.whole l.fraction) := reads_takeDigits hl
  rw [ofLiteral?, l.magnitude_eq]
  cases htake : takeDigits l.whole l.fraction with
  | none =>
      rw [htake] at hreads
      obtain - | hroom := hreads
      have hexponent : l.exponent = none :=
        honce.resolve_right fun hfits ↦ hroom ((hfits.roundsTo hdigits).hasRoom hdigits)
      exact .inr ⟨rfl, fun _ ↦ by simpa [hexponent] using hroom⟩
  | some taken =>
      obtain ⟨M, S⟩ := taken
      rw [htake] at hreads
      obtain ⟨hM, hS, hround⟩ | - := hreads
      cases hexponent : l.exponent with
      | none =>
          obtain ⟨d, hd, hvalue⟩ := mk?_signed hM hS l.negative
          exact .inl ⟨d, _, hd, by simpa using hround, hvalue⟩
      | some e =>
          -- The digits in which the point is moved are all there.
          have hfits := honce.resolve_left (by simp [hexponent])
          rw [← hround.unique (hfits.roundsTo hdigits)]
          simp only [Option.bind_eq_bind, Option.bind_some, Option.elim_some]
          cases hshift : shift M S e with
          | none =>
              refine .inr ⟨rfl, fun hmoderate ↦ ?_⟩
              exact absurd (hmoderate e hexponent).1 (not_le.mpr (lt_maxScale_of_shift hshift))
          | some moved =>
              obtain ⟨M', S'⟩ := moved
              rcases shift_cases hM hS hshift with ⟨hM', hS', hmoved⟩ | ⟨hlarge, hmoved⟩
              · obtain ⟨d, hd, hvalue⟩ := mk?_signed hM' hS' l.negative
                exact .inl ⟨d, _, hd, hmoved, hvalue⟩
              · refine .inr ⟨mk?_signed_eq_none hlarge l.negative, fun _ hroom ↦ ?_⟩
                have hlt := hroom.2
                rw [hmoved, mantissaAt_of_eq (by simp : (M' : ℚ) * 10 ^ 0 = M')] at hlt
                omega

theorem exists_roundsTo (hl : ∀ d ∈ l.fraction, d < 10) (honce : l.RoundedOnce)
    (h : ofLiteral? l = some d) :
    ∃ y, RoundsTo l.magnitude y ∧ d.value = if l.negative then -y else y := by
  rcases ofLiteral?_cases hl honce with ⟨d', y, hd', hround, hvalue⟩ | ⟨hnone, -⟩
  · rw [h] at hd'
    cases hd'
    exact ⟨y, hround, hvalue⟩
  · rw [h] at hnone
    contradiction

theorem ofLiteral?_eq_none_iff (hl : ∀ d ∈ l.fraction, d < 10) (hmoderate : l.Moderate) :
    ofLiteral? l = none ↔ ¬ HasRoom l.magnitude 0 := by
  rcases ofLiteral?_cases hl hmoderate.roundedOnce with ⟨d, y, hd, hround, -⟩ | ⟨hnone, hroom⟩
  · exact iff_of_false (by simp [hd]) (not_not.mpr (hround.hasRoom l.magnitude_nonneg))
  · exact iff_of_true hnone (hroom hmoderate)

/-- Literals that are rounded once are read in the order of their numbers. -/
theorem value_mono (hl : ∀ d ∈ l.fraction, d < 10) (hm : ∀ d ∈ m.fraction, d < 10)
    (hlOnce : l.RoundedOnce) (hmOnce : m.RoundedOnce) (hd : ofLiteral? l = some d)
    (he : ofLiteral? m = some e) (h : l.value ≤ m.value) : d.value ≤ e.value := by
  obtain ⟨y, hy, hdy⟩ := exists_roundsTo hl hlOnce hd
  obtain ⟨z, hz, hez⟩ := exists_roundsTo hm hmOnce he
  have hynonneg := hy.nonneg
  have hznonneg := hz.nonneg
  have hlnonneg := l.magnitude_nonneg
  have hmnonneg := m.magnitude_nonneg
  rw [hdy, hez]
  rw [Literal.value, Literal.value] at h
  split_ifs at h ⊢ with hlneg hmneg hmneg
  · exact neg_le_neg (hz.mono hmnonneg hy (neg_le_neg_iff.mp h))
  · linarith
  -- Both numbers are zero.
  · have hlzero : l.magnitude = 0 := by linarith
    have hmzero : m.magnitude = 0 := by linarith
    rw [hlzero] at hy
    rw [hmzero] at hz
    rw [hy.eq_zero, hz.eq_zero, neg_zero]
  · exact hy.mono hlnonneg hz h

/-! ## Reading numerals -/

theorem Fits.magnitude (h : Fits l.value) : Fits l.magnitude := by
  rw [Literal.value] at h
  split at h
  · obtain ⟨m, s, hm, hs, hvalue⟩ := h
    refine ⟨-m, s, (abs_neg m).trans_lt hm, hs, ?_⟩
    rw [Int.cast_neg, neg_div, ← hvalue, neg_neg]
  · exact h

/-- A number that fits is read exactly from each of its literals without a large exponent. -/
theorem exists_ofLiteral?_of_fits (hl : ∀ d ∈ l.fraction, d < 10) (hmoderate : l.Moderate)
    (h : Fits l.value) : ∃ d, ofLiteral? l = some d ∧ d.value = l.value := by
  have hround := h.magnitude.roundsTo l.magnitude_nonneg
  rcases ofLiteral?_cases hl hmoderate.roundedOnce with ⟨d, y, hd, hy, hvalue⟩ | ⟨-, hroom⟩
  · exact ⟨d, hd, by rw [hvalue, hy.unique hround, Literal.value]⟩
  · exact absurd (hround.hasRoom l.magnitude_nonneg) (hroom hmoderate)

theorem Fits.isFinite {x : ℚ} (h : Fits x) : Binary64.IsFinite x := by
  obtain ⟨m, s, hm, -, rfl⟩ := h
  refine Binary64.isFinite_of_lt ?_
  have hten : (1 : ℚ) ≤ 10 ^ s := one_le_pow₀ (by norm_num)
  have hpos : (0 : ℚ) < 10 ^ s := by positivity
  calc |(m : ℚ) / 10 ^ s| = |(m : ℚ)| / 10 ^ s := by rw [abs_div, abs_of_pos hpos]
    _ ≤ |(m : ℚ)| := div_le_self (abs_nonneg _) hten
    _ < 2 ^ 96 := by exact_mod_cast hm
    _ ≤ 2 ^ 970 := pow_le_pow_right₀ (by norm_num) (by decide)

end Decimal

namespace Numeral

variable {n : Numeral}

theorem value_literal (n : Numeral) : n.literal.value = n.value := by
  have hpower : n.literal.power = -n.fraction.length := by
    simp [Literal.power, literal]
  have hsign : n.literal.negative = n.sign.isMinus := rfl
  rw [Literal.value, Literal.magnitude, n.coefficient_literal, hpower, hsign, value, zpow_neg,
    zpow_natCast, ← div_eq_mul_inv, mul_div_assoc]
  split <;> ring

theorem IsWrittenAs.isReadFrom {text : String} (h : n.IsWrittenAs text)
    (hfinite : Binary64.IsFinite n.value) : n.literal.IsReadFrom text := by
  refine ⟨?_, by rwa [value_literal]⟩
  rw [Literal.IsWrittenAs, h, n.read_written]

theorem moderate_literal (n : Numeral) : n.literal.Moderate := by
  simp [Literal.Moderate, literal]

theorem digit_lt_of_literal (n : Numeral) : ∀ d ∈ n.literal.fraction, d < 10 := by
  simp [literal]

end Numeral

end FieldRules
