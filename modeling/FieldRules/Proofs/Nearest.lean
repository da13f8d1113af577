import FieldRules.Number.Binary64
import Mathlib.Algebra.Order.Field.Power
import Mathlib.Algebra.Order.Field.Rat
import Mathlib.Algebra.Order.Floor.Semifield
import Mathlib.Data.Nat.Log
import Mathlib.Data.Rat.Floor
import Mathlib.Tactic.FieldSimp
import Mathlib.Tactic.Linarith
import Mathlib.Tactic.Positivity
import Mathlib.Tactic.Ring

/-!
# Rounding to the nearest binary64 number

The rounded number depends on the rational value alone and grows with it, also where the distance of
the numbers doubles: the power of two there belongs to both grids, so no rounding passes it. Numbers
are finite below `2 ^ 1024 - 2 ^ 970`, which is half way between the largest one and the power of two
that follows it.
-/

namespace FieldRules.Binary64

variable {n num den a b c d k : ℕ}

/-! ## Quotients -/

theorem le_divNearest_iff_mul (hden : 0 < den) :
    n ≤ divNearest num den ↔
      2 * (n * den) < 2 * num + den ∨ 2 * (n * den) = 2 * num + den ∧ n % 2 = 0 := by
  have hnum := Nat.div_add_mod num den
  have hlt := Nat.mod_lt num hden
  rw [Nat.mul_comm] at hnum
  simp only [divNearest]
  generalize num / den = q at hnum ⊢
  generalize num % den = r at hnum hlt ⊢
  rcases Nat.lt_trichotomy n (q + 1) with hle | rfl | hgt
  · have hmul : n * den ≤ q * den := Nat.mul_le_mul_right den (Nat.le_of_lt_succ hle)
    split_ifs <;> omega
  · have hmul : (q + 1) * den = q * den + den := Nat.succ_mul q den
    split_ifs <;> omega
  · have hmul : (q + 2) * den ≤ n * den := Nat.mul_le_mul_right den hgt
    have hadd : (q + 2) * den = q * den + 2 * den := Nat.add_mul q 2 den
    split_ifs <;> omega

/-- A quotient is rounded up from half way between two integers on, or beyond it if the upper one is
odd. -/
theorem le_divNearest_iff (hden : 0 < den) :
    n ≤ divNearest num den ↔
      (n : ℚ) - 1 / 2 < num / den ∨ (n : ℚ) - 1 / 2 = num / den ∧ n % 2 = 0 := by
  have hpos : (0 : ℚ) < den := by exact_mod_cast hden
  have hlt : (n : ℚ) - 1 / 2 < num / den ↔ 2 * (n * den) < 2 * num + den := by
    rw [lt_div_iff₀ hpos, ← Nat.cast_lt (α := ℚ)]
    push_cast
    constructor <;> intro h <;> linarith
  have heq : (n : ℚ) - 1 / 2 = num / den ↔ 2 * (n * den) = 2 * num + den := by
    rw [eq_div_iff hpos.ne', ← Nat.cast_inj (R := ℚ)]
    push_cast
    constructor <;> intro h <;> linarith
  rw [le_divNearest_iff_mul hden, hlt, heq]

theorem divNearest_mono (hb : 0 < b) (hd : 0 < d) (h : (a : ℚ) / b ≤ c / d) :
    divNearest a b ≤ divNearest c d := by
  rw [le_divNearest_iff hd]
  rcases (le_divNearest_iff hb).mp le_rfl with hlt | ⟨heq, heven⟩
  · exact .inl (hlt.trans_le h)
  · exact (heq.trans_le h).lt_or_eq.imp_right fun heq ↦ ⟨heq, heven⟩

theorem le_divNearest (hden : 0 < den) (h : (n : ℚ) ≤ num / den) : n ≤ divNearest num den :=
  (le_divNearest_iff hden).mpr (.inl (by linarith))

theorem divNearest_le_of_le (hden : 0 < den) (h : (num : ℚ) / den ≤ n) : divNearest num den ≤ n := by
  by_contra hlt
  rcases (le_divNearest_iff hden).mp (not_le.mp hlt) with h' | ⟨h', -⟩ <;> push_cast at h' <;>
    linarith

/-- Half way below an even integer the quotient is rounded up to it. -/
theorem divNearest_lt_iff (hden : 0 < den) (heven : n % 2 = 0) :
    divNearest num den < n ↔ (num : ℚ) / den < n - 1 / 2 := by
  rw [← not_le, le_divNearest_iff hden, and_iff_left heven, ← le_iff_lt_or_eq, not_le]

/-! ## Units -/

-- The exponents are generalized here and below so that the powers are not worked out.
theorem one_eq : one = 2 ^ 1074 := by
  unfold one
  generalize 1074 = n
  exact Nat.pow_eq

theorem limit_eq : limit = 2 ^ (1024 + 1074) := by
  rw [limit, one_eq]
  generalize 1024 = m, 1074 = n
  rw [Nat.pow_eq, Nat.pow_add]

theorem limit_pos : 0 < limit := by
  rw [limit_eq]
  generalize 1024 + 1074 = n
  exact Nat.two_pow_pos n

/-- The number of units in a quotient. -/
def unitsIn (num den : ℕ) : ℚ :=
  num * one / den

/-- How far the numbers are apart whose leading bit is that of so many units. -/
def gap (units : ℕ) : ℕ :=
  2 ^ (units.log2 - 52)

theorem gap_pos (units : ℕ) : 0 < gap units :=
  Nat.two_pow_pos _

theorem gap_dvd_two_pow {units : ℕ} (h : units.log2 ≤ k) : gap units ∣ 2 ^ k :=
  pow_dvd_pow 2 ((Nat.sub_le _ _).trans h)

theorem floor_unitsIn (num den : ℕ) : ⌊unitsIn num den⌋₊ = num * one / den := by
  rw [unitsIn, ← Nat.cast_mul, Nat.floor_div_eq_div]

theorem unitsIn_nonneg (num den : ℕ) : 0 ≤ unitsIn num den := by
  rw [unitsIn]
  positivity

theorem unitsIn_le_unitsIn (h : (a : ℚ) / b ≤ c / d) : unitsIn a b ≤ unitsIn c d := by
  rw [unitsIn, unitsIn, mul_div_right_comm, mul_div_right_comm]
  exact mul_le_mul_of_nonneg_right h (Nat.cast_nonneg one)

theorem unitsIn_div (num den gap : ℕ) :
    ((num * one : ℕ) : ℚ) / (den * gap : ℕ) = unitsIn num den / gap := by
  rw [unitsIn, div_div]
  push_cast
  rfl

theorem roundUnits_eq (num den : ℕ) :
    roundUnits num den = divNearest (num * one) (den * gap ⌊unitsIn num den⌋₊) *
      gap ⌊unitsIn num den⌋₊ := by
  rw [floor_unitsIn]
  simp only [roundUnits, gap, Nat.pow_eq]

/-- What lies below a power of two is not rounded beyond it. -/
theorem roundUnits_le_two_pow (hden : 0 < den) (h : unitsIn num den < 2 ^ k) :
    roundUnits num den ≤ 2 ^ k := by
  have hfloor : ⌊unitsIn num den⌋₊.log2 ≤ k := by
    have hlt : ⌊unitsIn num den⌋₊ < 2 ^ k := by
      rw [Nat.floor_lt (unitsIn_nonneg num den)]
      exact_mod_cast h
    rcases Nat.eq_zero_or_pos ⌊unitsIn num den⌋₊ with hzero | hpos
    · simp [hzero]
    · exact ((Nat.log2_lt hpos.ne').mpr hlt).le
  obtain ⟨m, hm⟩ := gap_dvd_two_pow hfloor
  have hgap := gap_pos ⌊unitsIn num den⌋₊
  rw [roundUnits_eq, hm, Nat.mul_comm _ m]
  refine Nat.mul_le_mul_right _ (divNearest_le_of_le (Nat.mul_pos hden hgap) ?_)
  rw [unitsIn_div, div_le_iff₀ (by exact_mod_cast hgap)]
  calc unitsIn num den ≤ ((2 ^ k : ℕ) : ℚ) := by exact_mod_cast h.le
    _ = m * gap ⌊unitsIn num den⌋₊ := by rw [hm, Nat.cast_mul, mul_comm]

theorem two_pow_le_roundUnits (hden : 0 < den) (h : 2 ^ k ≤ unitsIn num den) :
    2 ^ k ≤ roundUnits num den := by
  have hfloor : 2 ^ k ≤ ⌊unitsIn num den⌋₊ := Nat.le_floor (by exact_mod_cast h)
  have hne : ⌊unitsIn num den⌋₊ ≠ 0 := (Nat.two_pow_pos k |>.trans_le hfloor).ne'
  -- The leading bit alone is on the grid.
  obtain ⟨m, hm⟩ := gap_dvd_two_pow (le_refl ⌊unitsIn num den⌋₊.log2)
  have hgap := gap_pos ⌊unitsIn num den⌋₊
  calc 2 ^ k ≤ 2 ^ ⌊unitsIn num den⌋₊.log2 :=
        Nat.pow_le_pow_right (by decide) ((Nat.le_log2 hne).mpr hfloor)
    _ = m * gap ⌊unitsIn num den⌋₊ := by rw [hm, Nat.mul_comm]
    _ ≤ roundUnits num den := by
        rw [roundUnits_eq]
        refine Nat.mul_le_mul_right _ (le_divNearest (Nat.mul_pos hden hgap) ?_)
        rw [unitsIn_div, le_div_iff₀ (by exact_mod_cast hgap)]
        calc (m : ℚ) * gap ⌊unitsIn num den⌋₊ = ((2 ^ ⌊unitsIn num den⌋₊.log2 : ℕ) : ℚ) := by
              rw [hm, Nat.cast_mul, mul_comm]
          _ ≤ ⌊unitsIn num den⌋₊ := by exact_mod_cast Nat.log2_self_le hne
          _ ≤ unitsIn num den := Nat.floor_le (unitsIn_nonneg num den)

theorem roundUnits_mono (hb : 0 < b) (hd : 0 < d) (h : (a : ℚ) / b ≤ c / d) :
    roundUnits a b ≤ roundUnits c d := by
  have hunits := unitsIn_le_unitsIn h
  have hlog : ⌊unitsIn a b⌋₊.log2 ≤ ⌊unitsIn c d⌋₊.log2 := by
    rw [Nat.log2_eq_log_two, Nat.log2_eq_log_two]
    exact Nat.log_mono_right (Nat.floor_le_floor hunits)
  rcases hlog.eq_or_lt with heq | hlt
  · have hgap : gap ⌊unitsIn a b⌋₊ = gap ⌊unitsIn c d⌋₊ := by rw [gap, gap, heq]
    have hpos := gap_pos ⌊unitsIn c d⌋₊
    rw [roundUnits_eq, roundUnits_eq, hgap]
    refine Nat.mul_le_mul_right _ (divNearest_mono (Nat.mul_pos hb hpos) (Nat.mul_pos hd hpos) ?_)
    rw [unitsIn_div, unitsIn_div]
    exact div_le_div_of_nonneg_right hunits (Nat.cast_nonneg _)
  -- The leading bit of the second number lies between the two, and on both grids.
  · have hne : ⌊unitsIn c d⌋₊ ≠ 0 := by
      intro hzero
      simp [hzero] at hlt
    have hbelow : unitsIn a b < 2 ^ ⌊unitsIn c d⌋₊.log2 := by
      have hfloor : ⌊unitsIn a b⌋₊ < 2 ^ ⌊unitsIn c d⌋₊.log2 :=
        Nat.lt_log2_self.trans_le (Nat.pow_le_pow_right (by decide) hlt)
      exact_mod_cast (Nat.floor_lt (unitsIn_nonneg a b)).mp hfloor
    have habove : 2 ^ ⌊unitsIn c d⌋₊.log2 ≤ unitsIn c d := by
      have hfloor := Nat.log2_self_le hne
      exact_mod_cast (Nat.le_floor_iff (unitsIn_nonneg c d)).mp hfloor
    exact (roundUnits_le_two_pow hb hbelow).trans (two_pow_le_roundUnits hd habove)

theorem roundUnits_eq_zero (hden : 0 < den) (h : unitsIn num den < 1 / 2) :
    roundUnits num den = 0 := by
  have hfloor : ⌊unitsIn num den⌋₊ = 0 := Nat.floor_eq_zero.mpr (by linarith)
  have hgap : gap 0 = 1 := by decide
  have hdiv : ¬ 1 ≤ divNearest (num * one) (den * 1) := by
    rw [le_divNearest_iff (by omega), unitsIn_div]
    push_cast
    rintro (hlt | ⟨-, hodd⟩)
    · linarith
    · omega
  rw [roundUnits_eq, hfloor, hgap, Nat.lt_one_iff.mp (not_le.mp hdiv)]

/-- The last number before a power of two is rounded to from less than half way. -/
theorem roundUnits_lt_two_pow_iff (hden : 0 < den) :
    roundUnits num den < 2 ^ (k + 54) ↔ unitsIn num den < 2 ^ (k + 54) - 2 ^ k := by
  have hpow : (2 : ℚ) ^ (k + 54) = 2 * 2 ^ (k + 53) := by ring
  have hsmall : (2 : ℚ) ^ k ≤ 2 ^ (k + 53) := pow_le_pow_right₀ (by norm_num) (by omega)
  rcases lt_or_ge (unitsIn num den) (2 ^ (k + 53)) with hlow | hhigh
  · have hround : roundUnits num den < 2 ^ (k + 54) :=
      (roundUnits_le_two_pow hden hlow).trans_lt (Nat.pow_lt_pow_right (by decide) (by omega))
    exact iff_of_true hround (by linarith)
  rcases le_or_gt ((2 : ℚ) ^ (k + 54)) (unitsIn num den) with hlimit | hbelow
  · have hpos : (0 : ℚ) < 2 ^ k := by positivity
    exact iff_of_false (two_pow_le_roundUnits hden hlimit).not_gt (by linarith)
  have hgap : gap ⌊unitsIn num den⌋₊ = 2 ^ (k + 1) := by
    have hfloor : 2 ^ (k + 53) ≤ ⌊unitsIn num den⌋₊ := Nat.le_floor (by exact_mod_cast hhigh)
    have hlt : ⌊unitsIn num den⌋₊ < 2 ^ (k + 54) := by
      rw [Nat.floor_lt (unitsIn_nonneg num den)]
      exact_mod_cast hbelow
    have hne : ⌊unitsIn num den⌋₊ ≠ 0 := ((Nat.two_pow_pos _).trans_le hfloor).ne'
    have hlog := (Nat.le_log2 hne).mpr hfloor
    have hlog' := (Nat.log2_lt hne).mpr hlt
    have hexponent : ⌊unitsIn num den⌋₊.log2 - 52 = k + 1 := by omega
    rw [gap, hexponent]
  have hsplit : (2 : ℕ) ^ (k + 54) = 2 ^ 53 * 2 ^ (k + 1) := by ring
  have heven : 2 ^ 53 % 2 = 0 := by norm_num
  generalize 2 ^ 53 = m at hsplit heven
  rw [roundUnits_eq, hgap, hsplit, Nat.mul_lt_mul_right (Nat.two_pow_pos _),
    divNearest_lt_iff (Nat.mul_pos hden (Nat.two_pow_pos _)) heven, unitsIn_div,
    div_lt_iff₀ (by positivity)]
  have hhalf : ((m : ℚ) - 1 / 2) * (2 ^ (k + 1) : ℕ) = 2 ^ (k + 54) - 2 ^ k := by
    have hcast : (2 : ℚ) ^ (k + 54) = m * 2 ^ (k + 1) := by exact_mod_cast hsplit
    rw [hcast]
    push_cast
    ring
  rw [hhalf]

/-! ## Rational numbers -/

/-- The units of the number nearest to a rational number, but for their sign. -/
def nearestAbs (x : ℚ) : ℕ :=
  roundUnits x.num.natAbs x.den

/-- The units of the number nearest to a rational number. -/
def nearest (x : ℚ) : ℤ :=
  if x < 0 then -nearestAbs x else nearestAbs x

/-- The number nearest to a rational number is not too large. -/
def IsFinite (x : ℚ) : Prop :=
  |x| < 2 ^ 1024 - 2 ^ 970

theorem natAbs_num_div_den (x : ℚ) : (x.num.natAbs : ℚ) / x.den = |x| := by
  rw [Rat.abs_def, Rat.divInt_eq_div, Int.cast_natCast, Int.cast_natCast]

theorem nearestAbs_eq (hden : 0 < den) {x : ℚ} (h : (num : ℚ) / den = |x|) :
    roundUnits num den = nearestAbs x := by
  have hquot := h.trans (natAbs_num_div_den x).symm
  exact le_antisymm (roundUnits_mono hden x.den_pos hquot.le)
    (roundUnits_mono x.den_pos hden hquot.ge)

theorem nearestAbs_mono {x y : ℚ} (h : |x| ≤ |y|) : nearestAbs x ≤ nearestAbs y := by
  refine roundUnits_mono x.den_pos y.den_pos ?_
  rwa [natAbs_num_div_den, natAbs_num_div_den]

theorem nearest_mono {x y : ℚ} (h : x ≤ y) : nearest x ≤ nearest y := by
  unfold nearest
  split_ifs with hx hy hy
  · have habs : |y| ≤ |x| := by
      rw [abs_of_neg hx, abs_of_neg hy]
      exact neg_le_neg h
    exact Int.neg_le_neg (by exact_mod_cast nearestAbs_mono habs)
  · omega
  · exact absurd (h.trans_lt hy) hx
  · have habs : |x| ≤ |y| := by
      rwa [abs_of_nonneg (not_lt.mp hx), abs_of_nonneg (not_lt.mp hy)]
    exact_mod_cast nearestAbs_mono habs

theorem unitsIn_eq (x : ℚ) : unitsIn x.num.natAbs x.den = |x| * 2 ^ 1074 := by
  rw [unitsIn, mul_div_right_comm, natAbs_num_div_den, one_eq]
  generalize 1074 = n
  push_cast
  rfl

theorem nearestAbs_lt_limit_iff {x : ℚ} : nearestAbs x < limit ↔ IsFinite x := by
  have hexponent : 1024 + 1074 = 970 + 1074 + 54 := by decide
  rw [nearestAbs, limit_eq, hexponent, roundUnits_lt_two_pow_iff x.den_pos, unitsIn_eq, IsFinite,
    ← hexponent]
  generalize 970 = i, 1024 = j, 1074 = n
  have hpos : (0 : ℚ) < 2 ^ n := by positivity
  rw [pow_add, pow_add, ← sub_mul, mul_lt_mul_iff_left₀ hpos]

theorem lt_two_pow_sub_two_pow {y : ℚ} {k : ℕ} (h : y < 2 ^ k) : y < 2 ^ (k + 54) - 2 ^ k := by
  have hpos : (0 : ℚ) < 2 ^ k := by positivity
  rw [pow_add]
  linarith

theorem isFinite_of_lt {x : ℚ} (h : |x| < 2 ^ 970) : IsFinite x := by
  have hexponent : 1024 = 970 + 54 := by decide
  rw [IsFinite, hexponent]
  exact lt_two_pow_sub_two_pow h

theorem isFinite_intCast {n : ℤ} (h : |n| < 2 ^ 65) : IsFinite n := by
  refine isFinite_of_lt ?_
  calc |(n : ℚ)| < 2 ^ 65 := by exact_mod_cast h
    _ ≤ 2 ^ 970 := pow_le_pow_right₀ (by norm_num) (by decide)

theorem natAbs_nearest (x : ℚ) : (nearest x).natAbs = nearestAbs x := by
  rw [nearest]
  generalize nearestAbs x = units
  split <;> omega

theorem units_ofInt (n : ℤ) : (ofInt n).units = nearest n := by
  have hround : roundUnits n.natAbs 1 = nearestAbs n :=
    nearestAbs_eq Nat.one_pos (by simp [Nat.cast_natAbs])
  simp [ofInt, signed, nearest, hround]

/-! ## Decimal numbers -/

theorem lt_ten_pow_digitCount (n : ℕ) : n < 10 ^ digitCount n :=
  (Nat.length_toDigits_le_iff (by decide) Nat.length_toDigits_pos).mp le_rfl

theorem ten_pow_le {n : ℕ} (hn : n ≠ 0) : 10 ^ (digitCount n - 1) ≤ n := by
  by_contra hlt
  rcases Nat.eq_zero_or_pos (digitCount n - 1) with hzero | hpos
  · simp [hzero, hn] at hlt
  · have hle : digitCount n ≤ digitCount n - 1 :=
      (Nat.length_toDigits_le_iff (by decide) hpos).mpr (not_le.mp hlt)
    omega

theorem two_pow_le_ten_pow {k : ℕ} (h : k ≤ 1200) : (2 : ℚ) ^ k ≤ 10 ^ 400 := by
  have hexponent : 1200 = 3 * 400 := by decide
  rw [hexponent] at h
  generalize 400 = n at h ⊢
  calc (2 : ℚ) ^ k ≤ 2 ^ (3 * n) := pow_le_pow_right₀ (by norm_num) h
    _ = 8 ^ n := by rw [pow_mul]; norm_num
    _ ≤ 10 ^ n := pow_le_pow_left₀ (by norm_num) (by norm_num) n

variable {coefficient : ℕ} {power : ℤ} {x : ℚ}

theorem nearestAbs_eq_zero (h : |x| * 10 ^ 400 < 1) : nearestAbs x = 0 := by
  refine roundUnits_eq_zero x.den_pos ?_
  have hpow : (2 : ℚ) ^ (1074 + 1) ≤ 10 ^ 400 := two_pow_le_ten_pow (by decide)
  rw [unitsIn_eq]
  generalize 400 = m at h hpow
  generalize 1074 = n at hpow ⊢
  have hmul : |x| * 2 ^ (n + 1) ≤ |x| * 10 ^ m := mul_le_mul_of_nonneg_left hpow (abs_nonneg x)
  rw [pow_succ] at hmul
  linarith

theorem limit_le_nearestAbs (h : 10 ^ 400 ≤ |x|) : ¬ nearestAbs x < limit := by
  rw [nearestAbs_lt_limit_iff, IsFinite, not_lt]
  have hpow : (2 : ℚ) ^ 1024 ≤ 10 ^ 400 := two_pow_le_ten_pow (by decide)
  generalize 400 = m at h hpow
  generalize 1024 = n at hpow ⊢
  generalize 970 = k
  have hpos : (0 : ℚ) < 2 ^ k := by positivity
  linarith

theorem mul_zpow_lt (coefficient : ℕ) (power : ℤ) :
    (coefficient : ℚ) * 10 ^ power < 10 ^ (digitCount coefficient + power) := by
  rw [zpow_add₀ (by norm_num), zpow_natCast]
  have hlt : (coefficient : ℚ) < 10 ^ digitCount coefficient := by
    exact_mod_cast lt_ten_pow_digitCount coefficient
  exact mul_lt_mul_of_pos_right hlt (by positivity)

theorem zpow_le_mul_zpow (h : coefficient ≠ 0) (power : ℤ) :
    (10 : ℚ) ^ (digitCount coefficient + power - 1) ≤ coefficient * 10 ^ power := by
  have hcount : 0 < digitCount coefficient := Nat.length_toDigits_pos
  have hsplit : digitCount coefficient + power - 1 = (digitCount coefficient - 1 : ℕ) + power := by
    omega
  rw [hsplit, zpow_add₀ (by norm_num), zpow_natCast]
  have hle : (10 : ℚ) ^ (digitCount coefficient - 1) ≤ coefficient := by
    exact_mod_cast ten_pow_le h
  exact mul_le_mul_of_nonneg_right hle (by positivity)

/-- What is read of a decimal number depends on the number alone: where its order is too large or too
small for the number to be worked out, it is known without that. -/
theorem unitsOfDecimal?_eq (hx : |x| = coefficient * 10 ^ power) :
    unitsOfDecimal? coefficient power =
      if nearestAbs x < limit then some (nearestAbs x) else none := by
  simp only [unitsOfDecimal?]
  by_cases hsmall : coefficient = 0 ∨ digitCount coefficient + power < -400
  · have hlt : |x| * 10 ^ 400 < 1 := by
      rw [hx]
      rcases hsmall with rfl | horder
      · simp
      · calc (coefficient : ℚ) * 10 ^ power * 10 ^ 400
            < 10 ^ (digitCount coefficient + power) * 10 ^ 400 :=
              mul_lt_mul_of_pos_right (mul_zpow_lt coefficient power) (by positivity)
          _ = 10 ^ (digitCount coefficient + power + 400) := by
              rw [zpow_add₀ (by norm_num) _ 400]
              rfl
          _ ≤ 1 := zpow_le_one_of_nonpos₀ (by norm_num) (by omega)
    rw [if_pos hsmall, nearestAbs_eq_zero hlt, if_pos limit_pos]
  rw [if_neg hsmall]
  rw [not_or] at hsmall
  by_cases hlarge : 400 < digitCount coefficient + power
  · have hle : 10 ^ 400 ≤ |x| := by
      rw [hx]
      refine le_trans ?_ (zpow_le_mul_zpow hsmall.1 power)
      rw [← zpow_natCast]
      exact zpow_le_zpow_right₀ (by norm_num) (by omega)
    rw [if_pos hlarge, if_neg (limit_le_nearestAbs hle)]
  · rw [if_neg hlarge]
    cases power with
    | ofNat p =>
        have hround : roundUnits (coefficient * Nat.pow 10 p) 1 = nearestAbs x := by
          refine nearestAbs_eq Nat.one_pos ?_
          rw [hx, Nat.pow_eq]
          simp
        simp only [hround]
    | negSucc p =>
        have hround : roundUnits coefficient (Nat.pow 10 (p + 1)) = nearestAbs x := by
          refine nearestAbs_eq (Nat.pow_pos (by decide)) ?_
          rw [hx, zpow_negSucc, ← div_eq_mul_inv]
          push_cast
          rfl
        simp only [hround]

end FieldRules.Binary64
