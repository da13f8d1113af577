import FieldRules.Number.Decimal
import FieldRules.Proofs.Numerals
import Mathlib.Algebra.Order.Field.Rat
import Mathlib.Algebra.Order.Floor.Semifield
import Mathlib.Data.Nat.SuccPred
import Mathlib.Data.Rat.Floor
import Mathlib.Order.SuccPred.Archimedean
import Mathlib.Tactic.FieldSimp
import Mathlib.Tactic.Linarith
import Mathlib.Tactic.Positivity

/-!
# Rounding to decimals of 96 bits

A number is kept with as many places as possible: the greatest number of them, at most 28, with which
its mantissa, a half rounded upwards, has 96 bits. A number that needs no more places is not changed.
Larger numbers are never rounded to smaller ones, although they can be kept with fewer places.
-/

namespace FieldRules.Decimal

variable {x y x' y' : ℚ} {p q : ℕ}

/-- The mantissa of a number with so many places, a half rounded upwards. -/
def mantissaAt (x : ℚ) (places : ℕ) : ℕ :=
  ⌊x * 10 ^ places + 1 / 2⌋₊

/-- With so many places, the number has a mantissa of 96 bits. -/
def HasRoom (x : ℚ) (places : ℕ) : Prop :=
  places ≤ maxScale ∧ mantissaAt x places < limit

/-- `y` is the number `x`, rounded to the greatest number of places for which there is room. -/
def RoundsTo (x y : ℚ) : Prop :=
  ∃ places, IsGreatest {p | HasRoom x p} places ∧ y = mantissaAt x places / 10 ^ places

theorem mantissaAt_mono (h : x ≤ x') (places : ℕ) : mantissaAt x places ≤ mantissaAt x' places := by
  refine Nat.floor_le_floor ?_
  have hmul := mul_le_mul_of_nonneg_right h (by positivity : (0 : ℚ) ≤ 10 ^ places)
  linarith

theorem mantissaAt_le_of_le (hx : 0 ≤ x) (h : p ≤ q) : mantissaAt x p ≤ mantissaAt x q := by
  refine Nat.floor_le_floor ?_
  have hpow : (10 : ℚ) ^ p ≤ 10 ^ q := pow_le_pow_right₀ (by norm_num) h
  have hmul := mul_le_mul_of_nonneg_left hpow hx
  linarith

theorem mantissaAt_of_eq {m : ℕ} (h : x * 10 ^ p = m) : mantissaAt x p = m := by
  rw [mantissaAt, h]
  refine (Nat.floor_eq_iff (by positivity)).mpr ⟨?_, ?_⟩ <;> linarith

theorem mantissaAt_lt_iff (hx : 0 ≤ x) {n : ℕ} : mantissaAt x p < n ↔ x * 10 ^ p + 1 / 2 < n :=
  Nat.floor_lt (by positivity)

theorem HasRoom.of_le (hx : 0 ≤ x) (h : HasRoom x q) (hle : p ≤ q) : HasRoom x p :=
  ⟨hle.trans h.1, (mantissaAt_le_of_le hx hle).trans_lt h.2⟩

theorem RoundsTo.hasRoom (hx : 0 ≤ x) (h : RoundsTo x y) : HasRoom x 0 := by
  obtain ⟨places, ⟨hroom, -⟩, -⟩ := h
  exact hroom.of_le hx (Nat.zero_le places)

theorem exists_isGreatest (h : HasRoom x p) : ∃ q, IsGreatest {p | HasRoom x p} q :=
  BddAbove.exists_isGreatest_of_nonempty ⟨maxScale, fun _ hq ↦ hq.1⟩ ⟨p, h⟩

/-- A number that is a decimal already is not changed. -/
theorem roundsTo_self {m s : ℕ} (hm : m < limit) (hs : s ≤ maxScale) (hx : x = m / 10 ^ s) :
    RoundsTo x x := by
  have hexact : ∀ j, x * 10 ^ (s + j) = (m * 10 ^ j : ℕ) := by
    intro j
    rw [hx, pow_add]
    push_cast
    field_simp
  have hroom : HasRoom x s := by
    refine ⟨hs, ?_⟩
    have hmantissa := mantissaAt_of_eq (hexact 0)
    simpa using hmantissa.trans_lt (by simpa using hm)
  obtain ⟨q, hq⟩ := exists_isGreatest hroom
  obtain ⟨j, rfl⟩ := Nat.exists_eq_add_of_le (hq.2 hroom)
  refine ⟨s + j, hq, ?_⟩
  rw [mantissaAt_of_eq (hexact j), ← hexact j]
  field_simp

theorem RoundsTo.unique (h : RoundsTo x y) (h' : RoundsTo x y') : y = y' := by
  obtain ⟨p, hp, rfl⟩ := h
  obtain ⟨q, hq, rfl⟩ := h'
  rw [hp.unique hq]

theorem RoundsTo.eq_zero (h : RoundsTo 0 y) : y = 0 := by
  have hzero : (0 : ℚ) = (0 : ℕ) / 10 ^ 0 := by simp
  exact h.unique (roundsTo_self (by decide) (Nat.zero_le _) hzero)

theorem RoundsTo.nonneg (h : RoundsTo x y) : 0 ≤ y := by
  obtain ⟨p, -, rfl⟩ := h
  positivity

theorem limit_mod_ten : (limit : ℚ) = 10 * 7922816251426433759354395033 + 6 := by
  have hlimit : limit = 10 * 7922816251426433759354395033 + 6 := by decide
  exact_mod_cast hlimit

/-- Where there is room for fewer places, a number that is no smaller has lost no more than its last
place was worth, and has been rounded upwards for it. -/
theorem RoundsTo.mono (hx : 0 ≤ x) (h : RoundsTo x y) (h' : RoundsTo x' y') (hle : x ≤ x') :
    y ≤ y' := by
  obtain ⟨p, ⟨hroom, hmax⟩, rfl⟩ := h
  obtain ⟨q, ⟨hroom', hmax'⟩, rfl⟩ := h'
  have hqp : q ≤ p := hmax ⟨hroom'.1, (mantissaAt_mono hle q).trans_lt hroom'.2⟩
  rcases hqp.eq_or_lt with rfl | hlt
  · have hmantissa : (mantissaAt x q : ℚ) ≤ mantissaAt x' q := by
      exact_mod_cast mantissaAt_mono hle q
    exact div_le_div_of_nonneg_right hmantissa (by positivity)
  -- At one place more than `q` there is room for `x` and none for `x'`.
  · have hbelow : x * 10 ^ (q + 1) + 1 / 2 < limit :=
      (mantissaAt_lt_iff hx).mp (hroom.of_le hx hlt).2
    have habove : (limit : ℚ) ≤ x' * 10 ^ (q + 1) + 1 / 2 := by
      by_contra hno
      have hfits : HasRoom x' (q + 1) :=
        ⟨(Nat.succ_le_of_lt hlt).trans hroom.1, (mantissaAt_lt_iff (hx.trans hle)).mpr (not_le.mp hno)⟩
      exact absurd (hmax' hfits) (by omega)
    have hpos : (0 : ℚ) < 10 ^ (q + 1) := by positivity
    calc (mantissaAt x p : ℚ) / 10 ^ p
        ≤ x + 1 / 2 / 10 ^ p := by
          rw [div_le_iff₀ (by positivity), add_mul, div_mul_cancel₀ _ (by positivity)]
          exact Nat.floor_le (by positivity)
      _ ≤ x + 1 / 2 / 10 ^ (q + 1) := by
          have hpow : (10 : ℚ) ^ (q + 1) ≤ 10 ^ p := pow_le_pow_right₀ (by norm_num) hlt
          gcongr
      _ ≤ limit / 10 ^ (q + 1) := by
          rw [le_div_iff₀ hpos, add_mul, div_mul_cancel₀ _ hpos.ne']
          exact hbelow.le
      _ ≤ mantissaAt x' q / 10 ^ q := by
          have hmantissa : 7922816251426433759354395034 ≤ mantissaAt x' q := by
            refine Nat.le_floor ?_
            rw [limit_mod_ten, pow_succ] at habove
            push_cast
            linarith
          have hcast : (7922816251426433759354395034 : ℚ) ≤ mantissaAt x' q := by
            exact_mod_cast hmantissa
          rw [div_le_div_iff₀ hpos (by positivity), limit_mod_ten, pow_succ]
          have hmul := mul_le_mul_of_nonneg_right hcast (by positivity : (0 : ℚ) ≤ 10 ^ q)
          linarith [hmul, (by positivity : (0 : ℚ) < 10 ^ q)]

/-! ## Reading digits -/

/-- What comes of reading a number: its rounded value, or nothing if there is no room even for its
digits before the point. -/
inductive Reads (x : ℚ) : Option (ℕ × ℕ) → Prop
  | rounded {mantissa scale : ℕ} (hmantissa : mantissa < limit) (hscale : scale ≤ maxScale)
      (h : RoundsTo x (mantissa / 10 ^ scale)) : Reads x (some (mantissa, scale))
  | tooLarge (h : ¬ HasRoom x 0) : Reads x none

/-- Of the number `x`, the mantissa holds all but the digits that are not read yet. -/
structure Pending (x : ℚ) (mantissa scale : ℕ) (digits : List ℕ) : Prop where
  digit_lt : ∀ d ∈ digits, d < 10
  eq : x * 10 ^ scale = mantissa + digitsValue digits / 10 ^ digits.length

variable {mantissa scale d : ℕ} {digits : List ℕ}

theorem Pending.next (h : Pending x mantissa scale (d :: digits)) :
    Pending x (10 * mantissa + d) (scale + 1) digits where
  digit_lt := fun e he ↦ h.digit_lt e (List.mem_cons_of_mem d he)
  eq := by
    have heq := h.eq
    rw [digitsValue_cons, List.length_cons, pow_succ] at heq
    rw [pow_succ, ← mul_assoc, heq]
    push_cast
    field_simp
    ring

theorem Pending.behind_lt_one (h : Pending x mantissa scale digits) :
    (digitsValue digits : ℚ) / 10 ^ digits.length < 1 := by
  rw [div_lt_one (by positivity)]
  exact_mod_cast digitsValue_lt h.digit_lt

theorem Pending.nonneg (h : Pending x mantissa scale digits) : 0 ≤ x := by
  have hmul : 0 ≤ x * 10 ^ scale := by
    rw [h.eq]
    positivity
  exact nonneg_of_mul_nonneg_left hmul (by positivity)

theorem Pending.mantissaAt_eq (h : Pending x mantissa scale (d :: digits)) :
    mantissaAt x scale = if d < 5 then mantissa else mantissa + 1 := by
  have hd : d < 10 := h.digit_lt d List.mem_cons_self
  have hbehind := h.next.behind_lt_one
  have hnonneg : (0 : ℚ) ≤ digitsValue digits / 10 ^ digits.length := by positivity
  have heq := h.next.eq
  rw [pow_succ] at heq
  push_cast at heq
  rw [mantissaAt, Nat.floor_eq_iff (by have := h.nonneg; positivity)]
  split_ifs with hdigit
  · have hcast : (d : ℚ) ≤ 4 := by exact_mod_cast Nat.le_of_lt_succ hdigit
    have hzero : (0 : ℚ) ≤ d := Nat.cast_nonneg d
    constructor <;> linarith
  · have hcast : (5 : ℚ) ≤ d := by exact_mod_cast not_lt.mp hdigit
    have hnine : (d : ℚ) ≤ 9 := by exact_mod_cast Nat.le_of_lt_succ hd
    push_cast
    constructor <;> linarith

/-- Without room for the next digit, there is none for more places either. -/
theorem Pending.le_scale (h : Pending x mantissa scale (d :: digits))
    (hfull : ¬ (scale < maxScale ∧ 10 * mantissa + d < limit)) (hroom : HasRoom x p) :
    p ≤ scale := by
  by_contra hlt
  have hnext : HasRoom x (scale + 1) := hroom.of_le h.nonneg (not_le.mp hlt)
  refine hfull ⟨hnext.1, lt_of_le_of_lt (Nat.le_floor ?_) hnext.2⟩
  have hnonneg : (0 : ℚ) ≤ digitsValue digits / 10 ^ digits.length := by positivity
  rw [h.next.eq]
  linarith

theorem Pending.roundsTo (h : Pending x mantissa scale (d :: digits))
    (hfull : ¬ (scale < maxScale ∧ 10 * mantissa + d < limit)) (hroom : HasRoom x scale) :
    RoundsTo x (mantissaAt x scale / 10 ^ scale) :=
  ⟨scale, ⟨hroom, fun _ hp ↦ h.le_scale hfull hp⟩, rfl⟩

/-- Where rounding makes the mantissa too large, one place is given up, and the number is rounded as
it is at the place before. -/
theorem mantissaAt_of_succ_eq_limit (h : mantissaAt x (p + 1) = limit) :
    mantissaAt x p = dropPlaces limit 1 := by
  have hdrop : dropPlaces limit 1 = 7922816251426433759354395034 := by decide
  have hne : mantissaAt x (p + 1) ≠ 0 := by
    rw [h]
    decide
  obtain ⟨hle, hlt⟩ := (Nat.floor_eq_iff' hne).mp rfl
  rw [h, limit_mod_ten, pow_succ] at hle
  rw [h, limit_mod_ten, pow_succ] at hlt
  rw [hdrop, mantissaAt, Nat.floor_eq_iff' (by decide)]
  push_cast
  constructor <;> linarith

theorem reads_roundAt (h : Pending x mantissa scale (d :: digits)) (hmantissa : mantissa < limit)
    (hscale : scale ≤ maxScale) (hfull : ¬ (scale < maxScale ∧ 10 * mantissa + d < limit)) :
    Reads x (roundAt mantissa scale d) := by
  have hround := h.mantissaAt_eq
  rw [roundAt]
  split_ifs with hdigit hlimit hzero
  · rw [if_pos hdigit] at hround
    exact .rounded hmantissa hscale (hround ▸ h.roundsTo hfull ⟨hscale, hround ▸ hmantissa⟩)
  · rw [if_neg hdigit] at hround
    have hroom := h.roundsTo hfull ⟨hscale, hround ▸ hlimit⟩
    rw [hround] at hroom
    exact .rounded hlimit hscale hroom
  · rw [if_neg hdigit] at hround
    refine .tooLarge fun hroom ↦ hlimit ?_
    rw [← hround, hzero]
    exact hroom.2
  · rw [if_neg hdigit] at hround
    obtain ⟨s, rfl⟩ := Nat.exists_eq_succ_of_ne_zero hzero
    have heq : mantissa + 1 = limit := by omega
    have hdrop := mantissaAt_of_succ_eq_limit (hround.trans heq)
    have hlt : dropPlaces limit 1 < limit := by decide
    have hroom : HasRoom x s := ⟨(Nat.le_succ s).trans hscale, hdrop ▸ hlt⟩
    rw [heq, Nat.succ_sub_one]
    refine .rounded hlt hroom.1 ⟨s, ⟨hroom, fun p hp ↦ ?_⟩, by rw [hdrop]⟩
    -- With all the places the mantissa is too large.
    refine Nat.le_of_lt_succ ((h.le_scale hfull hp).lt_of_ne ?_)
    rintro rfl
    exact hlimit (hround ▸ hp.2)

theorem reads_takeFraction (h : Pending x mantissa scale digits) (hmantissa : mantissa < limit)
    (hscale : scale ≤ maxScale) : Reads x (takeFraction mantissa scale digits) := by
  induction digits generalizing mantissa scale with
  | nil =>
      have hx : x = mantissa / 10 ^ scale := by
        rw [eq_div_iff (by positivity), h.eq]
        simp [digitsValue]
      exact .rounded hmantissa hscale (hx ▸ roundsTo_self hmantissa hscale hx)
  | cons d digits ih =>
      by_cases hroom : scale < maxScale ∧ 10 * mantissa + d < limit
      · rw [takeFraction, if_pos hroom]
        exact ih h.next hroom.2 hroom.1
      · rw [takeFraction, if_neg hroom]
        exact reads_roundAt h hmantissa hscale hroom

theorem reads_takeDigits {whole fraction : List ℕ} (hdigits : ∀ d ∈ fraction, d < 10) :
    Reads (digitsValue (whole ++ fraction) / 10 ^ fraction.length) (takeDigits whole fraction) := by
  set x : ℚ := digitsValue (whole ++ fraction) / 10 ^ fraction.length with hx
  have hpending : Pending x (digitsValue whole) 0 fraction := by
    refine ⟨hdigits, ?_⟩
    rw [hx, digitsValue_append, pow_zero, mul_one]
    push_cast
    field_simp
  rw [takeDigits]
  split_ifs with hwhole
  · exact reads_takeFraction hpending hwhole (Nat.zero_le _)
  · refine .tooLarge fun hroom ↦ hwhole (lt_of_le_of_lt (Nat.le_floor ?_) hroom.2)
    have hnonneg : (0 : ℚ) ≤ digitsValue fraction / 10 ^ fraction.length := by positivity
    rw [hpending.eq]
    linarith

end FieldRules.Decimal
