import FieldRules.Number
import FieldRules.Proofs.Nearest
import Mathlib.Data.List.TakeWhile

/-!
# The numbers that literals denote

A text is read as a number if it is a literal, up to the white space around it, and the number that
it denotes is not too large for binary64. The approximation that is read is the binary64 number
nearest to the one denoted, so it depends on this number alone, and grows with it.
-/

namespace FieldRules

namespace Literal

/-- The number that a literal denotes, but for its sign. -/
def magnitude (l : Literal) : ℚ :=
  l.coefficient * 10 ^ l.power

/-- The number that a literal denotes. -/
def value (l : Literal) : ℚ :=
  if l.negative then -l.magnitude else l.magnitude

/-- The text is the literal, up to white space around it. -/
def IsWrittenAs (l : Literal) (text : String) : Prop :=
  Literal.read (Text.trim text.toList) = some l

instance (l : Literal) (text : String) : Decidable (l.IsWrittenAs text) :=
  inferInstanceAs (Decidable (_ = _))

variable {l : Literal} {text : String}

/-- The text is the literal, and the number that it denotes is not too large. -/
structure IsReadFrom (l : Literal) (text : String) : Prop where
  isWrittenAs : l.IsWrittenAs text
  isFinite : Binary64.IsFinite l.value

theorem isReadFrom_iff :
    l.IsReadFrom text ↔ l.IsWrittenAs text ∧ Binary64.IsFinite l.value :=
  ⟨fun h ↦ ⟨h.isWrittenAs, h.isFinite⟩, fun h ↦ ⟨h.1, h.2⟩⟩

theorem magnitude_nonneg (l : Literal) : 0 ≤ l.magnitude :=
  mul_nonneg (Nat.cast_nonneg _) (zpow_nonneg (by norm_num) _)

theorem abs_value (l : Literal) : |l.value| = l.magnitude := by
  rw [value]
  split
  · rw [abs_neg, abs_of_nonneg l.magnitude_nonneg]
  · exact abs_of_nonneg l.magnitude_nonneg

theorem nearest_value (l : Literal) :
    (Binary64.signed l.negative (Binary64.nearestAbs l.value)).units = Binary64.nearest l.value := by
  have hnonneg := l.magnitude_nonneg
  rw [Binary64.signed, Binary64.nearest]
  cases hnegative : l.negative with
  | false =>
      have hvalue : ¬ l.value < 0 := by
        simpa [value, hnegative] using hnonneg
      simp [hvalue]
  | true =>
      rcases hnonneg.eq_or_lt with hzero | hpos
      -- The sign of a zero is lost.
      · have hvalue : l.value = 0 := by simp [value, ← hzero]
        have hround : Binary64.nearestAbs 0 = 0 := Binary64.nearestAbs_eq_zero (by simp)
        simp [hvalue, hround]
      · have hvalue : l.value < 0 := by
          simpa [value, hnegative] using hpos
        simp [hvalue]

theorem digit_lt_of_takeDigits {cs : List Char} : ∀ d ∈ (takeDigits cs).1, d < 10 := by
  intro d hd
  obtain ⟨c, hc, rfl⟩ := List.mem_map.mp hd
  have hdigit := List.mem_takeWhile_imp hc
  simp only [Char.isDigit, Bool.and_eq_true, decide_eq_true_eq, UInt32.le_iff_toNat_le] at hdigit
  have hle : c.toNat ≤ 57 := hdigit.2
  have hzero : '0'.toNat = 48 := rfl
  omega

/-- The fraction is digits in front of a rest, or empty, as in front of no rest. -/
theorem exists_fraction_eq {cs : List Char} (h : read cs = some l) :
    ∃ rest, l.fraction = (takeDigits rest).1 := by
  simp only [read] at h
  split at h
  case' h_1 rest _ => refine ⟨rest, ?_⟩
  case' h_2 => refine ⟨[], ?_⟩
  all_goals
    split_ifs at h
    split at h
    · cases h
      rfl
    · split_ifs at h
      obtain ⟨e, -, rfl⟩ := Option.map_eq_some_iff.mp h
      rfl

theorem digit_lt_of_read {cs : List Char} (h : read cs = some l) : ∀ d ∈ l.fraction, d < 10 := by
  obtain ⟨rest, hrest⟩ := exists_fraction_eq h
  rw [hrest]
  exact digit_lt_of_takeDigits

end Literal

namespace Number

variable {text : String} {v : Number}

/-- What is read of a literal. -/
def ofLiteral (l : Literal) : Number :=
  ⟨⟨Binary64.nearest l.value⟩, Decimal.ofLiteral? l⟩

theorem ofText?_eq_some_iff :
    ofText? text = some v ↔ ∃ l : Literal, l.IsReadFrom text ∧ v = ofLiteral l := by
  simp only [Literal.isReadFrom_iff, and_assoc]
  rw [ofText?]
  cases hread : Literal.read (Text.trim text.toList) with
  | none =>
      refine iff_of_false (by simp) ?_
      rintro ⟨l, hl, -⟩
      rw [Literal.IsWrittenAs, hread] at hl
      contradiction
  | some l =>
      have hunits := Binary64.unitsOfDecimal?_eq l.abs_value
      have hunique : ∀ m : Literal, m.IsWrittenAs text ↔ m = l := by
        intro m
        rw [Literal.IsWrittenAs, hread, Option.some_inj, eq_comm]
      simp only [hunits, hunique, exists_eq_left, ← Binary64.nearestAbs_lt_limit_iff]
      split_ifs with hfinite
      · rw [Option.map_some, Option.some_inj, ofLiteral, ← l.nearest_value, eq_comm]
        exact (and_iff_right hfinite).symm
      · simp [hfinite]

end Number

theorem Literal.IsReadFrom.ofText?_eq {l : Literal} {text : String} (h : l.IsReadFrom text) :
    Number.ofText? text = some (.ofLiteral l) :=
  Number.ofText?_eq_some_iff.mpr ⟨l, h, rfl⟩

end FieldRules
