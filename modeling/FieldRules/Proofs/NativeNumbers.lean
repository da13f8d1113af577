import FieldRules.Proofs.ShortestDigits
import FieldRules.Proofs.Spellings
import FieldRules.Proofs.Trimming
import FieldRules.Value

/-!
# Native numbers and their texts

The text of a number is a numeral of it: of an integer, or of the shortest decimal of a float, whose
digits it puts where the point is. What is read from the text is then what the number is known as
itself, so no bound tells the two apart, however the bound is compared.
-/

namespace FieldRules

/-! ## Numerals of decimals -/

/-- The sign that a number is written with. -/
def Sign.ofNegative (negative : Bool) : Sign :=
  if negative then .minus else .absent

@[simp] theorem Sign.isMinus_ofNegative (negative : Bool) :
    (ofNegative negative).isMinus = negative := by
  cases negative <;> rfl

namespace Numeral

theorem exists_digits (n : ℕ) :
    ∃ digits : List (Fin 10), digits.map digit = Nat.toDigits 10 n ∧
      digitsValue (digits.map Fin.val) = n := by
  induction n using Nat.strongRecOn with
  | ind n ih =>
      rw [Nat.toDigits_eq_if (by decide)]
      split
      case isTrue hlt => exact ⟨[⟨n, hlt⟩], rfl, by simp [digitsValue]⟩
      case isFalse hge =>
        obtain ⟨digits, hwritten, hvalue⟩ := ih (n / 10) (by omega)
        refine ⟨digits ++ [⟨n % 10, Nat.mod_lt n (by decide)⟩], ?_, ?_⟩
        · simp [hwritten, digit]
        · rw [List.map_append, digitsValue_append, hvalue]
          simp [digitsValue]
          omega

/-- The numeral has the digits of the decimal, with as many behind the point as the power says. -/
structure IsOf (n : Numeral) (sign : Sign) (s : Scientific) : Prop where
  sign_eq : n.sign = sign
  coefficient_eq : n.coefficient = s.coefficient * 10 ^ s.power.toNat
  places_eq : n.fraction.length = (-s.power).toNat

theorem IsOf.value_eq {n : Numeral} {sign : Sign} {s : Scientific} (h : n.IsOf sign s) :
    n.value = (if sign.isMinus then -1 else 1) * s.value := by
  have hpower : (10 : ℚ) ^ s.power = 10 ^ s.power.toNat / 10 ^ (-s.power).toNat := by
    rw [← zpow_natCast, ← zpow_natCast, ← zpow_sub₀ (by norm_num)]
    congr 1
    omega
  rw [value, h.sign_eq, h.coefficient_eq, h.places_eq, Scientific.value, hpower]
  push_cast
  ring

theorem IsOf.negative_literal {n : Numeral} {negative : Bool} {s : Scientific}
    (h : n.IsOf (.ofNegative negative) s) : n.literal.negative = negative := by
  rw [literal, h.sign_eq, Sign.isMinus_ofNegative]

/-- The point is behind the digits and zeros after them, among the digits, or in front of zeros and
the digits after them. -/
theorem exists_isOf (sign : Sign) (s : Scientific) :
    ∃ n : Numeral, n.IsOf sign s ∧ n.written = sign.written ++ s.positional.toList := by
  obtain ⟨coefficient, power⟩ := s
  obtain ⟨digits, hwritten, hvalue⟩ := exists_digits coefficient
  have hne : digits ≠ [] := by
    rintro rfl
    exact Nat.toDigits_ne_nil hwritten.symm
  have hpos := List.length_pos_iff.mpr hne
  have hzero : digit 0 = '0' := rfl
  cases power with
  | ofNat zeros =>
      refine ⟨⟨sign, digits ++ List.replicate zeros 0, [], by simp [hne]⟩, ⟨rfl, ?_, ?_⟩, ?_⟩
      · simp [coefficient_eq_digitsValue, digitsValue_append, digitsValue_zeros, hvalue]
      · simp
      · simp [written, Scientific.positional, Scientific.digits, hwritten, hzero]
  | negSucc p =>
      by_cases hplaces : p + 1 < digits.length
      · refine ⟨⟨sign, digits.take (digits.length - (p + 1)), digits.drop (digits.length - (p + 1)),
          ?_⟩, ⟨rfl, ?_, ?_⟩, ?_⟩
        · simp [hne]
          omega
        · simp [coefficient_eq_digitsValue, hvalue]
        · simp
          omega
        · simp [written, Scientific.positional, Scientific.digits, hplaces, ← hwritten]
          omega
      · refine ⟨⟨sign, [0], List.replicate (p + 1 - digits.length) 0 ++ digits, by simp⟩,
          ⟨rfl, ?_, ?_⟩, ?_⟩
        · simp [coefficient_eq_digitsValue, digitsValue_cons, digitsValue_append, digitsValue_zeros,
            hvalue]
        · simp
          omega
        · simp [written, Scientific.positional, Scientific.digits, hplaces, ← hwritten, hzero,
            hne]

/-! ## Numerals as texts -/

theorem not_isBlank_digit : ∀ d : Fin 10, ¬ Text.isBlank (digit d) := by
  decide

theorem trim_written (n : Numeral) : Text.trim n.written = n.written := by
  have hsign : ∀ c ∈ n.sign.written, ¬ Text.isBlank c := by
    cases n.sign <;> simp [Sign.written, Text.isBlank]
  have hdigits : ∀ digits : List (Fin 10), ∀ c ∈ digits.map digit, ¬ Text.isBlank c := by
    simpa using fun _ d _ ↦ not_isBlank_digit d
  have hpoint : ¬ Text.isBlank '.' := by decide
  apply Text.trim_eq_self
  rw [written, List.forall_mem_append, List.forall_mem_append]
  refine ⟨⟨hsign, hdigits _⟩, ?_⟩
  split_ifs
  · simp
  · exact List.forall_mem_cons.mpr ⟨hpoint, hdigits _⟩

theorem isWrittenAs_of_toList_eq {n : Numeral} {text : String} (h : text.toList = n.written) :
    n.IsWrittenAs text := by
  rw [IsWrittenAs, h, trim_written]

end Numeral

/-! ## Integers -/

/-- A literal without a point or an exponent is not rounded, and too large a one is no decimal. -/
theorem Decimal.ofLiteral?_of_whole {l : Literal} (hfraction : l.fraction = [])
    (hexponent : l.exponent = none) :
    ofLiteral? l = mk? (if l.negative then -l.coefficient else l.coefficient) 0 := by
  have hwhole : l.coefficient = digitsValue l.whole := by
    rw [Literal.coefficient, hfraction, List.append_nil]
  have hnatAbs : (if l.negative then -(l.coefficient : ℤ) else l.coefficient).natAbs =
      l.coefficient := by
    split <;> simp
  rw [ofLiteral?, hfraction, hexponent, takeDigits, ← hwhole]
  by_cases hlt : l.coefficient < limit
  · simp [hlt, takeFraction]
  · simp [hlt, mk?, hnatAbs]

theorem toList_toString (n : ℤ) :
    (toString n).toList =
      (Sign.ofNegative (n < 0)).written ++ (Scientific.mk n.natAbs 0).positional.toList := by
  have hpositional : ∀ m : ℕ, (Scientific.mk m 0).positional.toList = Nat.toDigits 10 m := by
    intro m
    simp [Scientific.positional, Scientific.digits]
  rw [hpositional]
  cases n with
  | ofNat m =>
      have htext : toString (Int.ofNat m) = m.repr := rfl
      have hsign : ¬ Int.ofNat m < 0 := not_lt.mpr (Int.natCast_nonneg m)
      rw [htext, decide_eq_false hsign]
      simp [Sign.ofNegative, Sign.written]
  | negSucc m =>
      have htext : toString (Int.negSucc m) = "-" ++ (m + 1).repr := rfl
      rw [htext, decide_eq_true (Int.negSucc_lt_zero m)]
      simp [Sign.ofNegative, Sign.written]

theorem sign_mul_natAbs (n : ℤ) :
    (if (Sign.ofNegative (n < 0)).isMinus then -1 else 1) * (n.natAbs : ℚ) = n := by
  have habs : (n.natAbs : ℚ) = |(n : ℚ)| := by
    rw [Nat.cast_natAbs, Int.cast_abs]
  rw [Sign.isMinus_ofNegative, habs]
  by_cases hneg : n < 0
  · rw [decide_eq_true hneg, if_pos rfl, abs_of_neg (by exact_mod_cast hneg)]
    ring
  · rw [decide_eq_false hneg, abs_of_nonneg (by exact_mod_cast not_lt.mp hneg)]
    simp

namespace Numeral

variable {m : Numeral} {n : ℤ}

theorem IsOf.value_eq_intCast (h : m.IsOf (.ofNegative (n < 0)) ⟨n.natAbs, 0⟩) : m.value = n := by
  rw [h.value_eq, Scientific.value, zpow_zero, mul_one, sign_mul_natAbs]

theorem IsOf.ofLiteral?_eq (h : m.IsOf (.ofNegative (n < 0)) ⟨n.natAbs, 0⟩) :
    Decimal.ofLiteral? m.literal = Decimal.mk? n 0 := by
  have hfraction : m.fraction = [] := by
    simpa using h.places_eq
  have hcoefficient : m.coefficient = n.natAbs := by
    simpa using h.coefficient_eq
  rw [Decimal.ofLiteral?_of_whole (by simp [literal, hfraction]) rfl, m.coefficient_literal,
    hcoefficient, h.negative_literal]
  congr 1
  simp only [decide_eq_true_eq]
  split <;> omega

/-- An integer is known as its numeral is read. -/
theorem IsOf.ofLiteral_eq (h : m.IsOf (.ofNegative (n < 0)) ⟨n.natAbs, 0⟩) :
    Number.ofLiteral m.literal = Number.ofInt n := by
  rw [Number.ofLiteral, Number.ofInt, h.ofLiteral?_eq, m.value_literal, h.value_eq_intCast,
    ← Binary64.units_ofInt]

end Numeral

/-- What is read from the text of an integer is the integer, also where it is rounded. -/
theorem Number.ofText?_toString {n : ℤ} (h : Binary64.IsFinite n) :
    ofText? (toString n) = some (ofInt n) := by
  obtain ⟨m, hm, hwritten⟩ := Numeral.exists_isOf (.ofNegative (n < 0)) ⟨n.natAbs, 0⟩
  have htext := m.isWrittenAs_of_toList_eq ((toList_toString n).trans hwritten.symm)
  have hread := htext.isReadFrom (by rwa [hm.value_eq_intCast])
  rw [hread.ofText?_eq, hm.ofLiteral_eq]

/-! ## Floats -/

namespace Binary64

open Float.Model

theorem unpackExponent_eq_neg_one_iff (x : Float) :
    @UnpackedFloat.unpackExponent Format.binary64 x.toBits.toBitVec = -1#11 ↔
      x.toBits.toNat / Nat.pow 2 52 % Nat.pow 2 11 = 2047 := by
  rw [← BitVec.toNat_inj]
  simp [UnpackedFloat.unpackExponent, Nat.shiftRight_eq_div_pow]

/-- Infinities and the numbers that are none have the largest exponent, and nothing else has it. -/
theorem isFinite_iff_unpackExponent (x : Float) :
    x.isFinite ↔ @UnpackedFloat.unpackExponent Format.binary64 x.toBits.toBitVec ≠ -1#11 := by
  change (UnpackedFloat.unpack Format.binary64 x.toBits.toBitVec).isFinite ↔ _
  delta UnpackedFloat.unpack
  generalize x.toBits.toBitVec = bits
  dsimp only
  by_cases hlargest : @UnpackedFloat.unpackExponent Format.binary64 bits = -1#11
  · refine iff_of_false ?_ (not_not_intro hlargest)
    rw [if_pos hlargest]
    split <;> exact Bool.false_ne_true
  · refine iff_of_true ?_ hlargest
    rw [if_neg hlargest]
    by_cases hsmallest : @UnpackedFloat.unpackExponent Format.binary64 bits = 0#11
    · rw [if_pos hsmallest]
      by_cases hzero : @UnpackedFloat.unpackMantissa Format.binary64 bits = 0#52
      · rw [dif_pos hzero]
        rfl
      · rw [dif_neg hzero]
        rfl
    · rw [if_neg hsmallest]
      rfl

theorem isFinite_iff (x : Float) :
    x.isFinite ↔ ∃ negative units, form x = .finite negative units := by
  rw [isFinite_iff_unpackExponent, ne_eq, unpackExponent_eq_neg_one_iff, form]
  have hlt : x.toBits.toNat / Nat.pow 2 52 % Nat.pow 2 11 < 2048 := Nat.mod_lt _ (by decide)
  generalize x.toBits.toNat / Nat.pow 2 52 % Nat.pow 2 11 = exponent at hlt ⊢
  split_ifs <;> simp <;> omega

end Binary64

theorem Numeral.exists_isWrittenAs_floatText {x : Float} {negative : Bool} {units : ℕ}
    (h : Binary64.form x = .finite negative units) :
    ∃ n : Numeral, n.IsOf (.ofNegative negative) (Shortest.ofUnits .upper units) ∧
      n.IsWrittenAs (Value.floatText x) := by
  obtain ⟨n, hn, hwritten⟩ := exists_isOf (.ofNegative negative) (Shortest.ofUnits .upper units)
  refine ⟨n, hn, n.isWrittenAs_of_toList_eq ?_⟩
  rw [hwritten, Value.floatText, h]
  cases negative <;> simp [Sign.ofNegative, Sign.written]

/-- The float itself is read back from its text. -/
theorem Number.ofText?_floatText {x : Float} {negative : Bool} {units : ℕ}
    (h : Binary64.form x = .finite negative units) :
    ∃ v, ofText? (Value.floatText x) = some v ∧ v.approx = .signed negative units := by
  have hreads := Shortest.reads_ofUnits .upper (Binary64.isRepresentable_of_form h)
  obtain ⟨hfinite, hnearest⟩ := hreads.nearestAbs_eq
  obtain ⟨n, hn, htext⟩ := Numeral.exists_isWrittenAs_floatText h
  have habs : |n.value| = |(Shortest.ofUnits .upper units).value| := by
    rw [hn.value_eq, Sign.isMinus_ofNegative]
    cases negative <;> simp
  have hunits : Binary64.nearestAbs n.literal.value = units := by
    rw [n.value_literal, ← hnearest]
    exact (Binary64.nearestAbs_mono habs.le).antisymm (Binary64.nearestAbs_mono habs.ge)
  have hread := htext.isReadFrom (by rwa [Binary64.IsFinite, habs])
  refine ⟨_, hread.ofText?_eq, ?_⟩
  rw [ofLiteral, ← Literal.nearest_value, hn.negative_literal, hunits]

/-! ## Bounds -/

/-- The values that hold a number. -/
inductive Value.IsNumber : Value → Prop
  | integer (n : Int64) : IsNumber (.integer n)
  | float {x : Float} (h : x.isFinite) : IsNumber (.float x)

/-- The binary64 number that a number is, or is rounded to. -/
def Value.binary64? : Value → Option Binary64
  | .integer n => some (.ofInt n.toInt)
  | .float x =>
    match Binary64.form x with
    | .finite negative units => some (.signed negative units)
    | _ => none
  | _ => none

theorem Value.IsNumber.exists_text {value : Value} (h : value.IsNumber) :
    ∃ text v, value.text? = some text ∧ value.magnitude? = some v ∧
      Number.ofText? text = some v ∧ value.binary64? = some v.approx := by
  cases h with
  | integer n =>
      have hfinite := Binary64.isFinite_intCast (Number.abs_toInt_lt n)
      exact ⟨_, _, rfl, rfl, Number.ofText?_toString hfinite, rfl⟩
  | @float x h =>
      obtain ⟨negative, units, hform⟩ := (Binary64.isFinite_iff x).mp h
      obtain ⟨v, hv, happrox⟩ := Number.ofText?_floatText hform
      refine ⟨_, v, rfl, hv, hv, ?_⟩
      rw [binary64?, hform, happrox]

namespace Check

/-- No bound tells a number from its text: what is read from the text is what is compared for the
number itself, and its approximation is the float, or the one that the integer is rounded to. -/
theorem bounds_text {value : Value} (h : value.IsNumber) :
    ∃ text v, value.text? = some text ∧ value.magnitude? = some v ∧
      Number.ofText? text = some v ∧ value.binary64? = some v.approx ∧
      ∀ check ∈ [min, max, between], ∀ fields params,
        check fields value params = check fields (.string text) params := by
  obtain ⟨text, v, htext, hvalue, hread, happrox⟩ := h.exists_text
  have hmagnitude : value.magnitude? = (Value.string text).magnitude? := by
    rw [hvalue, Value.magnitude?_string hread]
  refine ⟨text, v, htext, hvalue, hread, happrox, ?_⟩
  intro check hcheck fields params
  exact bounds_congr (hmagnitude ▸ rel_refl) (fun _ ↦ rel_refl) check hcheck fields

/-- The largest float, whose text has too many digits for a decimal. -/
theorem bounds_text_largest :
    (Float.ofBits 0x7FEFFFFFFFFFFFFF).isFinite ∧
      ∃ text, (Value.float (Float.ofBits 0x7FEFFFFFFFFFFFFF)).text? = some text ∧
        ∀ params, between ∅ (.float (Float.ofBits 0x7FEFFFFFFFFFFFFF)) params =
          between ∅ (.string text) params := by
  have hfinite : (Float.ofBits 0x7FEFFFFFFFFFFFFF).isFinite := by decide
  obtain ⟨text, -, htext, -, -, -, hchecks⟩ := bounds_text (.float hfinite)
  exact ⟨hfinite, text, htext, hchecks between (by simp) ∅⟩

end Check

end FieldRules
