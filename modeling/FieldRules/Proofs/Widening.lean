import FieldRules.Proofs.NativeNumbers

/-!
# Widening bounds

A bound is widened by a smaller number below a value and by a larger one above it. The value is compared
exactly with bounds that have a decimal, and approximately with the others; either way the outcome
grows with the number of the bound, as long as no digit is rounded twice. So bounds of one kind keep
their order. Of two bounds of different kinds, only one is compared exactly, and they keep their order
but for two cases: all three numbers have one approximation and the decimals contradict it, or the value
and a bound have one decimal and the approximations contradict that.
-/

namespace FieldRules

theorem Binary64.eq_iff {p q : Binary64} : p = q ↔ p.units = q.units := by
  cases p
  cases q
  simp

namespace Number

variable {v low high : Number}

/-- What is at least the upper bound is at least the lower one, and what is at most the lower bound is
at most the upper one. -/
def KeepsOrder (v low high : Number) : Prop :=
  ((v.compare high).isGE → (v.compare low).isGE) ∧ ((v.compare low).isLE → (v.compare high).isLE)

/-- The numbers have one approximation, and the bound that has a decimal is on the wrong side of the
value. -/
def Tied (v low high : Number) : Prop :=
  v.approx = low.approx ∧ v.approx = high.approx ∧
    match v.exact, low.exact, high.exact with
    | some c, some d, none => c.value < d.value
    | some c, none, some e => e.value < c.value
    | _, _, _ => False

/-- The value is rounded to the decimal of one bound, and the approximation of the other bound, which
has no decimal, lies between theirs. -/
def Merged (v low high : Number) : Prop :=
  match v.exact, low.exact, high.exact with
  | some c, some d, none => c.value = d.value ∧ high.approx.units < v.approx.units
  | some c, none, some e => c.value = e.value ∧ v.approx.units < low.approx.units
  | _, _, _ => False

variable {α β : Type*} [LinearOrder α] [LinearOrder β]

theorem keepsOrder_of_le {x y z : α} (hyz : y ≤ z) (hlow : v.compare low = cmp x y)
    (hhigh : v.compare high = cmp x z) : v.KeepsOrder low high := by
  rw [KeepsOrder, hlow, hhigh, Decimal.isGE_cmp, Decimal.isGE_cmp, Decimal.isLE_cmp,
    Decimal.isLE_cmp]
  exact ⟨hyz.trans, fun hxy ↦ hxy.trans hyz⟩

/-- A value that is `x` in one order and `p` in another is compared with `y` in the first order, and with
`r` in the second one, where `y` is `q`. -/
theorem across_orders_iff {x y : β} {p q r : α} (hqr : q ≤ r) (hlt : x < y → p ≤ q) :
    ((r ≤ p → y ≤ x) ∧ (x ≤ y → p ≤ r)) ↔ ¬ (p = q ∧ p = r ∧ x < y) ∧ ¬ (x = y ∧ r < p) := by
  constructor
  · rintro ⟨hge, hle⟩
    refine ⟨?_, ?_⟩
    · rintro ⟨-, hpr, hxy⟩
      exact absurd (hge hpr.ge) (not_le.mpr hxy)
    · rintro ⟨hxy, hrp⟩
      exact absurd (hle hxy.le) (not_le.mpr hrp)
  · rintro ⟨htied, hmerged⟩
    refine ⟨fun hrp ↦ ?_, fun hxy ↦ ?_⟩
    · by_contra hyx
      have hpq := hlt (not_le.mp hyx)
      have hpr := (hpq.trans hqr).antisymm hrp
      exact htied ⟨hpq.antisymm (hqr.trans hrp), hpr, not_le.mp hyx⟩
    · rcases hxy.eq_or_lt with heq | hxy
      · exact not_lt.mp fun hrp ↦ hmerged ⟨heq, hrp⟩
      · exact (hlt hxy).trans hqr

variable {c d : Decimal}

theorem compare_of_exact (hv : v.exact = some c) (hlow : low.exact = some d) :
    v.compare low = cmp c.value d.value := by
  rw [compare_eq, hv, hlow, Option.map_some, Option.map_some]

theorem compare_of_exact_eq_none (hnone : v.exact = none ∨ low.exact = none) :
    v.compare low = cmp v.approx.units low.approx.units := by
  obtain ⟨p, _ | d⟩ := v <;> obtain ⟨q, _ | e⟩ := low
  case some.some => simp at hnone
  all_goals exact (cmp_eq_compare p.units q.units).symm

theorem keepsOrder_iff_of_exact_eq_none
    (hnone : v.exact = none ∨ low.exact = none ∧ high.exact = none)
    (hle : low.approx.units ≤ high.approx.units) :
    v.KeepsOrder low high ↔ ¬ v.Tied low high ∧ ¬ v.Merged low high := by
  have hd := compare_of_exact_eq_none (hnone.imp_right And.left)
  have he := compare_of_exact_eq_none (hnone.imp_right And.right)
  refine iff_of_true (keepsOrder_of_le hle hd he) ?_
  rcases hnone with hv | ⟨hlow, hhigh⟩
  · simp [Tied, Merged, hv]
  · simp [Tied, Merged, hlow, hhigh]

theorem keepsOrder_iff_of_exact {e : Decimal} (hv : v.exact = some c) (hlow : low.exact = some d)
    (hhigh : high.exact = some e) (hle : d.value ≤ e.value) :
    v.KeepsOrder low high ↔ ¬ v.Tied low high ∧ ¬ v.Merged low high := by
  have hd := compare_of_exact hv hlow
  have he := compare_of_exact hv hhigh
  refine iff_of_true (keepsOrder_of_le hle hd he) ?_
  simp [Tied, Merged, hlow, hhigh]

theorem keepsOrder_iff_of_low (hv : v.exact = some c) (hlow : low.exact = some d)
    (hhigh : high.exact = none) (hle : low.approx.units ≤ high.approx.units)
    (hlt : c.value < d.value → v.approx.units ≤ low.approx.units) :
    v.KeepsOrder low high ↔ ¬ v.Tied low high ∧ ¬ v.Merged low high := by
  rw [KeepsOrder, compare_of_exact hv hlow, compare_of_exact_eq_none (.inr hhigh),
    Decimal.isGE_cmp, Decimal.isGE_cmp, Decimal.isLE_cmp, Decimal.isLE_cmp]
  simp only [Tied, Merged, hv, hlow, hhigh, Binary64.eq_iff]
  exact across_orders_iff hle hlt

/-- The same from the other side, with both orders reversed. -/
theorem keepsOrder_iff_of_high (hv : v.exact = some c) (hlow : low.exact = none)
    (hhigh : high.exact = some d) (hle : low.approx.units ≤ high.approx.units)
    (hlt : d.value < c.value → high.approx.units ≤ v.approx.units) :
    v.KeepsOrder low high ↔ ¬ v.Tied low high ∧ ¬ v.Merged low high := by
  have hdual := @across_orders_iff ℤᵒᵈ ℚᵒᵈ _ _ c.value d.value v.approx.units high.approx.units
    low.approx.units hle hlt
  rw [KeepsOrder, compare_of_exact hv hhigh, compare_of_exact_eq_none (.inr hlow),
    Decimal.isGE_cmp, Decimal.isGE_cmp, Decimal.isLE_cmp, Decimal.isLE_cmp, and_comm]
  simp only [Tied, Merged, hv, hlow, hhigh, Binary64.eq_iff]
  exact hdual.trans (and_congr_left' (not_congr and_left_comm))

end Number

/-! ## The literals of values -/

theorem Numeral.IsWrittenAs.eq_literal {n : Numeral} {k : Literal} {text : String}
    (h : n.IsWrittenAs text) (hk : k.IsWrittenAs text) : k = n.literal := by
  rw [Literal.IsWrittenAs, h, n.read_written] at hk
  exact (Option.some_inj.mp hk).symm

theorem Number.exists_numeral_of_int (n : ℤ) : ∃ m : Numeral, ofInt n = ofLiteral m.literal := by
  obtain ⟨m, hm, -⟩ := Numeral.exists_isOf (.ofNegative (n < 0)) ⟨n.natAbs, 0⟩
  exact ⟨m, hm.ofLiteral_eq.symm⟩

namespace Value

variable {value : Value} {v : Number} {k l m : Literal} {a b : String}

theorem exists_numeral_of_float {x : Float} (hk : k.IsReadFrom (floatText x)) :
    ∃ n : Numeral, k = n.literal := by
  cases hform : Binary64.form x with
  | finite negative units =>
      obtain ⟨n, -, hn⟩ := Numeral.exists_isWrittenAs_floatText hform
      exact ⟨n, hn.eq_literal hk.isWrittenAs⟩
  | nan =>
      have hread := hk.ofText?_eq
      rw [floatText, hform] at hread
      contradiction
  | infinite negative =>
      have hread := hk.ofText?_eq
      rw [floatText, hform] at hread
      cases negative <;> contradiction

/-- No digit is rounded off before an exponent moves the point. Only a text can have an exponent. -/
def RoundedOnce : Value → Prop
  | .string text => ∀ k : Literal, k.IsReadFrom text → k.RoundedOnce
  | _ => True

theorem exists_literal (h : value.magnitude? = some v) :
    ∃ k : Literal, v = .ofLiteral k ∧ (∀ d ∈ k.fraction, d < 10) ∧
      (value.RoundedOnce → k.RoundedOnce) := by
  have hnumeral : ∀ n : Numeral, v = .ofLiteral n.literal → ∃ k : Literal, v = .ofLiteral k ∧
      (∀ d ∈ k.fraction, d < 10) ∧ (value.RoundedOnce → k.RoundedOnce) := by
    intro n hn
    exact ⟨n.literal, hn, n.digit_lt_of_literal, fun _ ↦ n.moderate_literal.roundedOnce⟩
  cases value <;> simp only [magnitude?] at h
  case integer n =>
    cases h
    obtain ⟨m, hm⟩ := Number.exists_numeral_of_int n.toInt
    exact hnumeral m hm
  case float x =>
    obtain ⟨k, hk, rfl⟩ := Number.ofText?_eq_some_iff.mp h
    obtain ⟨n, rfl⟩ := exists_numeral_of_float hk
    exact hnumeral n rfl
  case string text =>
    cases htext : Number.ofText? text with
    | some w =>
        rw [htext] at h
        cases h
        obtain ⟨k, hk, rfl⟩ := Number.ofText?_eq_some_iff.mp htext
        exact ⟨k, rfl, Literal.digit_lt_of_read hk.isWrittenAs, fun honce ↦ honce k hk⟩
    | none =>
        rw [htext] at h
        cases h
        obtain ⟨m, hm⟩ := Number.exists_numeral_of_int text.length
        exact hnumeral m hm
  all_goals contradiction

/-- No decimal that decides about the bounds stands for digits that were rounded off before an exponent
moved the point. The one of the value decides if only one of the bounds has a decimal. -/
structure RoundedOnceAmong (value : Value) (l m : Literal) : Prop where
  low : Decimal.ofLiteral? l ≠ none → l.RoundedOnce
  high : Decimal.ofLiteral? m ≠ none → m.RoundedOnce
  value : ¬ (Decimal.ofLiteral? l = none ↔ Decimal.ofLiteral? m = none) → value.RoundedOnce

/-- Approximations are in the order of decimals that are rounded once. -/
theorem nearest_le_of_value_lt {c d : Decimal} (hk : ∀ d ∈ k.fraction, d < 10)
    (hl : ∀ d ∈ l.fraction, d < 10) (hkOnce : k.RoundedOnce) (hlOnce : l.RoundedOnce)
    (hc : Decimal.ofLiteral? k = some c) (hd : Decimal.ofLiteral? l = some d)
    (h : c.value < d.value) : Binary64.nearest k.value ≤ Binary64.nearest l.value := by
  apply Binary64.nearest_mono
  by_contra hlt
  exact absurd (Decimal.value_mono hl hk hlOnce hkOnce hd hc (not_le.mp hlt).le) (not_le.mpr h)

theorem keepsOrder_iff (h : value.magnitude? = some v) (ha : l.IsReadFrom a) (hb : m.IsReadFrom b)
    (hle : l.value ≤ m.value) (honce : v.exact ≠ none → value.RoundedOnceAmong l m) :
    v.KeepsOrder (.ofLiteral l) (.ofLiteral m) ↔
      ¬ v.Tied (.ofLiteral l) (.ofLiteral m) ∧ ¬ v.Merged (.ofLiteral l) (.ofLiteral m) := by
  obtain ⟨k, rfl, hk, hkOnce⟩ := exists_literal h
  have hl := Literal.digit_lt_of_read ha.isWrittenAs
  have hm := Literal.digit_lt_of_read hb.isWrittenAs
  have hnearest := Binary64.nearest_mono hle
  cases hc : Decimal.ofLiteral? k with
  | none => exact Number.keepsOrder_iff_of_exact_eq_none (.inl hc) hnearest
  | some c =>
      obtain ⟨hlOnce, hmOnce, hvalue⟩ := honce (by simp [Number.ofLiteral, hc])
      cases hd : Decimal.ofLiteral? l <;> cases he : Decimal.ofLiteral? m
      case none.none => exact Number.keepsOrder_iff_of_exact_eq_none (.inr ⟨hd, he⟩) hnearest
      case some.some d e =>
        have hvalues : d.value ≤ e.value :=
          Decimal.value_mono hl hm (hlOnce (by simp [hd])) (hmOnce (by simp [he])) hd he hle
        exact Number.keepsOrder_iff_of_exact hc hd he hvalues
      case some.none d =>
        have hkOnce := hkOnce (hvalue (by simp [hd, he]))
        exact Number.keepsOrder_iff_of_low hc hd he hnearest
          (nearest_le_of_value_lt hk hl hkOnce (hlOnce (by simp [hd])) hc hd)
      case none.some e =>
        have hkOnce := hkOnce (hvalue (by simp [hd, he]))
        exact Number.keepsOrder_iff_of_high hc hd he hnearest
          (nearest_le_of_value_lt hm hk (hmOnce (by simp [he])) hkOnce he hc)

end Value

/-! ## Bounds in the order of their numbers -/

namespace Check

variable {l m : Literal} {a b : String} {fields : Fields Value} {value : Value}

/-- What a bound accepts is still accepted after it is moved from `b` to `a` below the value, or from `a`
to `b` above it. -/
structure Widens (fields : Fields Value) (value : Value) (a b : String) : Prop where
  lower : ∀ more, min fields value (b :: more) → min fields value (a :: more)
  upper : ∀ more, max fields value (a :: more) → max fields value (b :: more)
  between_lower : ∀ hi more,
    between fields value (b :: hi :: more) → between fields value (a :: hi :: more)
  between_upper : ∀ lo more,
    between fields value (lo :: a :: more) → between fields value (lo :: b :: more)

theorem min_cons (ha : l.IsReadFrom a) (more : List String) :
    min fields value (a :: more) = atLeast value.magnitude? (some (.ofLiteral l)) := by
  rw [min, bound?, List.getElem?_cons_zero, Option.bind_some, ha.ofText?_eq]

theorem max_cons (ha : l.IsReadFrom a) (more : List String) :
    max fields value (a :: more) = atMost value.magnitude? (some (.ofLiteral l)) := by
  rw [max, bound?, List.getElem?_cons_zero, Option.bind_some, ha.ofText?_eq]

theorem between_cons (lo hi : String) (more : List String) :
    between fields value (lo :: hi :: more) =
      (min fields value (lo :: more) && max fields value (hi :: more)) :=
  rfl

theorem widens_iff (ha : l.IsReadFrom a) (hb : m.IsReadFrom b) :
    Widens fields value a b ↔
      ∀ v ∈ value.magnitude?, v.KeepsOrder (.ofLiteral l) (.ofLiteral m) := by
  constructor
  · intro hwidens v hv
    have hlower := hwidens.lower []
    have hupper := hwidens.upper []
    rw [min_cons ha, min_cons hb, hv] at hlower
    rw [max_cons ha, max_cons hb, hv] at hupper
    exact ⟨hlower, hupper⟩
  · intro hkeeps
    have hlower : ∀ more, min fields value (b :: more) → min fields value (a :: more) := by
      intro more
      rw [min_cons ha, min_cons hb]
      cases hv : value.magnitude? with
      | none => simp [atLeast]
      | some v => exact (hkeeps v hv).1
    have hupper : ∀ more, max fields value (a :: more) → max fields value (b :: more) := by
      intro more
      rw [max_cons ha, max_cons hb]
      cases hv : value.magnitude? with
      | none => simp [atMost]
      | some v => exact (hkeeps v hv).2
    refine ⟨hlower, hupper, fun hi more ↦ ?_, fun lo more ↦ ?_⟩
    · simpa only [between_cons, Bool.and_eq_true] using And.imp_left (hlower more)
    · simpa only [between_cons, Bool.and_eq_true] using And.imp_right (hupper more)

theorem widens_iff_not_tied_merged (ha : l.IsReadFrom a) (hb : m.IsReadFrom b)
    (hle : l.value ≤ m.value)
    (honce : ∀ v ∈ value.magnitude?, v.exact ≠ none → value.RoundedOnceAmong l m) :
    Widens fields value a b ↔ ∀ v ∈ value.magnitude?,
      ¬ v.Tied (.ofLiteral l) (.ofLiteral m) ∧ ¬ v.Merged (.ofLiteral l) (.ofLiteral m) := by
  rw [widens_iff ha hb]
  exact forall₂_congr fun v hv ↦ Value.keepsOrder_iff hv ha hb hle (honce v hv)

/-- The smaller bound is rounded to the decimal zero, and the larger one has no decimal. -/
example :
    max ∅ (.string "0") ["-0.0000000000000000000000000000001"] ∧
      ¬ max ∅ (.string "0") ["-1e-32"] := by
  decide +kernel

/-- A bound that is widened accepts what it accepted, unless the value is tied with both its places. -/
theorem bounds_mono (ha : l.IsReadFrom a) (hb : m.IsReadFrom b) (hle : l.value ≤ m.value)
    (honce : ∀ v ∈ value.magnitude?, v.exact ≠ none → value.RoundedOnceAmong l m)
    (hmerged : ∀ v ∈ value.magnitude?, ¬ v.Merged (.ofLiteral l) (.ofLiteral m))
    (fields : Fields Value) :
    Widens fields value a b ↔ ∀ v ∈ value.magnitude?, ¬ v.Tied (.ofLiteral l) (.ofLiteral m) := by
  rw [widens_iff_not_tied_merged ha hb hle honce]
  exact forall₂_congr fun v hv ↦ and_iff_left (hmerged v hv)

/-- The value is compared exactly with the first bound and approximately with the second one. -/
theorem bounds_mono_mixed : Widens ∅ (.string "10") "10.000000000000000001" "1e30" := by
  obtain ⟨k, hk, hkOnce, hc⟩ : ∃ k : Literal, k.IsReadFrom "10" ∧ k.RoundedOnce ∧
      Decimal.ofLiteral? k = some ⟨10, 0⟩ :=
    ⟨⟨false, [1, 0], [], none⟩, Literal.IsWrittenAs.isReadFrom (by decide) (by decide +kernel),
      .inl rfl, by decide⟩
  obtain ⟨l, hl, hlOnce, hlow, hd⟩ : ∃ l : Literal, l.IsReadFrom "10.000000000000000001" ∧
      l.RoundedOnce ∧ l.value ≤ 11 ∧
      Decimal.ofLiteral? l = some ⟨10000000000000000001, 18⟩ := by
    refine ⟨⟨false, [1, 0], [0, 0, 0, 0, 0, 0, 0, 0, 0, 0, 0, 0, 0, 0, 0, 0, 0, 1], none⟩,
      Literal.IsWrittenAs.isReadFrom (by decide) (by decide +kernel), .inl rfl, ?_,
      by decide +kernel⟩
    norm_num [Literal.value, Literal.magnitude, Literal.coefficient, Literal.power, digitsValue]
  obtain ⟨m, hm, hhigh, he⟩ : ∃ m : Literal, m.IsReadFrom "1e30" ∧ 11 ≤ m.value ∧
      Decimal.ofLiteral? m = none := by
    refine ⟨⟨false, [1], [], some ⟨false, 30⟩⟩,
      Literal.IsWrittenAs.isReadFrom (by decide) (by decide +kernel), ?_, by decide⟩
    norm_num [Literal.value, Literal.magnitude, Literal.coefficient, Literal.power, digitsValue,
      Exponent.value]
  have honce : (Value.string "10").RoundedOnceAmong l m := by
    refine ⟨fun _ ↦ hlOnce, fun h ↦ absurd he h, fun _ k' hk' ↦ ?_⟩
    have heq : k' = k := Option.some_inj.mp (hk'.isWrittenAs.symm.trans hk.isWrittenAs)
    exact heq ▸ hkOnce
  have hread : ∀ v ∈ (Value.string "10").magnitude?, v = .ofLiteral k := by
    intro v hv
    exact Option.some_inj.mp (hv.symm.trans (Value.magnitude?_string hk.ofText?_eq))
  have happrox : ∀ v ∈ Number.ofText? "10", ∀ w ∈ Number.ofText? "1e30", v.approx ≠ w.approx := by
    decide +kernel
  refine (bounds_mono hl hm (hlow.trans hhigh) (fun _ _ _ ↦ honce) (fun v hv ↦ ?_) ∅).mpr ?_
  · have hvalues : Decimal.value ⟨10, 0⟩ ≠ Decimal.value ⟨10000000000000000001, 18⟩ := by
      norm_num [Decimal.value]
    simp [hread v hv, Number.Merged, Number.ofLiteral, hc, hd, he, hvalues]
  · rintro v hv ⟨-, htied, -⟩
    exact happrox _ hk.ofText?_eq _ hm.ofText?_eq (hread v hv ▸ htied)

/-- The smaller bound is compared exactly, and the larger one has the approximation of the value. -/
theorem bounds_not_mono :
    ∃ l m : Literal, l.IsReadFrom "79228162514264337593543950335" ∧
      m.IsReadFrom "79228162514264337593543950336" ∧ l.value ≤ m.value ∧
      min ∅ (.string "79228162514264337593543950334") ["79228162514264337593543950336"] ∧
      ¬ min ∅ (.string "79228162514264337593543950334") ["79228162514264337593543950335"] := by
  refine ⟨⟨false, [7, 9, 2, 2, 8, 1, 6, 2, 5, 1, 4, 2, 6, 4, 3, 3, 7, 5, 9, 3, 5, 4, 3, 9, 5, 0, 3,
    3, 5], [], none⟩, ⟨false, [7, 9, 2, 2, 8, 1, 6, 2, 5, 1, 4, 2, 6, 4, 3, 3, 7, 5, 9, 3, 5, 4, 3,
    9, 5, 0, 3, 3, 6], [], none⟩, ?_, ?_, ?_, by decide +kernel, by decide +kernel⟩
  · exact Literal.IsWrittenAs.isReadFrom (by decide) (by decide +kernel)
  · exact Literal.IsWrittenAs.isReadFrom (by decide) (by decide +kernel)
  · norm_num [Literal.value, Literal.magnitude, Literal.coefficient, Literal.power, digitsValue]

end Check

end FieldRules
