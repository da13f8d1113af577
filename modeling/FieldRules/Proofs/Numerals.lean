import FieldRules.Number
import Mathlib.Data.List.Induction
import Mathlib.Data.Nat.Digits.Defs
import Mathlib.Data.Rat.Defs
import Mathlib.Tactic.Ring

/-!
# Numerals

A numeral is a decimal as it is written without an exponent. It is read digit by digit: zeros in
front, zeros behind the point and a sign are all kept, so the number of places of a numeral says
nothing about the number that it denotes.
-/

namespace FieldRules

/-! ## Sequences of digits -/

theorem digitsValue_eq_ofDigits (digits : List Nat) :
    digitsValue digits = Nat.ofDigits 10 digits.reverse := by
  induction digits using List.reverseRecOn with
  | nil => rfl
  | append_singleton digits d ih =>
      rw [List.reverse_append, List.reverse_singleton, List.singleton_append, Nat.ofDigits_cons,
        ← ih, digitsValue, List.foldl_append]
      exact Nat.add_comm _ _

theorem digitsValue_append (a b : List Nat) :
    digitsValue (a ++ b) = digitsValue a * 10 ^ b.length + digitsValue b := by
  rw [digitsValue_eq_ofDigits, digitsValue_eq_ofDigits, digitsValue_eq_ofDigits,
    List.reverse_append, Nat.ofDigits_append, List.length_reverse]
  ring

theorem digitsValue_cons (d : Nat) (digits : List Nat) :
    digitsValue (d :: digits) = d * 10 ^ digits.length + digitsValue digits := by
  have hsplit := digitsValue_append [d] digits
  simpa [digitsValue] using hsplit

theorem digitsValue_zeros (k : ℕ) : digitsValue (List.replicate k 0) = 0 := by
  induction k with
  | zero => rfl
  | succ k ih => rw [List.replicate_succ, digitsValue_cons, ih, Nat.zero_mul]

theorem digitsValue_lt {digits : List Nat} (h : ∀ d ∈ digits, d < 10) :
    digitsValue digits < 10 ^ digits.length := by
  rw [digitsValue_eq_ofDigits, ← List.length_reverse]
  exact Nat.ofDigits_lt_base_pow_length (by decide) (by simpa using h)

/-! ## Numerals and their texts -/

inductive Sign
  | absent
  | plus
  | minus
  deriving DecidableEq, Repr

namespace Sign

def written : Sign → List Char
  | .absent => []
  | .plus => ['+']
  | .minus => ['-']

def isMinus : Sign → Bool
  | .minus => true
  | _ => false

end Sign

/-- A decimal without an exponent: a sign or none, digits, and digits behind a point or no point. -/
structure Numeral where
  sign : Sign
  whole : List (Fin 10)
  fraction : List (Fin 10)
  nonempty : whole ≠ []
  deriving DecidableEq, Repr

namespace Numeral

def digit (d : Fin 10) : Char :=
  Nat.digitChar d

def written (n : Numeral) : List Char :=
  n.sign.written ++ n.whole.map digit ++
    if n.fraction = [] then [] else '.' :: n.fraction.map digit

/-- The number that all the digits denote together. -/
def coefficient (n : Numeral) : ℕ :=
  Nat.ofDigits 10 ((n.whole ++ n.fraction).reverse.map Fin.val)

/-- The number that a numeral denotes. -/
def value (n : Numeral) : ℚ :=
  (if n.sign.isMinus then -1 else 1) * n.coefficient / 10 ^ n.fraction.length

/-- The text is the numeral, up to white space around it. -/
def IsWrittenAs (n : Numeral) (text : String) : Prop :=
  Text.trim text.toList = n.written

instance (n : Numeral) (text : String) : Decidable (n.IsWrittenAs text) :=
  inferInstanceAs (Decidable (_ = _))

/-- What is read from the numeral. -/
def literal (n : Numeral) : Literal :=
  ⟨n.sign.isMinus, n.whole.map Fin.val, n.fraction.map Fin.val, none⟩

theorem coefficient_literal (n : Numeral) : n.literal.coefficient = n.coefficient := by
  rw [Literal.coefficient, digitsValue_eq_ofDigits, coefficient, List.map_reverse, List.map_append]
  rfl

theorem coefficient_eq_digitsValue (n : Numeral) :
    n.coefficient = digitsValue ((n.whole ++ n.fraction).map Fin.val) := by
  rw [← n.coefficient_literal, List.map_append]
  rfl

theorem isDigit_digit : ∀ d : Fin 10, (digit d).isDigit := by
  decide

theorem toNat_digit : ∀ d : Fin 10, (digit d).toNat - '0'.toNat = d := by
  decide

theorem digit_ne_sign : ∀ d : Fin 10, digit d ≠ '-' ∧ digit d ≠ '+' := by
  decide

theorem takeDigits_append {rest : List Char} (h : ∀ c ∈ rest.head?, ¬ c.isDigit)
    (digits : List (Fin 10)) :
    Literal.takeDigits (digits.map digit ++ rest) = (digits.map Fin.val, rest) := by
  have hdigits : ∀ c ∈ digits.map digit, c.isDigit := by
    simpa using fun d _ ↦ isDigit_digit d
  have htake : rest.takeWhile Char.isDigit = [] := by
    cases rest with
    | nil => rfl
    | cons c rest => exact List.takeWhile_cons_of_neg (h c rfl)
  have hdrop : rest.dropWhile Char.isDigit = rest := by
    cases rest with
    | nil => rfl
    | cons c rest => exact List.dropWhile_cons_of_neg (h c rfl)
  have hvalues : (digits.map digit).map (·.toNat - '0'.toNat) = digits.map Fin.val := by
    rw [List.map_map]
    exact List.map_congr_left fun d _ ↦ toNat_digit d
  rw [Literal.takeDigits, List.takeWhile_append_of_pos hdigits, htake, List.append_nil, hvalues,
    List.dropWhile_append_of_pos hdigits, hdrop]

theorem takeSign_written (sign : Sign) {digits : List (Fin 10)} (h : digits ≠ [])
    (rest : List Char) :
    Literal.takeSign (sign.written ++ (digits.map digit ++ rest)) =
      (sign.isMinus, digits.map digit ++ rest) := by
  cases digits with
  | nil => exact absurd rfl h
  | cons d digits =>
      obtain ⟨hminus, hplus⟩ := digit_ne_sign d
      cases sign with
      | absent =>
          rw [Sign.written, List.nil_append, List.map_cons, List.cons_append, Literal.takeSign]
          · rfl
          · simpa using hminus
          · simpa using hplus
      | plus => rfl
      | minus => rfl

theorem read_written (n : Numeral) : Literal.read n.written = some n.literal := by
  obtain ⟨sign, whole, fraction, hwhole⟩ := n
  have hempty : (whole.map Fin.val).isEmpty = false := by
    simpa using hwhole
  rw [written, List.append_assoc, Literal.read, takeSign_written sign hwhole]
  cases fraction with
  | nil =>
      simp only [if_pos]
      rw [takeDigits_append (by simp)]
      simp [hempty, literal]
  | cons d fraction =>
      have hpoint : ∀ c ∈ ('.' :: (d :: fraction).map digit).head?, ¬ c.isDigit := by
        simp
      have hend : ∀ c ∈ ([] : List Char).head?, ¬ c.isDigit := by
        simp
      have hfraction := takeDigits_append hend (d :: fraction)
      rw [List.append_nil] at hfraction
      simp only [reduceCtorEq, if_false]
      rw [takeDigits_append hpoint]
      simp only [hfraction]
      simp [literal]

end Numeral

end FieldRules
