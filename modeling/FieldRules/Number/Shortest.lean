import FieldRules.Number.Binary64

/-!
# The fewest digits that read back

Of the decimal numbers that round to a given binary64 number, the shortest one is taken, and of
several of that length the nearest. For each length only the two neighbours on the grid of that many
digits are tried: if any point of the grid rounds to the number, then so does one of them.
-/

namespace FieldRules

/-- The number `coefficient * 10 ^ power`. -/
structure Scientific where
  coefficient : Nat
  power : Int
  deriving DecidableEq, Repr

namespace Scientific

def digits (s : Scientific) : List Char :=
  Nat.toDigits 10 s.coefficient

/-- The power of ten that the first digit counts. -/
def order (s : Scientific) : Int :=
  s.digits.length - 1 + s.power

/-- Moves zeros at the end of the coefficient into the power. -/
def strip (coefficient : Nat) (power : Int) : Scientific :=
  if coefficient ≠ 0 ∧ coefficient % 10 = 0 then strip (coefficient / 10) (power + 1)
  else ⟨coefficient, power⟩
termination_by coefficient
decreasing_by omega

/-- The digits with a point where it belongs, and with the zeros that are needed to reach it. -/
def positional (s : Scientific) : String :=
  let digits := s.digits
  match s.power with
  | .ofNat zeros => String.ofList (digits ++ List.replicate zeros '0')
  | .negSucc p =>
    let places := p + 1
    if places < digits.length then
      let whole := digits.length - places
      String.ofList (digits.take whole ++ '.' :: digits.drop whole)
    else String.ofList ('0' :: '.' :: (List.replicate (places - digits.length) '0' ++ digits))

end Scientific

/-- Which of two decimals at the same distance is taken. -/
inductive Tie
  | upper
  | even
  deriving DecidableEq, Repr

namespace Shortest

open Binary64

/-- The quotient by `10 ^ power` of so many units, as numerator and denominator. -/
def scaled (units : Nat) (power : Int) : Nat × Nat :=
  match power with
  | .ofNat p => (units, one * Nat.pow 10 p)
  | .negSucc p => (units * Nat.pow 10 (p + 1), one)

/-- The power of ten that the first digit of so many units counts. -/
def leading (units : Nat) : Int :=
  if one ≤ units then digitCount (units / one) - 1
  else -digitCount ((one + units - 1) / units - 1)

/-- The decimal on the grid of `10 ^ power` that reads back, if there is one. -/
def onGrid? (tie : Tie) (units : Nat) (power : Int) : Option Nat :=
  let (num, den) := scaled units power
  let low := num / den
  let readsBack (coefficient : Nat) : Bool := unitsOfDecimal? coefficient power == some units
  match readsBack low, readsBack (low + 1) with
  | true, false => some low
  | false, true => some (low + 1)
  | false, false => none
  | true, true =>
    match compare (2 * num) ((2 * low + 1) * den) with
    | .lt => some low
    | .gt => some (low + 1)
    | .eq => some (if tie = .even ∧ low % 2 = 0 then low else low + 1)

/-- All the digits of so many units. -/
def exact (units : Nat) : Scientific :=
  ⟨units * Nat.pow 5 1074, -1074⟩

/-- The shortest decimal that rounds to so many units. Seventeen digits are always enough. -/
def ofUnits (tie : Tie) (units : Nat) : Scientific :=
  let found := (List.range 17).findSome? fun (n : Nat) ↦
    let power := leading units - n
    (onGrid? tie units power).map (Scientific.mk · power)
  let s := found.getD (exact units)
  if units = 0 then ⟨0, 0⟩ else Scientific.strip s.coefficient s.power

end Shortest

end FieldRules
