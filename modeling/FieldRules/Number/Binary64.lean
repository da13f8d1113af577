/-!
# Finite binary64 numbers

Every finite binary64 number is a whole number of units of `2 ^ -1074`, so it is kept as an integer
and compared as one. A quotient is rounded to the nearest of these numbers, a half to the even
neighbour.
-/

namespace FieldRules

/-- A finite binary64 number, in units of `2 ^ -1074`. -/
structure Binary64 where
  units : Int
  deriving DecidableEq, Repr

namespace Binary64

/-- The number of units in one. -/
def one : Nat := Nat.pow 2 1074

/-- The number of units in the first power of two that is too large. -/
def limit : Nat := Nat.pow 2 1024 * one

/-- The integer nearest to `num / den`; of two, the even one. -/
def divNearest (num den : Nat) : Nat :=
  let q := num / den
  let twice := 2 * (num % den)
  if twice < den then q else if den < twice then q + 1 else q + q % 2

/-- The units of the number nearest to `num / den`. Below `2 ^ 53` units the numbers lie one unit
apart, and twice as far with every further power of two. -/
def roundUnits (num den : Nat) : Nat :=
  let scaled := num * one
  let gap := Nat.pow 2 ((scaled / den).log2 - 52)
  divNearest scaled (den * gap) * gap

/-- The number of decimal digits. -/
def digitCount (n : Nat) : Nat :=
  (Nat.toDigits 10 n).length

/-- The units of the number nearest to `coefficient * 10 ^ power`; nothing if it is too large. What
lies beyond `10 ^ 400` or below `10 ^ -400` is not worked out. -/
def unitsOfDecimal? (coefficient : Nat) (power : Int) : Option Nat :=
  let order := digitCount coefficient + power
  if coefficient = 0 ∨ order < -400 then some 0
  else if 400 < order then none
  else
    let units :=
      match power with
      | .ofNat p => roundUnits (coefficient * Nat.pow 10 p) 1
      | .negSucc p => roundUnits coefficient (Nat.pow 10 (p + 1))
    if units < limit then some units else none

def signed (negative : Bool) (units : Nat) : Binary64 :=
  ⟨if negative then -units else units⟩

/-- The number nearest to an integer that is not too large. -/
def ofInt (n : Int) : Binary64 :=
  signed (n < 0) (roundUnits n.natAbs 1)

/-- A binary64 number taken apart. -/
inductive Form
  | nan
  | infinite (negative : Bool)
  | finite (negative : Bool) (units : Nat)
  deriving DecidableEq, Repr

/-- Takes a number apart at the borders between its sign, its exponent and its fraction. -/
def form (x : Float) : Form :=
  let bits := x.toBits.toNat
  let negative : Bool := Nat.pow 2 63 ≤ bits
  let exponent := bits / Nat.pow 2 52 % Nat.pow 2 11
  let fraction := bits % Nat.pow 2 52
  if exponent = 0 then .finite negative fraction
  else if exponent < 2047 then
    .finite negative ((Nat.pow 2 52 + fraction) * Nat.pow 2 (exponent - 1))
  else if fraction = 0 then .infinite negative
  else .nan

end Binary64

end FieldRules
