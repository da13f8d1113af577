import FieldRules.Number.Literal

/-!
# Decimal numbers of 96 bits

A number with a mantissa below `2 ^ 96` and at most 28 places after the point. Numbers compare
exactly, whatever their scales.

The digits of a literal are rounded at the first one after the point that does not fit, a five
upwards. An exponent then moves the point: to the left, with another rounding where the places do not
suffice, or to the right as far as the mantissa allows, and by at most 28 places in either direction.
-/

namespace FieldRules

structure Decimal where
  mantissa : Int
  scale : Nat
  deriving DecidableEq, Repr

namespace Decimal

/-- Mantissas are smaller than this. -/
def limit : Nat := Nat.pow 2 96

def maxScale : Nat := 28

/-- The number `mantissa / 10 ^ scale`, if it has the size for it. -/
def mk? (mantissa : Int) (scale : Nat) : Option Decimal :=
  if mantissa.natAbs < limit ∧ scale ≤ maxScale then some ⟨mantissa, scale⟩ else none

def compare (a b : Decimal) : Ordering :=
  Ord.compare (a.mantissa * Nat.pow 10 b.scale) (b.mantissa * Nat.pow 10 a.scale)

/-- The quotient by `10 ^ places`, a half rounded upwards. -/
def dropPlaces (mantissa places : Nat) : Nat :=
  (mantissa + Nat.pow 10 places / 2) / Nat.pow 10 places

/-- Rounds the mantissa at the digit that follows it, and once more if that makes it too large. -/
def roundAt (mantissa scale digit : Nat) : Option (Nat × Nat) :=
  if digit < 5 then some (mantissa, scale)
  else if mantissa + 1 < limit then some (mantissa + 1, scale)
  else if scale = 0 then none
  else some (dropPlaces (mantissa + 1) 1, scale - 1)

/-- Takes the digits after the point into the mantissa while there is room. -/
def takeFraction (mantissa scale : Nat) : List Nat → Option (Nat × Nat)
  | [] => some (mantissa, scale)
  | digit :: rest =>
    let next := 10 * mantissa + digit
    if scale < maxScale ∧ next < limit then takeFraction next (scale + 1) rest
    else roundAt mantissa scale digit

/-- The mantissa and the scale of the digits of a literal. -/
def takeDigits (whole fraction : List Nat) : Option (Nat × Nat) :=
  let mantissa := digitsValue whole
  if mantissa < limit then takeFraction mantissa 0 fraction else none

/-- Moves the point by an exponent. -/
def shift (mantissa scale : Nat) (e : Exponent) : Option (Nat × Nat) :=
  if ¬e.negative ∧ e.size ≤ scale then some (mantissa, scale - e.size)
  else if maxScale < e.size then none
  else if ¬e.negative then some (mantissa * Nat.pow 10 (e.size - scale), 0)
  else if scale + e.size ≤ maxScale then some (mantissa, scale + e.size)
  else some (dropPlaces mantissa (scale + e.size - maxScale), maxScale)

/-- The decimal that a literal denotes, if it is small enough. -/
def ofLiteral? (l : Literal) : Option Decimal := do
  let (mantissa, scale) ← takeDigits l.whole l.fraction
  let (mantissa, scale) ← l.exponent.elim (some (mantissa, scale)) (shift mantissa scale)
  mk? (if l.negative then -mantissa else mantissa) scale

end Decimal

end FieldRules
