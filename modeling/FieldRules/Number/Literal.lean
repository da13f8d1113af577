/-!
# Number literals

A literal is a sign, digits with at most one point among them, and an exponent of ten; only the
digits are required. The digits are kept as they are written, since how a literal is rounded depends
on how many there are.
-/

namespace FieldRules

/-- The number that a sequence of decimal digits denotes. -/
def digitsValue (digits : List Nat) : Nat :=
  digits.foldl (fun n d ↦ 10 * n + d) 0

/-- The exponent of a literal, with its sign apart. -/
structure Exponent where
  negative : Bool
  size : Nat
  deriving DecidableEq, Repr

def Exponent.value (e : Exponent) : Int :=
  if e.negative then -e.size else e.size

structure Literal where
  negative : Bool
  /-- The digits before the point. -/
  whole : List Nat
  /-- The digits after the point. -/
  fraction : List Nat
  exponent : Option Exponent
  deriving DecidableEq, Repr

namespace Literal

def takeSign : List Char → Bool × List Char
  | '-' :: rest => (true, rest)
  | '+' :: rest => (false, rest)
  | cs => (false, cs)

def takeDigits (cs : List Char) : List Nat × List Char :=
  ((cs.takeWhile Char.isDigit).map (·.toNat - '0'.toNat), cs.dropWhile Char.isDigit)

/-- Reads the digits of an exponent, behind its `e`. -/
def readExponent (cs : List Char) : Option Exponent :=
  let (negative, cs) := takeSign cs
  match takeDigits cs with
  | ([], _) => none
  | (digits, []) => some ⟨negative, digitsValue digits⟩
  | _ => none

/-- Reads a literal that takes up the whole text. -/
def read (cs : List Char) : Option Literal :=
  let (negative, cs) := takeSign cs
  let (whole, cs) := takeDigits cs
  let (fraction, cs) :=
    match cs with
    | '.' :: rest => takeDigits rest
    | _ => ([], cs)
  if whole.isEmpty && fraction.isEmpty then none
  else
    match cs with
    | [] => some ⟨negative, whole, fraction, none⟩
    | c :: rest =>
      if c == 'e' || c == 'E' then
        (readExponent rest).map fun e ↦ ⟨negative, whole, fraction, some e⟩
      else none

/-- The number that all the digits denote together. -/
def coefficient (l : Literal) : Nat :=
  digitsValue (l.whole ++ l.fraction)

/-- The power of ten that the last digit counts. -/
def power (l : Literal) : Int :=
  (l.exponent.elim 0 Exponent.value) - l.fraction.length

end Literal

end FieldRules
