import FieldRules.Json
import FieldRules.Number.Literal
import FieldRules.Number.Shortest

/-!
# JSON numbers

A whole number that fits 64 bits is kept as it is. Any other becomes a float: its digits are taken
into 64 bits while they fit, and the digits that do not fit only count as powers of ten. The float is
then multiplied or divided by the power of ten that remains, which may miss the nearest float by a
little.

A float is written with the fewest digits that read back, the even one of two that are as near, and
with an exponent below `10 ^ -5` and from `10 ^ 16` on.
-/

namespace FieldRules.Json

/-- Whole numbers below this are kept in 64 bits. -/
def wordLimit : Nat := Nat.pow 2 64

/-- Takes digits while the number has 64 bits; also how many were taken. -/
def takeWord (word taken : Nat) : List Nat → Nat × Nat
  | [] => (word, taken)
  | digit :: rest =>
    let next := 10 * word + digit
    if next < wordLimit then takeWord next (taken + 1) rest else (word, taken)

/-- A power of ten as a float. -/
def floatPower (n : Nat) : Float :=
  Float.ofScientific 1 false n

/-- Multiplies a float by a power of ten, in steps of at most `10 ^ 308`; nothing if the result is
too large. -/
def scaleFloat (x : Float) (power : Int) : Option Float :=
  if power < -308 then
    if x == 0 then some x else scaleFloat (x / floatPower 308) (power + 308)
  else if power < 0 then some (x / floatPower power.natAbs)
  else if power ≤ 308 then
    let scaled := x * floatPower power.natAbs
    if scaled.isInf then none else some scaled
  else if x == 0 then some x
  else none
termination_by (-power).toNat

/-- The number that a literal denotes; nothing if it is too large. -/
def ofLiteral? (l : Literal) : Option Json :=
  let (word, taken) := takeWord 0 0 l.whole
  let whole := l.fraction.isEmpty && l.exponent.isNone && taken == l.whole.length
  if whole && !l.negative then some (.integer word)
  else if whole && 0 < word && word ≤ Nat.pow 2 63 then some (.integer (-word))
  else
    let (word, places) := takeWord word 0 l.fraction
    let power := (l.whole.length - taken) - places + l.exponent.elim 0 Exponent.value
    (scaleFloat (Float.ofNat word) power).map fun x ↦ .float (if l.negative then -x else x)

/-- Reads digits, of which there must be one. -/
def readDigits (cs : List Char) : Except Fault (List Nat × List Char) :=
  match Literal.takeDigits cs with
  | ([], rest) => .error (.ofRest rest)
  | found => .ok found

/-- Reads the digits behind a point, if there is one. -/
def readFraction : List Char → Except Fault (List Nat × List Char)
  | '.' :: rest => readDigits rest
  | rest => .ok ([], rest)

/-- Reads an exponent, if there is one. -/
def readExponent (cs : List Char) : Except Fault (Option Exponent × List Char) :=
  match cs with
  | [] => .ok (none, [])
  | c :: rest =>
    if c == 'e' || c == 'E' then
      let (negative, rest) := Literal.takeSign rest
      (readDigits rest).map fun (digits, rest) ↦ (some ⟨negative, digitsValue digits⟩, rest)
    else .ok (none, cs)

/-- Reads a number behind its sign. The first digit is a zero only if it is alone before the
point. -/
def readUnsigned (negative : Bool) (cs : List Char) : Except Fault (Json × List Char) := do
  let (whole, cs) ← readDigits cs
  if whole.head? == some 0 && 1 < whole.length then throw .malformed
  let (fraction, cs) ← readFraction cs
  let (exponent, cs) ← readExponent cs
  match ofLiteral? ⟨negative, whole, fraction, exponent⟩ with
  | some number => return (number, cs)
  | none => throw .malformed

def readNumber : List Char → Except Fault (Json × List Char)
  | '-' :: rest => readUnsigned true rest
  | cs => readUnsigned false cs

theorem length_readDigits {cs rest : List Char} {digits : List Nat}
    (h : readDigits cs = .ok (digits, rest)) : rest.length < cs.length := by
  have hlength := congrArg List.length (List.takeWhile_append_dropWhile (p := Char.isDigit) (l := cs))
  simp only [List.length_append] at hlength
  unfold readDigits Literal.takeDigits at h
  split at h
  · cases h
  · next hdigits =>
    cases h
    have : (cs.takeWhile Char.isDigit).length ≠ 0 := by
      intro hnil
      exact hdigits (cs.dropWhile Char.isDigit) (by simp [List.eq_nil_of_length_eq_zero hnil])
    omega

theorem length_readFraction {cs rest : List Char} {digits : List Nat}
    (h : readFraction cs = .ok (digits, rest)) : rest.length ≤ cs.length := by
  unfold readFraction at h
  split at h
  · have := length_readDigits h
    simp only [List.length_cons]
    omega
  · cases h
    exact Nat.le_refl _

theorem length_takeSign (cs : List Char) : (Literal.takeSign cs).2.length ≤ cs.length := by
  unfold Literal.takeSign
  split <;> simp

theorem length_readExponent {cs rest : List Char} {exponent : Option Exponent}
    (h : readExponent cs = .ok (exponent, rest)) : rest.length ≤ cs.length := by
  unfold readExponent at h
  split at h
  · cases h
    exact Nat.le_refl _
  · next c tail =>
    split at h
    · have hsign := length_takeSign tail
      cases hdigits : readDigits (Literal.takeSign tail).2 with
      | error e => simp [hdigits, Except.map] at h
      | ok found =>
        have := length_readDigits hdigits
        simp only [hdigits, Except.map] at h
        obtain ⟨-, rfl⟩ := Prod.mk.inj (Except.ok.inj h)
        simp only [List.length_cons]
        omega
    · cases h
      exact Nat.le_refl _

theorem length_readUnsigned {negative : Bool} {cs rest : List Char} {number : Json}
    (h : readUnsigned negative cs = .ok (number, rest)) : rest.length < cs.length := by
  cases hwhole : readDigits cs with
  | error e => simp [readUnsigned, hwhole, bind, Except.bind] at h
  | ok found =>
    obtain ⟨whole, afterWhole⟩ := found
    have := length_readDigits hwhole
    simp only [readUnsigned, hwhole, bind, Except.bind] at h
    split at h
    · cases h
    · next hzero =>
      cases hfraction : readFraction afterWhole with
      | error e => simp [hfraction] at h
      | ok found =>
        obtain ⟨fraction, afterFraction⟩ := found
        have := length_readFraction hfraction
        simp only [hfraction] at h
        cases hexponent : readExponent afterFraction with
        | error e => simp [hexponent] at h
        | ok found =>
          obtain ⟨exponent, afterExponent⟩ := found
          have := length_readExponent hexponent
          simp only [hexponent] at h
          split at h
          · obtain ⟨-, rfl⟩ := Prod.mk.inj (Except.ok.inj h)
            omega
          · cases h

theorem length_readNumber {cs rest : List Char} {number : Json}
    (h : readNumber cs = .ok (number, rest)) : rest.length < cs.length := by
  unfold readNumber at h
  split at h
  · have := length_readUnsigned h
    simp only [List.length_cons]
    omega
  · exact length_readUnsigned h

/-- A decimal with one digit before the point, and an exponent with its sign. -/
def scientificText (s : Scientific) : String :=
  let fraction := s.digits.tail
  String.ofList (s.digits.take 1 ++ if fraction.isEmpty then [] else '.' :: fraction) ++
    "e" ++ (if s.order < 0 then "-" else "+") ++ toString s.order.natAbs

/-- A decimal that never looks like a whole number. -/
def decimalText (s : Scientific) : String :=
  if s.order < -5 ∨ 15 < s.order then scientificText s
  else if 0 ≤ s.power then s.positional ++ ".0"
  else s.positional

/-- JSON has no text for what is not a finite number. -/
def floatText (x : Float) : String :=
  match Binary64.form x with
  | .finite negative units =>
    (if negative then "-" else "") ++ decimalText (Shortest.ofUnits .even units)
  | _ => "null"

end FieldRules.Json
