import FieldRules.Number.Binary64
import FieldRules.Number.Decimal
import FieldRules.Text.Blank

/-!
# Numbers in checks

A number is known approximately, as a binary64 number, and exactly if it is a decimal of 96 bits. Two
numbers compare exactly if both are known exactly, and approximately otherwise.
-/

namespace FieldRules

structure Number where
  approx : Binary64
  exact : Option Decimal
  deriving DecidableEq, Repr

namespace Number

def ofInt (n : Int) : Number :=
  ⟨Binary64.ofInt n, Decimal.mk? n 0⟩

/-- Reads a text that is a literal of a finite number, up to the white space around it. -/
def ofText? (text : String) : Option Number :=
  match Literal.read (Text.trim text.toList) with
  | none => none
  | some l =>
    (Binary64.unitsOfDecimal? l.coefficient l.power).map fun units ↦
      ⟨.signed l.negative units, Decimal.ofLiteral? l⟩

def compare (a b : Number) : Ordering :=
  match a.exact, b.exact with
  | some x, some y => x.compare y
  | _, _ => Ord.compare a.approx.units b.approx.units

end Number

end FieldRules
