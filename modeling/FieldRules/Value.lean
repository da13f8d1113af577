import FieldRules.Number.Shortest

/-!
# Values

The subjects of checks. A value is flat, and `absent` stands for a field that is not there at all.
-/

namespace FieldRules

inductive Value
  | absent
  | null
  | boolean (value : Bool)
  | integer (value : Int64)
  | float (value : Float)
  | string (value : String)

namespace Value

/-- A float in words: the fewest digits that read back, the upper of two that are as near, never with
an exponent. -/
def floatText (x : Float) : String :=
  match Binary64.form x with
  | .nan => "NaN"
  | .infinite negative => if negative then "-inf" else "inf"
  | .finite negative units =>
    (if negative then "-" else "") ++ (Shortest.ofUnits .upper units).positional

/-- Floats are equal as numbers: zero has one value, and no value is equal to NaN. -/
instance : BEq Value where
  beq
    | .absent, .absent => true
    | .null, .null => true
    | .boolean a, .boolean b => a == b
    | .integer a, .integer b => a == b
    | .float a, .float b => a == b
    | .string a, .string b => a == b
    | _, _ => false

/-- Neither there nor null nor the empty text. -/
def isBlank : Value → Bool
  | .absent => true
  | .null => true
  | .string text => text.isEmpty
  | _ => false

def text? : Value → Option String
  | .absent => none
  | .null => none
  | .boolean b => some (if b then "true" else "false")
  | .integer n => some (toString n.toInt)
  | .float x => some (floatText x)
  | .string text => some text

def typeName : Value → String
  | .absent => "absent"
  | .null => "null"
  | .boolean _ => "boolean"
  | .integer _ => "integer"
  | .float _ => "float"
  | .string _ => "string"

end Value

end FieldRules
