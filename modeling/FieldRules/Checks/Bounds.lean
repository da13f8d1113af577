import FieldRules.Number
import FieldRules.Registry

/-!
# Bounds on numbers and lengths

A number is bounded itself, and a text that is not a number is bounded in its length. A check whose
bound is missing or not a number is false.
-/

namespace FieldRules

/-- What the bounds of a value bound: a number, or the length of a text that is none. -/
def Value.magnitude? : Value → Option Number
  | .integer n => some (Number.ofInt n.toInt)
  | .float x => Number.ofText? (Value.floatText x)
  | .string text => some ((Number.ofText? text).getD (Number.ofInt text.length))
  | .absent => none
  | .null => none
  | .boolean _ => none

namespace Check

/-- The bound that is given by the parameter at an index. -/
def bound? (params : List String) (index : Nat) : Option Number :=
  params[index]?.bind Number.ofText?

def atLeast : Option Number → Option Number → Bool
  | some value, some bound => (value.compare bound).isGE
  | _, _ => false

def atMost : Option Number → Option Number → Bool
  | some value, some bound => (value.compare bound).isLE
  | _, _ => false

/-- At least the first parameter. -/
def min : Check := fun _ value params ↦
  atLeast value.magnitude? (bound? params 0)

/-- At most the first parameter. -/
def max : Check := fun _ value params ↦
  atMost value.magnitude? (bound? params 0)

/-- At least the first parameter and at most the second. -/
def between : Check := fun _ value params ↦
  atLeast value.magnitude? (bound? params 0) && atMost value.magnitude? (bound? params 1)

end Check

end FieldRules
