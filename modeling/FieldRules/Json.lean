/-!
# JSON values

Whole numbers are kept apart from the others, and an object keeps the order of its members.
-/

namespace FieldRules

inductive Json
  | null
  | boolean (value : Bool)
  | integer (value : Int)
  | float (value : Float)
  | string (value : String)
  | array (items : List Json)
  | object (members : List (String × Json))

namespace Json

/-- The kinds of JSON value. -/
inductive Kind
  | null
  | boolean
  | number
  | string
  | array
  | object
  deriving DecidableEq, Repr

def Kind.name : Kind → String
  | .null => "null"
  | .boolean => "boolean"
  | .number => "number"
  | .string => "string"
  | .array => "array"
  | .object => "object"

def kind : Json → Kind
  | .null => .null
  | .boolean _ => .boolean
  | .integer _ => .number
  | .float _ => .number
  | .string _ => .string
  | .array _ => .array
  | .object _ => .object

/-- What keeps a text from being JSON. -/
inductive Fault
  /-- The text ends too early. -/
  | endOfText
  | malformed
  deriving DecidableEq, Repr

/-- The fault of a text that goes on with `rest` where something else must stand. -/
def Fault.ofRest (rest : List Char) : Fault :=
  if rest.isEmpty then .endOfText else .malformed

end Json

end FieldRules
