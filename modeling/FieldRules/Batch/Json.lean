import FieldRules.Batch
import FieldRules.Json.Printer
import FieldRules.Token.Json

/-!
# Batches in JSON

A batch is an object that gives every field a pair of a value and a rule. It is read field by field,
and what is wrong with the first bad field is what is wrong with the batch.
-/

namespace FieldRules

/-- What keeps a JSON value from being a batch. -/
inductive BatchError
  | notAnObject
  /-- What a field has is not an array of two. -/
  | notAPair (field : String)
  | badRule (error : ParseError)
  /-- Arrays and objects are no values of fields. -/
  | unsupportedValue (found : Json)

def BatchError.message : BatchError → String
  | .notAnObject => "Malformed batch: expected an object of fields"
  | .notAPair field => "Malformed batch: field '" ++ field ++ "' must be a [value, rule] pair"
  | .badRule error => "Parse error: " ++ error.message
  | .unsupportedValue found => "Unsupported value: " ++ found.compact

/-- A whole number that has no place among the integers becomes a float. -/
def Value.ofJson : Json → Except BatchError Value
  | .null => .ok .null
  | .boolean b => .ok (.boolean b)
  | .integer n =>
    if -Int.pow 2 63 ≤ n ∧ n < Int.pow 2 63 then .ok (.integer (Int64.ofInt n)) else .ok (.float (Float.ofInt n))
  | .float x => .ok (.float x)
  | .string text => .ok (.string text)
  | json => .error (.unsupportedValue json)

namespace Batch

/-- Reads what stands under the name of a field. -/
def fieldOfJson (name : String) : Json → Except BatchError Field
  | .array [value, rule] =>
    match Rule.ofJson rule with
    | .error e => .error (.badRule e)
    | .ok rule => (Value.ofJson value).map (⟨·, rule⟩)
  | _ => .error (.notAPair name)

/-- Reads members into a batch, behind the fields that it has. -/
def addMembers (batch : Batch) : List (String × Json) → Except BatchError Batch
  | [] => .ok batch
  | (name, json) :: rest =>
    match fieldOfJson name json with
    | .error e => .error e
    | .ok field => addMembers (batch.insert name field) rest

def ofJson : Json → Except BatchError Batch
  | .object members => addMembers ∅ members
  | _ => .error .notAnObject

/-- The results of a batch as an object of booleans. -/
def resultsToJson (results : Fields Bool) : Json :=
  .object (results.entries.map fun (name, outcome) ↦ (name, .boolean outcome))

end Batch

end FieldRules
