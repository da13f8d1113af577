import FieldRules.Evaluation
import FieldRules.Rule

/-!
# Validating batches

A batch gives fields their values and their rules. Every rule sees the values of all fields, whichever
stands first, and the first rule that fails ends the whole batch.
-/

namespace FieldRules

/-- What stops a validation. -/
inductive ValidationError
  | parse (error : ParseError)
  | eval (error : EvalError)
  deriving DecidableEq, Repr

def ValidationError.message : ValidationError → String
  | .parse error => "Parse error: " ++ error.message
  | .eval error => "Evaluation error: " ++ error.message

/-- The value of a field and the rule for it. -/
structure Field where
  value : Value
  rule : Rule

abbrev Batch := Fields Field

namespace Registry

/-- Parses a rule and evaluates it for a value among the fields of a table. -/
def judge (registry : Registry) (table : Fields Value) (value : Value) (rule : Rule) :
    Logged (Except ValidationError Bool) :=
  match rule.parse with
  | .error e => ⟨.error (.parse e), #[]⟩
  | .ok tree =>
    let run := Setting.evaluation ⟨registry, table, value⟩ tree
    ⟨run.value.mapError .eval, run.events⟩

/-- Validates the fields of a list one after the other, and adds what they give to the results. -/
def validateFields (registry : Registry) (table : Fields Value) (results : Fields Bool) :
    List (String × Field) → Logged (Except ValidationError (Fields Bool))
  | [] => ⟨.ok results, #[]⟩
  | (name, field) :: rest =>
    let run := registry.judge table field.value field.rule
    match run.value with
    | .error e => ⟨.error e, run.events⟩
    | .ok outcome =>
      let later := registry.validateFields table (results.insert name outcome) rest
      ⟨later.value, run.events.push (.validatedField name outcome) ++ later.events⟩

/-- The values of a batch by name. -/
def table (batch : Batch) : Fields Value :=
  batch.map Field.value

/-- Validates a batch and reports on it. -/
def validation (registry : Registry) (batch : Batch) :
    Logged (Except ValidationError (Fields Bool)) :=
  let run := registry.validateFields (table batch) ∅ batch.entries
  match run.value with
  | .error e => ⟨.error e, run.events⟩
  | .ok results =>
    let passed := (results.entries.filter (·.2)).length
    ⟨.ok results, run.events.push (.validatedBatch batch.size passed)⟩

/-- The results of the fields of a batch, under their names and in their order. -/
def validate (registry : Registry) (batch : Batch) : Except ValidationError (Fields Bool) :=
  (registry.validation batch).value

/-- The name of a value that is validated alone. -/
def singleField : String := "value"

/-- Validates a value alone and reports on it. -/
def validationOne (registry : Registry) (value : Value) (rule : Rule) :
    Logged (Except ValidationError Bool) :=
  registry.judge ((∅ : Fields Value).insert singleField value) value rule

/-- The result of a rule for a value alone. -/
def validateOne (registry : Registry) (value : Value) (rule : Rule) : Except ValidationError Bool :=
  (registry.validationOne value rule).value

end Registry

end FieldRules
