import FieldRules.Event
import FieldRules.Fields
import FieldRules.Text.Uppercase
import FieldRules.Value

/-!
# Checks and their registry

A check judges a value by its parameters, and may look at the other fields of the batch. Registering
a check `foo` installs four: `foo` itself, `otherFoo` for the field named by the first parameter, and
`notFoo` and `notOtherFoo` for their negations.
-/

namespace FieldRules

/-- A predicate of the fields of a batch, of the value in question and of the parameters. -/
abbrev Check := Fields Value → Value → List String → Bool

namespace Check

/-- The check of the field that the first parameter names, with the other parameters. A field that
is not there is absent. -/
def redirected (check : Check) : Check := fun fields _ params ↦
  check fields ((fields.get? (params.headD "")).getD .absent) params.tail

def negated (check : Check) : Check := fun fields value params ↦
  !check fields value params

end Check

/-- A name behind another word: `derivedName "other" "min"` is `otherMin`. -/
def derivedName (word name : String) : String :=
  word ++ Text.capitalize name

def otherName (name : String) : String :=
  derivedName "other" name

def notName (name : String) : String :=
  derivedName "not" name

/-- The checks that can be invoked by name. -/
structure Registry where
  checks : Fields Check

namespace Registry

def empty : Registry :=
  ⟨∅⟩

def get? (registry : Registry) (name : String) : Option Check :=
  registry.checks.get? name

def contains (registry : Registry) (name : String) : Bool :=
  registry.checks.contains name

def size (registry : Registry) : Nat :=
  registry.checks.size

def isEmpty (registry : Registry) : Bool :=
  registry.checks.isEmpty

/-- The names of all checks in the order of their characters. -/
def names (registry : Registry) : List String :=
  registry.checks.names.mergeSort fun a b ↦ decide (a ≤ b)

/-- The four names under which a check is installed, with what is installed there. -/
def variants (name : String) (check : Check) : List (String × Check) :=
  [(name, check),
    (otherName name, check.redirected),
    (notName name, check.negated),
    (notName (otherName name), check.redirected.negated)]

/-- Installs a check and its variants in place of what their names stood for. -/
def register (registry : Registry) (name : String) (check : Check) : Registry :=
  ⟨registry.checks.insertAll (variants name check)⟩

/-- Registers a check and reports it. -/
def registration (registry : Registry) (name : String) (check : Check) : Logged Registry := do
  Logged.emit (if registry.contains name then .replacing name else .registering name)
  return registry.register name check

/-- Registers several checks in their order. -/
def registerAll (registry : Registry) : List (String × Check) → Logged Registry
  | [] => pure registry
  | (name, check) :: rest => do
    let registry ← registry.registration name check
    registry.registerAll rest

/-- The registry in words. -/
def describe (registry : Registry) : String :=
  "CheckRegistry \x7b checks: " ++ Text.quotedList registry.names ++ " \x7d"

end Registry

end FieldRules
