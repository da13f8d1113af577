import FieldRules.Checks.Bounds
import FieldRules.Checks.Email

/-!
# The standard checks

The checks that every rule can use, with their variants.
-/

namespace FieldRules

/-- Not absent, not null and not the empty text. -/
def Check.required : Check := fun _ value _ ↦
  !value.isBlank

namespace Registry

def standardChecks : List (String × Check) :=
  [("required", Check.required), ("min", Check.min), ("max", Check.max),
    ("between", Check.between), ("email", Check.email)]

/-- Registers the standard checks. -/
def withStandard (registry : Registry) : Logged Registry :=
  registry.registerAll standardChecks

/-- The registry of the standard checks. -/
def standard : Registry :=
  empty.withStandard.value

end Registry

end FieldRules
