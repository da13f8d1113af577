import FieldRules.Text.Quoted

/-!
# Events

What happens while checks are registered and rules are evaluated. A run gives its events together
with its result, in the order in which they happened.
-/

namespace FieldRules

/-- How much an event matters, the least first. -/
inductive Level
  | trace
  | debug
  | info
  | warn
  | error
  deriving DecidableEq, Repr

namespace Level

def name : Level → String
  | .trace => "TRACE"
  | .debug => "DEBUG"
  | .info => "INFO"
  | .warn => "WARN"
  | .error => "ERROR"

def rank : Level → Nat
  | .trace => 0
  | .debug => 1
  | .info => 2
  | .warn => 3
  | .error => 4

end Level

/-- One detail of an event. -/
inductive Detail
  | text (value : String)
  | flag (value : Bool)
  | number (value : Nat)
  deriving DecidableEq, Repr

inductive Event
  | registering (check : String)
  /-- A check is registered under a name that is taken. -/
  | replacing (check : String)
  | invoked (check valueType : String) (params : List String) (outcome : Bool)
  | validatedField (field : String) (outcome : Bool)
  | validatedBatch (fields passed : Nat)
  deriving DecidableEq, Repr

namespace Event

def level : Event → Level
  | .registering _ => .debug
  | .replacing _ => .debug
  | .invoked .. => .trace
  | .validatedField .. => .debug
  | .validatedBatch .. => .info

def message : Event → String
  | .registering _ => "registering check"
  | .replacing _ => "replacing registered check"
  | .invoked .. => "invoked check"
  | .validatedField .. => "validated field"
  | .validatedBatch .. => "validated batch"

/-- The details by name, in alphabetical order. -/
def details : Event → List (String × Detail)
  | .registering check => [("check", .text check)]
  | .replacing check => [("check", .text check)]
  | .invoked check valueType params outcome =>
    [("check", .text check), ("outcome", .flag outcome), ("params", .text (Text.quotedList params)),
      ("value", .text valueType)]
  | .validatedField field outcome => [("field", .text field), ("outcome", .flag outcome)]
  | .validatedBatch fields passed => [("fields", .number fields), ("passed", .number passed)]

end Event

/-- A result with the events on the way to it. -/
structure Logged (α : Type) where
  value : α
  events : Array Event

namespace Logged

instance : Monad Logged where
  pure a := ⟨a, #[]⟩
  bind x f := ⟨(f x.value).value, x.events ++ (f x.value).events⟩

/-- Nothing but an event. -/
def emit (event : Event) : Logged Unit :=
  ⟨(), #[event]⟩

/-- The events of at least some level. -/
def atLeast (level : Level) (x : Logged α) : List Event :=
  x.events.toList.filter (level.rank ≤ ·.level.rank)

end Logged

end FieldRules
