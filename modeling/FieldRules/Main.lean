import FieldRules.CommandLine

/-!
# The program

Reads the command line and the standard input, and leaves the outcome behind.
-/

open FieldRules.CommandLine

/-- The standard input, unless a person would have to type it. -/
def readInput : IO (Option ByteArray) := do
  let stdin ← IO.getStdin
  if ← stdin.isTty then return none
  return some (← stdin.readBinToEnd)

def main (arguments : List String) : IO UInt32 := do
  let outcome ←
    match Request.ofArguments? arguments with
    | none => pure Outcome.refusal
    | some request => do
      let input ← if request.readsInput then readInput else pure none
      pure (request.run input)
  IO.print outcome.stdout
  IO.eprint outcome.stderr
  return outcome.code
