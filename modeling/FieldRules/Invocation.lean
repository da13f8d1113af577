import FieldRules.Text.Blank

/-!
# Invocations of checks

An identifier names a check, and behind the first `:` its parameters, separated by commas. There is no
quoting, so a parameter never holds a comma.
-/

namespace FieldRules

structure Invocation where
  name : String
  params : List String
  deriving DecidableEq, Repr

namespace Invocation

/-- The pieces between the commas, where `piece` is the start of the first one, last character
first. -/
def splitCommas (piece : List Char) : List Char → List (List Char)
  | [] => [piece.reverse]
  | ',' :: rest => piece.reverse :: splitCommas [] rest
  | c :: rest => splitCommas (c :: piece) rest

/-- Reads `name` or `name:param,…,param`, without the white space around each of them. -/
def ofIdentifier (text : String) : Invocation :=
  let trimmed := fun cs ↦ String.ofList (Text.trim cs)
  let cs := text.toList
  match cs.dropWhile (· != ':') with
  | [] => ⟨trimmed cs, []⟩
  | _ :: params => ⟨trimmed (cs.takeWhile (· != ':')), (splitCommas [] params).map trimmed⟩

/-- The identifier that names a check with its parameters. -/
def identifier (name : String) (params : List String) : String :=
  match params with
  | [] => name
  | _ => name ++ ":" ++ ",".intercalate params

end Invocation

end FieldRules
