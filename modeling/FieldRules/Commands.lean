import FieldRules.Batch.Json
import FieldRules.Checks
import FieldRules.Json.Reader
import FieldRules.Reference
import FieldRules.Tree.Render

/-!
# Commands

What can be done with rules from outside, with texts for what goes in and what comes out.
-/

namespace FieldRules

/-- What makes a command fail. -/
inductive CommandError
  | parse (error : ParseError)
  | validation (error : ValidationError)
  | json (fault : Json.Fault)
  | batch (error : BatchError)
  | noInput
  | unknownCategory (name : String)
  /-- The input is not a text in UTF-8. -/
  | notText

def Json.Fault.message : Json.Fault → String
  | .endOfText => "Invalid JSON: the text ends too early"
  | .malformed => "Invalid JSON: the text is malformed"

def CommandError.message : CommandError → String
  | .parse error => "Parse error: " ++ error.message
  | .validation error => error.message
  | .json fault => fault.message
  | .batch error => error.message
  | .noInput => "No input provided. Use --input or pipe JSON to stdin."
  | .unknownCategory name =>
    "Unknown category: '" ++ name ++ "'\nRun 'pupil docs' to see available categories."
  | .notText => "IO error: stream did not contain valid UTF-8"

namespace Command

/-- Checks a value by a rule, an absent value if none is given. -/
def check (rule : String) (value : Option String) : Except CommandError Bool :=
  (Registry.standard.validateOne (value.elim .absent .string) (.text rule)).mapError .validation

/-- Validates a batch in JSON, and gives the results in JSON. -/
def batch (input : Option String) (onLines : Bool) : Except CommandError String :=
  match input with
  | none => .error .noInput
  | some text =>
    match Json.read text with
    | .error e => .error (.json e)
    | .ok json =>
      match Batch.ofJson json with
      | .error e => .error (.batch e)
      | .ok batch =>
        match Registry.standard.validate batch with
        | .error e => .error (.validation e)
        | .ok results => .ok ((Batch.resultsToJson results).print onLines)

/-- The tokens of a rule in JSON. -/
def tokens (rule : String) (onLines : Bool) : String :=
  (Token.listToJson (tokenize rule)).print onLines

/-- The tree of a rule in lines. -/
def tree (rule : String) : Except CommandError String :=
  match Rule.parse (.text rule) with
  | .error e => .error (.parse e)
  | .ok tree => .ok tree.render

/-- The names of the checks that every rule can use. -/
def checkNames : List String :=
  Registry.standard.names

/-- The reference text of a category. -/
def reference (name : String) : Except CommandError String :=
  match Reference.Category.ofName? name with
  | some category => .ok category.text
  | none => .error (.unknownCategory name)

end Command

end FieldRules
