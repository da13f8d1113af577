import FieldRules.Json
import FieldRules.Rule

/-!
# Tokens in JSON

A token is an object with a `type`, and with a `value` if there is more to say about it. Reading also
takes a pair of the two, and an object that names a variant by its only key, except as the type in a
pair.
-/

namespace FieldRules

namespace Combinator

def name : Combinator → String
  | .or => "or"
  | .and => "and"

def ofName? (name : String) : Option Combinator :=
  if name = "or" then some .or else if name = "and" then some .and else none

end Combinator

namespace Token

def toJson : Token → Json
  | .groupOpen => .object [("type", .string "group_open")]
  | .groupClose => .object [("type", .string "group_close")]
  | .combinator c => .object [("type", .string "combinator"), ("value", .string c.name)]
  | .identifier text => .object [("type", .string "identifier"), ("value", .string text)]
  | .negation => .object [("type", .string "negation")]

def listToJson (tokens : List Token) : Json :=
  .array (tokens.map toJson)

/-- The variant that a string names, or the only key of an object whose value is null. -/
def variant? : Json → Option String
  | .string name => some name
  | .object [(name, .null)] => some name
  | _ => none

/-- The combinator that a `value` names. If the `value` stands before the `type`, an empty object
counts as null. -/
def combinator? (valueFirst : Bool) : Json → Option Combinator
  | .object [(name, .object [])] => if valueFirst then Combinator.ofName? name else none
  | json => (variant? json).bind Combinator.ofName?

/-- The token without a value that is named so. -/
def plain? (name : String) : Option Token :=
  if name = "group_open" then some .groupOpen
  else if name = "group_close" then some .groupClose
  else if name = "negation" then some .negation
  else none

/-- The token of a type's name and a value. -/
def ofParts? (valueFirst : Bool) (name : String) (value : Option Json) : Option Token :=
  match value with
  | none => plain? name
  | some .null => plain? name
  | some value =>
    if name = "combinator" then (combinator? valueFirst value).map .combinator
    else if name = "identifier" then
      match value with
      | .string text => some (.identifier text)
      | _ => none
    else none

/-- Reads a token. The type in a pair is a string. -/
def ofJson? : Json → Option Token
  | .array [.string name, value] => ofParts? false name (some value)
  | .object members => do
    let name ← (members.lookup "type").bind variant?
    let first := members.find? fun (key, _) ↦ key == "type" || key == "value"
    ofParts? (first.any (·.1 == "value")) name (members.lookup "value")
  | _ => none

end Token

/-- A rule is a string or an array of tokens. -/
def Rule.ofJson : Json → Except ParseError Rule
  | .string written => .ok (.text written)
  | .array items =>
    match items.mapM Token.ofJson? with
    | some given => .ok (.tokens given)
    | none => .error .malformedTokens
  | json => .error (.notARule json.kind)

end FieldRules
