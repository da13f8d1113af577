import FieldRules.Json.Number
import FieldRules.Json.Text

/-!
# Writing JSON

A value is written on one line without spaces, or on several with an indentation of two spaces a
level.
-/

namespace FieldRules.Json

mutual

/-- The value on one line, without spaces. -/
def compact : Json → String
  | .null => "null"
  | .boolean b => if b then "true" else "false"
  | .integer n => toString n
  | .float x => floatText x
  | .string text => quoted text
  | .array items => "[" ++ ",".intercalate (compactItems items) ++ "]"
  | .object members => "\x7b" ++ ",".intercalate (compactMembers members) ++ "\x7d"

def compactItems : List Json → List String
  | [] => []
  | item :: rest => item.compact :: compactItems rest

def compactMembers : List (String × Json) → List String
  | [] => []
  | (key, value) :: rest => (quoted key ++ ":" ++ value.compact) :: compactMembers rest

end

/-- A line break with the indentation of a level. -/
def newline (level : Nat) : String :=
  "\n" ++ String.ofList (List.replicate (2 * level) ' ')

/-- Puts each part on a line of its own between brackets, which stand alone if there is no part. -/
def block (level : Nat) (opening closing : String) (parts : List String) : String :=
  if parts.isEmpty then opening ++ closing
  else
    opening ++ newline (level + 1) ++ ("," ++ newline (level + 1)).intercalate parts ++
      newline level ++ closing

mutual

/-- The value with every item and member on a line of its own, indented by two spaces a level. -/
def prettyAt (level : Nat) : Json → String
  | .array items => block level "[" "]" (prettyItems (level + 1) items)
  | .object members => block level "\x7b" "\x7d" (prettyMembers (level + 1) members)
  | json => json.compact

def prettyItems (level : Nat) : List Json → List String
  | [] => []
  | item :: rest => item.prettyAt level :: prettyItems level rest

def prettyMembers (level : Nat) : List (String × Json) → List String
  | [] => []
  | (key, value) :: rest =>
    (quoted key ++ ": " ++ value.prettyAt level) :: prettyMembers level rest

end

def pretty (json : Json) : String :=
  json.prettyAt 0

/-- The text of a value, on one line or on several. -/
def print (json : Json) (onLines : Bool) : String :=
  if onLines then json.pretty else json.compact

end FieldRules.Json
