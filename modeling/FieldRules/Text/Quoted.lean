import FieldRules.Text.Hidden

/-!
# Quoted texts

A text between quotes, on one line: quotes and backslashes are escaped, line ends, tabs and the null
character have escapes of their own, and other hidden characters are written by their code.
-/

namespace FieldRules.Text

/-- The escape of a character by its code: `\u{301}`. -/
def escapeCode (c : Char) : List Char :=
  "\\u\x7b".toList ++ Nat.toDigits 16 c.toNat ++ ['\x7d']

def escape (c : Char) : List Char :=
  if c == '\x00' then ['\\', '0']
  else if c == '\t' then ['\\', 't']
  else if c == '\r' then ['\\', 'r']
  else if c == '\n' then ['\\', 'n']
  else if c == '"' || c == '\\' then ['\\', c]
  else if isHidden c then escapeCode c
  else [c]

def quoted (text : String) : String :=
  String.ofList ('"' :: text.toList.flatMap escape ++ ['"'])

/-- A list of quoted texts in square brackets. -/
def quotedList (texts : List String) : String :=
  "[" ++ ", ".intercalate (texts.map quoted) ++ "]"

end FieldRules.Text
