import FieldRules.Text.Blank
import FieldRules.Token

/-!
# Reading tokens from text

The brackets, `!`, `||` and `&&` stand for themselves. What lies between them is the text of an
identifier, without the white space at its ends, and no token at all if nothing else is there. A
single `|` or `&` is an ordinary character, so every text has tokens.
-/

namespace FieldRules.Token

/-- Ends the identifier whose characters, last first, are `pending`. -/
def flush (pending : List Char) (tokens : Array Token) : Array Token :=
  match Text.trim pending.reverse with
  | [] => tokens
  | text => tokens.push (.identifier (String.ofList text))

/-- Reads on behind `tokens` and the characters `pending` of an identifier, last first. -/
def scan (pending : List Char) (tokens : Array Token) : List Char → Array Token
  | [] => flush pending tokens
  | '(' :: rest => scan [] ((flush pending tokens).push .groupOpen) rest
  | ')' :: rest => scan [] ((flush pending tokens).push .groupClose) rest
  | '!' :: rest => scan [] ((flush pending tokens).push .negation) rest
  | '|' :: '|' :: rest => scan [] ((flush pending tokens).push (.combinator .or)) rest
  | '&' :: '&' :: rest => scan [] ((flush pending tokens).push (.combinator .and)) rest
  | c :: rest => scan (c :: pending) tokens rest

end Token

/-- The tokens of the text of a rule. -/
def tokenize (text : String) : List Token :=
  (Token.scan [] #[] text.toList).toList

end FieldRules
