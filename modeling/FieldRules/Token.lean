/-!
# Tokens of a rule

A rule is a sequence of check names, brackets, negations and the two combinators.
-/

namespace FieldRules

/-- The two ways in which the results of a group are folded together. -/
inductive Combinator
  | or
  | and
  deriving DecidableEq, Repr

def Combinator.symbol : Combinator → String
  | .or => "||"
  | .and => "&&"

inductive Token
  | groupOpen
  | groupClose
  | combinator (combinator : Combinator)
  /-- The name of a check, with its parameters if it has any: `between:3,10`. -/
  | identifier (text : String)
  | negation
  deriving DecidableEq, Repr

/-- The way a token is written in the text of a rule. -/
def Token.spelling : Token → String
  | .groupOpen => "("
  | .groupClose => ")"
  | .combinator c => c.symbol
  | .identifier text => text
  | .negation => "!"

end FieldRules
