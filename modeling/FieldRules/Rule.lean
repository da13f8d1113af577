import FieldRules.Token.Lexer
import FieldRules.Tree.OfTokens

/-!
# Rules

A rule is given as text or as the tokens themselves.
-/

namespace FieldRules

inductive Rule
  | text (written : String)
  | tokens (given : List Token)
  deriving DecidableEq, Repr

namespace Rule

def toTokens : Rule → List Token
  | .text written => tokenize written
  | .tokens given => given

def parse (rule : Rule) : Except ParseError Tree :=
  Tree.ofTokens rule.toTokens

end Rule

end FieldRules
