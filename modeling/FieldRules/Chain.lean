import FieldRules.Batch

/-!
# Chains of checks

Rules that are put together check by check, with their names and parameters given as they are. A
chain has the tokens of the rule that it stands for.
-/

namespace FieldRules

inductive Chain
  | check (name : String) (params : List String)
  | andCheck (chain : Chain) (name : String) (params : List String)
  | and (left right : Chain)
  | or (left right : Chain)
  deriving DecidableEq, Repr

namespace Chain

def identifier (name : String) (params : List String) : Token :=
  .identifier (Invocation.identifier name params)

/-- A chain in brackets, behind a combinator. -/
def bracketed (c : Combinator) (tokens : List Token) : List Token :=
  .combinator c :: .groupOpen :: (tokens ++ [.groupClose])

def tokens : Chain → List Token
  | .check name params => [identifier name params]
  | .andCheck chain name params => chain.tokens ++ [.combinator .and, identifier name params]
  | .and left right => left.tokens ++ bracketed .and right.tokens
  | .or left right => left.tokens ++ bracketed .or right.tokens

def rule (chain : Chain) : Rule :=
  .tokens chain.tokens

/-- The result of a chain for a value alone. -/
def validate (chain : Chain) (registry : Registry) (value : Value) : Except ValidationError Bool :=
  registry.validateOne value chain.rule

end Chain

end FieldRules
