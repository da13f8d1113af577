import FieldRules.Proofs.Brackets

/-!
# Bodies of groups

What a group holds, from left to right, with the groups in it written out in place. A body has no
ids, so nothing in it is shared and nothing contains itself. Bodies are the shapes of the trees that
come from tokens: each is written in exactly one way as a balanced sequence of tokens, and each such
sequence writes a body.
-/

namespace FieldRules

/-- What stands in a group beside other groups. -/
inductive Leaf
  | identifier (text : String)
  | combinator (combinator : Combinator)
  | negation
  deriving DecidableEq, Repr

namespace Leaf

def token : Leaf → Token
  | .identifier text => .identifier text
  | .combinator c => .combinator c
  | .negation => .negation

def kind : Leaf → NodeKind
  | .identifier text => .identifier text
  | .combinator c => .combinator c
  | .negation => .negation

theorem kind_injective {l m : Leaf} (h : l.kind = m.kind) : l = m := by
  cases l <;> cases m <;> cases h <;> rfl

theorem kind_ne_group (l : Leaf) (children : Array NodeId) : l.kind ≠ .group children := by
  cases l <;> simp [kind]

end Leaf

/-- The ordered tree of what a group holds: leaves, and groups with bodies of their own. -/
inductive Body
  | empty
  | leaf (l : Leaf) (rest : Body)
  | group (inside rest : Body)
  deriving DecidableEq, Repr

namespace Body

/-- The tokens between the brackets of a group with this body. -/
def tokens : Body → List Token
  | .empty => []
  | .leaf l rest => l.token :: rest.tokens
  | .group inside rest => .groupOpen :: (inside.tokens ++ .groupClose :: rest.tokens)

def size : Body → Nat
  | .empty => 0
  | .leaf _ rest => rest.size + 1
  | .group inside rest => inside.size + rest.size + 1

/-- The number of groups that stand inside each other in a body. -/
def height : Body → Nat
  | .empty => 0
  | .leaf _ rest => rest.height
  | .group inside rest => max (inside.height + 1) rest.height

/-- Tokens that close one group after another, with the bodies that stand behind the brackets. -/
def closing : List Body → List Token
  | [] => []
  | body :: outer => .groupClose :: (body.tokens ++ closing outer)

theorem exists_tokens_append_closing {tokens : List Token} {depth : Nat}
    (h : Token.Closing depth tokens) :
    ∃ (body : Body) (outer : List Body), outer.length = depth ∧
      tokens = body.tokens ++ closing outer := by
  induction tokens generalizing depth with
  | nil =>
      have hdepth : depth = 0 := by simpa using h.closes_eq.symm
      exact ⟨.empty, [], hdepth.symm, rfl⟩
  | cons token rest ih =>
      obtain ⟨hfirst, hrest⟩ := h.tail
      obtain ⟨body, outer, hlength, rfl⟩ := ih hrest
      cases token with
      | groupOpen =>
          -- The body read so far stands in the group, and the next one behind it.
          cases outer with
          | nil => simp [Token.opens, Token.closes] at hlength
          | cons next outer =>
              exact ⟨.group body next, outer, by simpa [Token.opens, Token.closes] using hlength,
                by simp [Body.tokens, closing]⟩
      | groupClose =>
          simp only [Token.opens, Token.closes, List.count_singleton] at hfirst hlength
          exact ⟨.empty, body :: outer, by grind, rfl⟩
      | combinator c => exact ⟨.leaf (.combinator c) body, outer, hlength, rfl⟩
      | identifier text => exact ⟨.leaf (.identifier text) body, outer, hlength, rfl⟩
      | negation => exact ⟨.leaf .negation body, outer, hlength, rfl⟩

theorem exists_tokens_eq {tokens : List Token} (h : Token.Balanced tokens) :
    ∃ body : Body, body.tokens = tokens := by
  obtain ⟨body, outer, hlength, rfl⟩ := exists_tokens_append_closing h.closing
  cases List.length_eq_zero_iff.mp hlength
  exact ⟨body, by simp [closing]⟩

end Body

end FieldRules
