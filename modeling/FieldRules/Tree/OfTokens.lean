import FieldRules.Json
import FieldRules.Tree.Arena

/-!
# From tokens to trees

Tokens become nodes in their order, under a root group that no bracket stands for. A group gets its
id where it opens and its place among its parent's children where it closes. The groups that are
still open are kept on a stack, so the depth of a rule is bounded by memory alone.
-/

namespace FieldRules

/-- What keeps a rule from becoming a tree. -/
inductive ParseError
  /-- The rule was given as a JSON value that is neither a string nor an array. -/
  | notARule (found : Json.Kind)
  /-- The rule was given as an array that does not hold tokens. -/
  | malformedTokens
  /-- The rule ends while `depth` groups are open. -/
  | unclosedBlocks (depth : Nat)
  /-- The token at `position` closes a group where none is open. -/
  | unmatchedClose (position : Nat)
  deriving DecidableEq, Repr

def ParseError.message : ParseError → String
  | .notARule found => "Unknown input type: " ++ found.name
  | .malformedTokens => "Unknown input type: malformed token sequence"
  | .unclosedBlocks depth => "Unclosed blocks: " ++ toString depth ++ " group(s) never closed"
  | .unmatchedClose position => "No block to ascend to at token " ++ toString position

namespace Tree

/-- A tree under construction: `current` is the innermost open group, `enclosing` are the ones around
it, from the inside out, and `position` is the number of tokens taken. -/
structure Growth where
  arena : Arena
  current : NodeId
  enclosing : List NodeId
  position : Nat

namespace Growth

/-- Nothing but the root group. -/
def start : Growth :=
  let (root, arena) := ({} : Arena).group
  ⟨arena, root, [], 0⟩

/-- Makes a leaf under the innermost open group. -/
def leaf (g : Growth) (kind : NodeKind) : Growth :=
  let (id, arena) := g.arena.make kind
  { g with arena := arena.attach g.current id, position := g.position + 1 }

def opened (g : Growth) : Growth :=
  let (id, arena) := g.arena.group
  ⟨arena, id, g.current :: g.enclosing, g.position + 1⟩

def closed (g : Growth) : Except ParseError Growth :=
  match g.enclosing with
  | [] => .error (.unmatchedClose g.position)
  | parent :: outer => .ok ⟨g.arena.attach parent g.current, parent, outer, g.position + 1⟩

def take (g : Growth) : Token → Except ParseError Growth
  | .groupOpen => .ok g.opened
  | .groupClose => g.closed
  | .combinator c => .ok (g.leaf (.combinator c))
  | .identifier text => .ok (g.leaf (.identifier text))
  | .negation => .ok (g.leaf .negation)

def takeAll (g : Growth) : List Token → Except ParseError Growth
  | [] => .ok g
  | token :: rest =>
    match g.take token with
    | .error e => .error e
    | .ok next => next.takeAll rest

end Growth

/-- The tree of a token sequence. Its root is the first node. -/
def ofTokens (tokens : List Token) : Except ParseError Tree :=
  match Growth.start.takeAll tokens with
  | .error e => .error e
  | .ok g =>
    if g.enclosing.isEmpty then .ok (g.arena.finish ⟨0⟩)
    else .error (.unclosedBlocks g.enclosing.length)

end Tree

end FieldRules
