import FieldRules.Tree

/-!
# Building trees

An arena makes nodes one after another, each with the next id, and hangs them under groups. It takes
any ids: a child may be attached twice, before it is made, or under itself.
-/

namespace FieldRules

/-- Adds a child to a group; every other node stays as it is. -/
def Node.adopt (child : NodeId) : Node → Node
  | ⟨id, .group children⟩ => ⟨id, .group (children.push child)⟩
  | node => node

/-- The nodes made so far. -/
structure Arena where
  nodes : Array Node := #[]
  deriving DecidableEq, Repr

namespace Arena

/-- The number of nodes made so far. -/
def issued (arena : Arena) : Nat :=
  arena.nodes.size

/-- Makes a node under the next id. -/
def make (arena : Arena) (kind : NodeKind) : NodeId × Arena :=
  let id : NodeId := ⟨arena.nodes.size⟩
  (id, ⟨arena.nodes.push ⟨id, kind⟩⟩)

def identifier (arena : Arena) (text : String) : NodeId × Arena :=
  arena.make (.identifier text)

def combinator (arena : Arena) (c : Combinator) : NodeId × Arena :=
  arena.make (.combinator c)

/-- Makes a group without children. -/
def group (arena : Arena) : NodeId × Arena :=
  arena.make (.group #[])

def negation (arena : Arena) : NodeId × Arena :=
  arena.make .negation

/-- Puts `child` behind the children of `parent`; nothing happens unless `parent` is a group made
before. -/
def attach (arena : Arena) (parent child : NodeId) : Arena :=
  ⟨arena.nodes.modify parent.index (·.adopt child)⟩

def finish (arena : Arena) (root : NodeId) : Tree :=
  ⟨arena.nodes, root⟩

end Arena

end FieldRules
