import FieldRules.Token

/-!
# Rule trees

A parsed rule keeps all its nodes in one array. A node is known by its place there, and a group holds
the ids of its children, so a tree is a flat value however deep the rule nests. Nothing forces the ids
to be in range or the groups to be nested properly: that is a property of the trees that come from
tokens.
-/

namespace FieldRules

/-- The place of a node among the nodes of its tree. -/
structure NodeId where
  index : Nat
  deriving DecidableEq, Repr

def NodeId.label (id : NodeId) : String :=
  "#" ++ toString id.index

inductive NodeKind
  /-- A check, with its parameters if it has any. -/
  | identifier (text : String)
  /-- Sets the way in which the results after it are folded. -/
  | combinator (combinator : Combinator)
  | group (children : Array NodeId)
  /-- Inverts the next result of its group. -/
  | negation
  deriving DecidableEq, Repr

structure Node where
  id : NodeId
  kind : NodeKind
  deriving DecidableEq, Repr

namespace Node

/-- The children of a group; every other node has none. -/
def children (node : Node) : Array NodeId :=
  match node.kind with
  | .group children => children
  | _ => #[]

def isGroup (node : Node) : Bool :=
  match node.kind with
  | .group _ => true
  | _ => false

/-- The node in words, for a person to read: `#3 group`. -/
def label (node : Node) : String :=
  node.id.label ++
    match node.kind with
    | .identifier text => " identifier " ++ text
    | .combinator c => " combinator " ++ c.symbol
    | .group _ => " group"
    | .negation => " negation"

end Node

structure Tree where
  nodes : Array Node
  root : NodeId
  deriving DecidableEq, Repr

namespace Tree

def size (tree : Tree) : Nat :=
  tree.nodes.size

def get? (tree : Tree) (id : NodeId) : Option Node :=
  tree.nodes[id.index]?

/-- The ids of the children of a node; none if it is not a group of the tree. -/
def children (tree : Tree) (id : NodeId) : List NodeId :=
  match tree.get? id with
  | some node => node.children.toList
  | none => []

end Tree

end FieldRules
