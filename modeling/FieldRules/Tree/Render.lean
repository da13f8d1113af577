import FieldRules.Tree.Traversal

/-!
# Showing trees

One line for each occurrence of a node, in order, indented by its depth.
-/

namespace FieldRules.Tree

def line (indent : Nat) (occurrence : Nat × Node) : String :=
  String.ofList (List.replicate (occurrence.1 * indent) ' ') ++ occurrence.2.label ++ "\n"

/-- The tree in lines, each level `indent` spaces further in. The width of the indentation has
no limit here, while a formatter with widths of 16 bits fails where `depth * indent` exceeds 65535. -/
def renderWith (indent : Nat) (tree : Tree) : String :=
  String.join (tree.preorder.map (line indent))

/-- The tree in lines, each level two spaces further in. -/
def render (tree : Tree) : String :=
  tree.renderWith 2

end FieldRules.Tree
