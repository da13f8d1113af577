import FieldRules.Tree

/-!
# Walking through a tree

The nodes below the root, each as often as it occurs, with the number of groups around it. A group
that contains itself would occur without end; an occurrence deeper than the tree has nodes can only
come from such a group, and the walk leaves it out, together with children that are not in the tree.
-/

namespace FieldRules.Tree

/-- A node and the number of groups around it. -/
structure Occurrence where
  depth : Nat
  id : NodeId
  deriving DecidableEq, Repr

/-- Replaces an occurrence by those of its children, in order, ahead of what is still to be seen. -/
def descend (tree : Tree) (o : Occurrence) (pending : List Occurrence) : List Occurrence :=
  (tree.children o.id).map (⟨o.depth + 1, ·⟩) ++ pending

/-- The sum of some weights. -/
@[simp] def total : List Nat → Nat
  | [] => 0
  | weight :: rest => weight + total rest

theorem total_append (weights more : List Nat) :
    total (weights ++ more) = total weights + total more := by
  induction weights with
  | nil => simp
  | cons weight rest ih => simp [ih, Nat.add_assoc]

/-- A bound on the work below a node, as far as `room` levels down. -/
def weight (tree : Tree) : (room : Nat) → NodeId → Nat
  | 0, _ => 1
  | room + 1, id => total ((tree.children id).map (tree.weight room)) + 2

theorem weight_pos (tree : Tree) (room : Nat) (id : NodeId) : 0 < tree.weight room id := by
  cases room <;> simp [weight]

/-- The room that is left below an occurrence. -/
def Occurrence.weight (tree : Tree) (o : Occurrence) : Nat :=
  tree.weight (tree.size + 1 - o.depth) o.id

theorem Occurrence.weight_eq (tree : Tree) (o : Occurrence) (h : o.depth ≤ tree.size) :
    o.weight tree =
      total ((tree.children o.id).map fun id ↦ Occurrence.weight tree ⟨o.depth + 1, id⟩) + 2 := by
  have room : tree.size + 1 - o.depth = (tree.size - o.depth) + 1 := by omega
  simp [Occurrence.weight, room, Tree.weight]

theorem total_weight_descend_lt (tree : Tree) (o : Occurrence) (pending : List Occurrence)
    (h : o.depth ≤ tree.size) :
    total ((tree.descend o pending).map (·.weight tree)) <
      total ((o :: pending).map (·.weight tree)) := by
  have := o.weight_eq tree h
  simp only [descend, List.map_append, List.map_map, total_append, List.map_cons, total,
    Function.comp_def]
  omega

/-- The nodes that occur in `pending` and below, behind those seen before. -/
def walk (tree : Tree) (seen : Array (Nat × Node)) : List Occurrence → Array (Nat × Node)
  | [] => seen
  | o :: pending =>
    if o.depth ≤ tree.size then
      match tree.get? o.id with
      | some node => tree.walk (seen.push (o.depth, node)) (tree.descend o pending)
      | none => tree.walk seen pending
    else tree.walk seen pending
termination_by pending => total (pending.map (·.weight tree))
decreasing_by
  · exact tree.total_weight_descend_lt o pending (by assumption)
  all_goals
    have := tree.weight_pos (tree.size + 1 - o.depth) o.id
    simp only [List.map_cons, total, Occurrence.weight]
    omega

/-- The nodes from the root on, in the order in which they occur, with their depths. -/
def preorder (tree : Tree) : List (Nat × Node) :=
  (tree.walk #[] [⟨0, tree.root⟩]).toList

end FieldRules.Tree
