import FieldRules.Proofs.Parsing
import FieldRules.Tree.Traversal

/-!
# Nodes in pre-order

In pre-order a node stands ahead of its children, and what is below a child ahead of the next child.
The walk through a tree keeps the nodes that it has still to see on a stack, and sees them in this
order. It stops on its own wherever the order is finite, so its bound on the depth then plays no
part. The nodes of a parsed tree lie in their arena as they are visited.
-/

namespace FieldRules

namespace Tree

variable {tree : Tree}

/-- The nodes `ids` and all below them in pre-order, each as often as it occurs, with its depth. -/
inductive Visits (tree : Tree) : (depth : Nat) → List NodeId → List (Nat × Node) → Prop
  | nil {depth} : Visits tree depth [] []
  | cons {depth id ids node below later} (hnode : tree.get? id = some node)
      (hbelow : Visits tree (depth + 1) (tree.children id) below)
      (hlater : Visits tree depth ids later) :
      Visits tree depth (id :: ids) ((depth, node) :: (below ++ later))

/-- The walk comes to an end with nothing left to see, and every node on its way is there. -/
inductive Walks (tree : Tree) : List Occurrence → List (Nat × Node) → Prop
  | done : Walks tree [] []
  | next {o pending node later} (hnode : tree.get? o.id = some node)
      (hnext : Walks tree (tree.descend o pending) later) :
      Walks tree (o :: pending) ((o.depth, node) :: later)

/-- The nodes on top of the stack are visited with all below them before the others are seen. -/
theorem Visits.walks_append {depth : Nat} {ids : List NodeId} {visited later : List (Nat × Node)}
    {pending : List Occurrence} (h : tree.Visits depth ids visited)
    (hlater : tree.Walks pending later) :
    tree.Walks (ids.map (⟨depth, ·⟩) ++ pending) (visited ++ later) := by
  induction h generalizing pending later with
  | nil => exact hlater
  | cons hnode _ _ ihBelow ihLater =>
      rw [List.cons_append, List.append_assoc]
      exact .next hnode (ihBelow (ihLater hlater))

theorem Visits.walks {depth : Nat} {ids : List NodeId} {visited : List (Nat × Node)}
    (h : tree.Visits depth ids visited) : tree.Walks (ids.map (⟨depth, ·⟩)) visited := by
  have hwalks := h.walks_append .done
  rwa [List.append_nil, List.append_nil] at hwalks

theorem Walks.walk_eq {pending : List Occurrence} {later : List (Nat × Node)}
    (h : tree.Walks pending later) (hdepth : ∀ o ∈ later, o.1 ≤ tree.size)
    (seen : Array (Nat × Node)) : tree.walk seen pending = seen ++ later.toArray := by
  induction h generalizing seen with
  | done => simp [walk]
  | next hnode _ ih =>
      rw [List.forall_mem_cons] at hdepth
      rw [walk, if_pos hdepth.1]
      simp [hnode, ih hdepth.2]

theorem Visits.preorder_eq {visited : List (Nat × Node)} (h : tree.Visits 0 [tree.root] visited)
    (hdepth : ∀ o ∈ visited, o.1 ≤ tree.size) : tree.preorder = visited := by
  rw [preorder, show [(⟨0, tree.root⟩ : Occurrence)] = [tree.root].map (⟨0, ·⟩) from rfl,
    h.walks.walk_eq hdepth]
  simp

end Tree

namespace Body

/-- The nodes of a body in the order in which they are made, the first under the id `n`, each with
the number of groups around it if the body has `depth` of them. -/
def occurrences (depth n : Nat) : Body → List (Nat × Node)
  | .empty => []
  | .leaf l rest => (depth, ⟨⟨n⟩, l.kind⟩) :: rest.occurrences depth (n + 1)
  | .group inside rest =>
    (depth, ⟨⟨n⟩, .group (inside.ids (n + 1)).toArray⟩) ::
      (inside.occurrences (depth + 1) (n + 1) ++ rest.occurrences depth (n + 1 + inside.size))

theorem map_snd_occurrences (depth n : Nat) (body : Body) :
    (body.occurrences depth n).map Prod.snd = body.nodes n := by
  induction body generalizing depth n with
  | empty => rfl
  | leaf l rest ih => simp [occurrences, nodes, ih]
  | group inside rest ihInside ihRest => simp [occurrences, nodes, ihInside, ihRest]

theorem fst_occurrences_le {depth n : Nat} {body : Body} {o : Nat × Node}
    (ho : o ∈ body.occurrences depth n) : o.1 ≤ depth + body.height := by
  induction body generalizing depth n with
  | empty => cases ho
  | leaf l rest ih =>
      rcases List.mem_cons.mp ho with rfl | ho
      · exact Nat.le_add_right _ _
      · exact ih ho
  | group inside rest ihInside ihRest =>
      rw [occurrences, List.mem_cons, List.mem_append] at ho
      rw [height]
      rcases ho with rfl | ho | ho
      · exact Nat.le_add_right _ _
      · have hle := ihInside ho
        omega
      · have hle := ihRest ho
        omega

end Body

namespace Tree

theorem visits_ids {tree : Tree} {body : Body} {n : Nat} (h : tree.Stores n (body.nodes n))
    (depth : Nat) : tree.Visits depth (body.ids n) (body.occurrences depth n) := by
  induction body generalizing n depth with
  | empty => exact .nil
  | leaf l rest ih =>
      obtain ⟨hfirst, hrest⟩ := h.of_cons
      have hkind : tree.kind? ⟨n⟩ = some l.kind := by simp [kind?, hfirst]
      have hbelow : tree.Visits (depth + 1) (tree.children ⟨n⟩) [] := by
        rw [children_of_kind?_leaf hkind]
        exact .nil
      exact .cons hfirst hbelow (ih hrest depth)
  | group inside rest ihInside ihRest =>
      obtain ⟨hfirst, hbelow⟩ := h.of_cons
      obtain ⟨hinside, hrest⟩ := hbelow.of_append
      rw [Body.length_nodes] at hrest
      have hkind : tree.kind? ⟨n⟩ = some (.group (inside.ids (n + 1)).toArray) := by
        simp [kind?, hfirst]
      refine .cons hfirst ?_ (ihRest hrest depth)
      rw [children_of_kind?_group hkind]
      exact ihInside hinside (depth + 1)

theorem stores_nodes (tree : Tree) : tree.Stores 0 tree.nodes.toList := by
  intro i _
  simp

/-- The arena holds the root as it would hold a group outside all others. -/
theorem toList_nodes_ofBody (body : Body) :
    (ofBody body).nodes.toList = (Body.group body .empty).nodes 0 := by
  simp [ofBody, Body.nodes]

theorem visits_ofBody (body : Body) :
    (ofBody body).Visits 0 [(ofBody body).root] ((Body.group body .empty).occurrences 0 0) := by
  have hstores := (ofBody body).stores_nodes
  rw [toList_nodes_ofBody] at hstores
  exact visits_ids hstores 0

theorem preorder_ofBody (body : Body) :
    (ofBody body).preorder = (Body.group body .empty).occurrences 0 0 := by
  have hheight := (depicts_ofBody body).height_lt_size (sound_ofBody body)
  refine (visits_ofBody body).preorder_eq fun o ho ↦ ?_
  have hle := Body.fst_occurrences_le ho
  simp only [Body.height] at hle
  omega

end Tree

end FieldRules
