import FieldRules.Proofs.Evaluation
import FieldRules.Proofs.Preorder

/-!
# The arena of a parsed tree

Every token but a closing bracket makes one node, in the order of the tokens, and every node but the
root becomes a child of the group that stands around its token. So a group has a smaller id than all
it holds, each of its children stands once under it and under no other, and the arena is in
pre-order.
-/

namespace FieldRules

open Token

/-- The token that makes a node of this kind. -/
def NodeKind.token : NodeKind → Token
  | .identifier text => .identifier text
  | .combinator c => .combinator c
  | .group _ => .groupOpen
  | .negation => .negation

/-- The tokens that make a node. -/
def Token.makers (tokens : List Token) : List Token :=
  tokens.filter (· ≠ .groupClose)

/-- The children of a node are in order, behind the node and in front of `limit`. -/
structure Node.ChildrenWithin (node : Node) (limit : Nat) : Prop where
  pairwise : node.children.toList.Pairwise fun a b ↦ a.index < b.index
  bounds : ∀ child ∈ node.children.toList, node.id.index < child.index ∧ child.index < limit

theorem Node.ChildrenWithin.mono {node : Node} {limit above : Nat} (h : node.ChildrenWithin limit)
    (hle : limit ≤ above) : node.ChildrenWithin above where
  pairwise := h.pairwise
  bounds := fun child hchild ↦ ⟨(h.bounds child hchild).1, (h.bounds child hchild).2.trans_le hle⟩

namespace Body

theorem makers_group (inside rest : Body) :
    makers (group inside rest).tokens =
      .groupOpen :: (makers inside.tokens ++ makers rest.tokens) := by
  simp [makers, tokens]

theorem makers_leaf (l : Leaf) (rest : Body) :
    makers (leaf l rest).tokens = l.token :: makers rest.tokens := by
  cases l <;> simp [makers, tokens, Leaf.token]

theorem map_token_nodes (n : Nat) (body : Body) :
    (body.nodes n).map (·.kind.token) = makers body.tokens := by
  induction body generalizing n with
  | empty => rfl
  | leaf l rest ih =>
      rw [makers_leaf, nodes, List.map_cons, ih]
      cases l <;> rfl
  | group inside rest ihInside ihRest =>
      rw [makers_group, nodes, List.map_cons, List.map_append, ihInside, ihRest]
      rfl

theorem map_id_nodes (n : Nat) (body : Body) :
    (body.nodes n).map Node.id = (List.range' n body.size).map NodeId.mk := by
  induction body generalizing n with
  | empty => rfl
  | leaf l rest ih => simp [nodes, size, List.range'_succ, ih]
  | group inside rest ihInside ihRest =>
      simp [nodes, size, List.range'_succ, ihInside, ihRest, ← List.range'_append_1]

theorem mem_ids {n : Nat} {body : Body} {id : NodeId} (h : id ∈ body.ids n) :
    n ≤ id.index ∧ id.index < n + body.size := by
  induction body generalizing n with
  | empty => cases h
  | leaf l rest ih =>
      rw [size]
      rcases List.mem_cons.mp h with rfl | h
      · exact ⟨le_rfl, by simp⟩
      · have hlater := ih h
        omega
  | group inside rest _ ih =>
      rw [size]
      rcases List.mem_cons.mp h with rfl | h
      · exact ⟨le_rfl, by simp⟩
      · have hlater := ih h
        omega

theorem pairwise_ids (n : Nat) (body : Body) :
    (body.ids n).Pairwise fun a b ↦ a.index < b.index := by
  induction body generalizing n with
  | empty => exact .nil
  | leaf l rest ih => exact .cons (fun id hid ↦ (mem_ids hid).1) (ih _)
  | group inside rest _ ih =>
      refine .cons (fun id hid ↦ ?_) (ih _)
      have hlater := (mem_ids hid).1
      simp only
      omega

theorem childrenWithin_of_mem_nodes {n : Nat} {body : Body} {node : Node}
    (h : node ∈ body.nodes n) : node.ChildrenWithin (n + body.size) := by
  induction body generalizing n with
  | empty => cases h
  | leaf l rest ih =>
      rw [size]
      rcases List.mem_cons.mp h with rfl | h
      · have hchildren : (⟨⟨n⟩, l.kind⟩ : Node).children = #[] := by cases l <;> rfl
        constructor <;> simp [hchildren]
      · exact (ih h).mono (by omega)
  | group inside rest ihInside ihRest =>
      rw [nodes, List.mem_cons, List.mem_append] at h
      rw [size]
      rcases h with rfl | h | h
      · refine ⟨by simpa [Node.children] using pairwise_ids (n + 1) inside, fun child hchild ↦ ?_⟩
        have hbounds := mem_ids (by simpa [Node.children] using hchild)
        simp only
        omega
      · exact (ihInside h).mono (by omega)
      · exact (ihRest h).mono (by omega)

/-- The topmost nodes of a body and the children of all its nodes are together all its nodes, each
once. -/
theorem ids_append_children_perm (n : Nat) (body : Body) :
    (body.ids n ++ (body.nodes n).flatMap (·.children.toList)).Perm
      ((List.range' n body.size).map NodeId.mk) := by
  induction body generalizing n with
  | empty => exact .nil
  | leaf l rest ih =>
      have hchildren : (⟨⟨n⟩, l.kind⟩ : Node).children.toList = [] := by cases l <;> rfl
      rw [size, List.range'_succ, List.map_cons, nodes, List.flatMap_cons, hchildren,
        List.nil_append]
      exact (ih (n + 1)).cons _
  | group inside rest ihInside ihRest =>
      rw [size, List.range'_succ, List.map_cons, ← List.range'_append_1, List.map_append, nodes,
        List.flatMap_cons, List.flatMap_append]
      refine .cons _ ?_
      have hboth := (ihInside (n + 1)).append (ihRest (n + 1 + inside.size))
      refine .trans ?_ hboth
      -- The ids behind the group move past all that is in it.
      have hmove := @List.perm_append_comm _ (rest.ids (n + 1 + inside.size))
        (inside.ids (n + 1) ++ (inside.nodes (n + 1)).flatMap (·.children.toList))
      simpa [Node.children] using
        hmove.append_right ((rest.nodes (n + 1 + inside.size)).flatMap (·.children.toList))

end Body

namespace Tree

variable {tree : Tree} {id : NodeId}

theorem children_of_get? {node : Node} (h : tree.get? id = some node) :
    tree.children id = node.children.toList := by
  simp [children, h]

theorem exists_group_of_mem_children {child : NodeId} (h : child ∈ tree.children id) :
    ∃ children, tree.kind? id = some (.group children) ∧ child ∈ children.toList := by
  by_cases hgroup : ∃ children, tree.kind? id = some (.group children)
  · obtain ⟨children, hkind⟩ := hgroup
    exact ⟨children, hkind, children_of_kind?_group hkind ▸ h⟩
  · rw [children_of_not_group (not_exists.mp hgroup)] at h
    cases h

theorem exists_node_of_mem_children {child : NodeId} (h : child ∈ tree.children id) :
    ∃ node, tree.get? id = some node ∧ child ∈ node.children.toList := by
  cases hnode : tree.get? id with
  | none => simp [children, hnode] at h
  | some node => exact ⟨node, rfl, by rwa [children_of_get? hnode] at h⟩

/-- If no two places in the lists of children hold the same node, each node that is a child at all
is so once and of one group. -/
theorem exists_parent (hnodup : (tree.nodes.toList.flatMap (·.children.toList)).Nodup)
    (hid : id ∈ tree.nodes.toList.flatMap (·.children.toList)) :
    ∃ parent, (tree.children parent).count id = 1 ∧
      ∀ other, id ∈ tree.children other → other = parent := by
  obtain ⟨hlists, hapart⟩ := List.nodup_flatMap.mp hnodup
  obtain ⟨node, hnode, hchild⟩ := List.mem_flatMap.mp hid
  obtain ⟨i, hi, rfl⟩ := List.mem_iff_getElem.mp hnode
  have hchildren : tree.children ⟨i⟩ = tree.nodes.toList[i].children.toList :=
    children_of_get? (by simp [get?])
  refine ⟨⟨i⟩, ?_, ?_⟩
  · rw [hchildren]
    exact List.count_eq_one_of_mem (hlists _ hnode) hchild
  · rintro ⟨j⟩ hother
    obtain ⟨another, hget, hchild'⟩ := exists_node_of_mem_children hother
    obtain ⟨hj, rfl⟩ := Array.getElem?_eq_some_iff.mp hget
    rw [List.pairwise_iff_getElem] at hapart
    rcases Nat.lt_trichotomy i j with hlt | rfl | hlt
    · exact absurd hchild' (hapart i j hi (by simpa using hj) hlt hchild)
    · rfl
    · exact absurd hchild (hapart j i (by simpa using hj) hi hlt hchild')

/-! ## Nodes as they are made -/

namespace Growth

theorem issued_take {g next : Growth} {token : Token} (h : g.take token = .ok next) :
    next.arena.issued = g.arena.issued + (makers [token]).length := by
  cases token with
  | groupClose =>
      simp only [take, closed] at h
      split at h
      · cases h
      · cases h
        simp [Arena.issued, Arena.attach, makers]
  | groupOpen | combinator | identifier | negation =>
      cases h
      simp [opened, leaf, Arena.group, Arena.make, Arena.attach, Arena.issued, makers]

theorem issued_takeAll {tokens : List Token} {g next : Growth} (h : g.takeAll tokens = .ok next) :
    next.arena.issued = g.arena.issued + (makers tokens).length := by
  induction tokens generalizing g with
  | nil =>
      cases h
      rfl
  | cons token rest ih =>
      simp only [takeAll] at h
      split at h
      · cases h
      · next mid hmid =>
          have hsplit : makers (token :: rest) = makers [token] ++ makers rest :=
            List.filter_append [token] rest
          rw [ih h, issued_take hmid, hsplit, List.length_append, Nat.add_assoc]

theorem exists_takeAll_of_append {seen later : List Token} {g last : Growth}
    (h : g.takeAll (seen ++ later) = .ok last) : ∃ mid, g.takeAll seen = .ok mid := by
  induction seen generalizing g with
  | nil => exact ⟨g, rfl⟩
  | cons token seen ih =>
      simp only [List.cons_append, takeAll] at h ⊢
      split at h
      · cases h
      · exact ih h

end Growth

/-- Tokens that become a tree become as many nodes as there are, closing brackets apart, also when
only some of them have been taken. -/
theorem exists_issued_of_ofTokens {seen later : List Token}
    (h : ofTokens (seen ++ later) = .ok tree) :
    ∃ g, Growth.start.takeAll seen = .ok g ∧ g.arena.issued = 1 + (makers seen).length := by
  simp only [ofTokens] at h
  split at h
  · cases h
  · next last hlast =>
      obtain ⟨g, hg⟩ := Growth.exists_takeAll_of_append hlast
      exact ⟨g, hg, Growth.issued_takeAll hg⟩

/-! ## The whole arena -/

/-- The nodes lie in the arena as the tokens come: node `k + 1` is made of the token at place `k`
among those that make a node. -/
structure FollowsTokens (tokens : List Token) (tree : Tree) : Prop where
  root_eq : tree.root = ⟨0⟩
  root_group : ∃ children, tree.kind? tree.root = some (.group children)
  size_eq : tree.size = 1 + (makers tokens).length
  id_eq : ∀ id node, tree.get? id = some node → node.id = id
  token_eq : ∀ k, (tree.kind? ⟨k + 1⟩).map NodeKind.token = (makers tokens)[k]?
  issued_eq : ∀ seen later, tokens = seen ++ later →
    ∃ g, Growth.start.takeAll seen = .ok g ∧ g.arena.issued = 1 + (makers seen).length
  exists_parent : ∀ id, 0 < id.index → id.index < tree.size →
    ∃ parent children, tree.kind? parent = some (.group children) ∧ parent.index < id.index ∧
      children.toList.count id = 1 ∧ ∀ other, id ∈ tree.children other → other = parent
  child_lt : ∀ id, ∀ child ∈ tree.children id, child.index < tree.size
  pairwise_children : ∀ id, (tree.children id).Pairwise fun a b ↦ a.index < b.index
  visits : ∃ visited, tree.Visits 0 [tree.root] visited ∧
    visited.map (·.2.id.index) = List.range tree.size

theorem size_ofBody (body : Body) : (ofBody body).size = 1 + body.size := by
  simp [ofBody, size, Nat.add_comm]

theorem map_id_nodes_ofBody (body : Body) :
    (ofBody body).nodes.toList.map Node.id = (List.range (ofBody body).size).map NodeId.mk := by
  rw [toList_nodes_ofBody, Body.map_id_nodes, List.range_eq_range', size_ofBody]
  simp [Body.size, Nat.add_comm]

theorem id_eq_of_get?_ofBody {body : Body} {node : Node} (h : (ofBody body).get? id = some node) :
    node.id = id := by
  have hids := congrArg (·[id.index]?) (map_id_nodes_ofBody body)
  obtain ⟨hlt, -⟩ := Array.getElem?_eq_some_iff.mp h
  have hget : (ofBody body).nodes[id.index]? = some node := h
  simpa [hget, List.getElem?_range (show id.index < (ofBody body).size from hlt)] using hids

theorem childrenWithin_ofBody {body : Body} {node : Node} (h : node ∈ (ofBody body).nodes) :
    node.ChildrenWithin (ofBody body).size := by
  rw [← Array.mem_toList_iff, toList_nodes_ofBody] at h
  refine (Body.childrenWithin_of_mem_nodes h).mono ?_
  simp [size_ofBody, Body.size, Nat.add_comm]

theorem children_ofBody_perm (body : Body) :
    ((ofBody body).nodes.toList.flatMap (·.children.toList)).Perm
      ((List.range' 1 body.size).map NodeId.mk) := by
  have hperm := Body.ids_append_children_perm 0 (.group body .empty)
  rw [← toList_nodes_ofBody] at hperm
  simpa [Body.ids, Body.size, List.range'_succ] using hperm

theorem lt_of_mem_children_ofBody {body : Body} {child : NodeId}
    (h : child ∈ (ofBody body).children id) :
    id.index < child.index ∧ child.index < (ofBody body).size := by
  obtain ⟨node, hnode, hchild⟩ := exists_node_of_mem_children h
  have hbounds := (childrenWithin_ofBody (Array.mem_of_getElem? hnode)).bounds child hchild
  rwa [id_eq_of_get?_ofBody hnode] at hbounds

theorem exists_parent_ofBody {body : Body} (hpos : 0 < id.index)
    (hlt : id.index < (ofBody body).size) :
    ∃ parent children, (ofBody body).kind? parent = some (.group children) ∧
      parent.index < id.index ∧ children.toList.count id = 1 ∧
      ∀ other, id ∈ (ofBody body).children other → other = parent := by
  have hperm := children_ofBody_perm body
  have hnodup : ((List.range' 1 body.size).map NodeId.mk).Nodup :=
    (List.nodup_range' 1).map fun _ _ hij ↦ NodeId.mk.inj hij
  have hid : id ∈ (List.range' 1 body.size).map NodeId.mk := by
    rw [size_ofBody] at hlt
    exact List.mem_map.mpr ⟨id.index, List.mem_range'_1.mpr ⟨hpos, hlt⟩, rfl⟩
  obtain ⟨parent, hcount, hunique⟩ :=
    exists_parent (hperm.nodup_iff.mpr hnodup) (hperm.mem_iff.mpr hid)
  have hchild : id ∈ (ofBody body).children parent := List.count_pos_iff.mp (by omega)
  obtain ⟨children, hkind, -⟩ := exists_group_of_mem_children hchild
  rw [children_of_kind?_group hkind] at hcount
  exact ⟨parent, children, hkind, (lt_of_mem_children_ofBody hchild).1, hcount, hunique⟩

theorem reaches_ofBody {body : Body} (hlt : id.index < (ofBody body).size) :
    (ofBody body).Reaches id := by
  induction hindex : id.index using Nat.strong_induction_on generalizing id with
  | _ n ih =>
      rcases Nat.eq_zero_or_pos id.index with hzero | hpos
      · obtain ⟨i⟩ := id
        cases hzero
        exact .refl
      · -- The group around the node has a smaller id.
        obtain ⟨parent, children, hkind, hparent, hcount, -⟩ := exists_parent_ofBody hpos hlt
        have hreaches := ih parent.index (hindex ▸ hparent) (index_lt_of_kind? hkind) rfl
        refine hreaches.tail ?_
        rw [children_of_kind?_group hkind]
        exact List.count_pos_iff.mp (by omega)

theorem followsTokens_ofBody (body : Body) : FollowsTokens body.tokens (ofBody body) where
  root_eq := rfl
  root_group := ⟨(body.ids 1).toArray, by simp [ofBody, kind?, get?]⟩
  size_eq := by rw [size_ofBody, ← Body.map_token_nodes 1, List.length_map, Body.length_nodes]
  id_eq := fun _ _ ↦ id_eq_of_get?_ofBody
  token_eq := by
    intro k
    rw [← Body.map_token_nodes 1, List.getElem?_map]
    simp [kind?, get?, ofBody, Function.comp_def]
  issued_eq := by
    rintro seen later htokens
    exact exists_issued_of_ofTokens (htokens ▸ ofTokens_tokens body)
  exists_parent := fun _ ↦ exists_parent_ofBody
  child_lt := fun _ _ hchild ↦ (lt_of_mem_children_ofBody hchild).2
  pairwise_children := by
    intro id
    cases hnode : (ofBody body).get? id with
    | none => simp [children, hnode]
    | some node =>
        rw [children_of_get? hnode]
        exact (childrenWithin_ofBody (Array.mem_of_getElem? hnode)).pairwise
  visits := by
    refine ⟨_, visits_ofBody body, ?_⟩
    have hids := congrArg (List.map NodeId.index) (map_id_nodes_ofBody body)
    rw [toList_nodes_ofBody, ← Body.map_snd_occurrences 0] at hids
    simpa [Function.comp_def] using hids

end Tree

/-- The tree of a rule whose brackets match lies in its arena as the tokens come. Evaluating it and
walking through it come to an end without any bound on the depth, and look up no node that is not
there. -/
theorem Rule.parse_followsTokens (rule : Rule) (balanced : Balanced rule.toTokens) :
    ∃ tree, rule.parse = .ok tree ∧ Tree.FollowsTokens rule.toTokens tree ∧
      (∀ setting : Setting, ∃ outcome,
        setting.Halts tree [⟨0, tree.children tree.root, {}⟩] outcome ∧
          setting.evaluate tree = outcome ∧ (∀ id, outcome ≠ .error (.missingNode id)) ∧
          outcome ≠ .error .endlessGroup) ∧
      tree.Walks [⟨0, tree.root⟩] tree.preorder := by
  obtain ⟨body, hbody⟩ := Body.exists_tokens_eq balanced
  have hparse : rule.parse = .ok (Tree.ofBody body) := by
    rw [parse, ← hbody]
    exact Tree.ofTokens_tokens body
  refine ⟨Tree.ofBody body, hparse, hbody ▸ Tree.followsTokens_ofBody body, fun setting ↦ ?_, ?_⟩
  · have hhalts := setting.halts_iff_of_sound (Tree.sound_ofBody body)
    have hvalue := setting.evaluate_of_sound (Tree.sound_ofBody body)
    have hunknown : ∀ e,
        setting.result ((Tree.ofBody body).body (Tree.sound_ofBody body)) = .error e →
          ∃ name, e = .unknownCheck name := by
      intro e he
      obtain ⟨name, -, hname⟩ := (Setting.resultFrom_eq_error_iff _ _ _ _ _).mp he
      exact ⟨name, hname⟩
    refine ⟨_, (hhalts _).mpr rfl, hvalue, fun id hmissing ↦ ?_, fun hendless ↦ ?_⟩
    · obtain ⟨name, hname⟩ := hunknown _ hmissing
      cases hname
    · obtain ⟨name, hname⟩ := hunknown _ hendless
      cases hname
  · rw [Tree.preorder_ofBody]
    exact (Tree.visits_ofBody body).walks

/-- In `!(a && ()) b` the inner group is node 5, made of the second bracket, and has node 2 around
it. -/
theorem Rule.parse_followsTokens_inner :
    let tokens : List Token := [.negation, .groupOpen, .identifier "a", .combinator .and,
      .groupOpen, .groupClose, .groupClose, .identifier "b"]
    Balanced tokens ∧ ∃ tree, (Rule.tokens tokens).parse = .ok tree ∧ tree.size = 7 ∧
      (tree.kind? ⟨5⟩).map NodeKind.token = some .groupOpen ∧
      ∃ parent, parent.index < 5 ∧ ⟨5⟩ ∈ tree.children parent := by
  have balanced := Body.balanced_tokens <| .leaf .negation <| .group (.leaf (.identifier "a")
    (.leaf (.combinator .and) (.group .empty .empty))) (.leaf (.identifier "b") .empty)
  obtain ⟨tree, hparse, hfollows, -⟩ := parse_followsTokens (.tokens _) balanced
  have hsize : tree.size = 7 := hfollows.size_eq
  obtain ⟨parent, children, hkind, hlt, hcount, -⟩ := hfollows.exists_parent ⟨5⟩ (by decide)
    (by rw [hsize]; decide)
  refine ⟨balanced, tree, hparse, hsize, hfollows.token_eq 4, parent, hlt, ?_⟩
  rw [Tree.children_of_kind?_group hkind]
  exact List.count_pos_iff.mp (by omega)

end FieldRules
