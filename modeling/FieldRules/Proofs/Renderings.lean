import FieldRules.Proofs.Arenas
import FieldRules.Tree.Render

/-!
# Trees in lines

A sound tree is shown by one line for each occurrence of a node in pre-order, indented by its depth:
the walk comes to an end by itself, and its bound on the depth leaves nothing out. In a parsed tree
every node occurs once, in the order of the ids, and its depth is the number of brackets that are
open where its token stands, and one for the root.
-/

namespace FieldRules

open Token

namespace Tree

variable {tree : Tree} {depth : Nat} {ids : List NodeId}

/-! ## Sound trees -/

theorem Visits.unique {a b : List (Nat × Node)} (ha : tree.Visits depth ids a)
    (hb : tree.Visits depth ids b) : a = b := by
  induction ha generalizing b with
  | nil =>
      cases hb
      rfl
  | cons hnode _ _ ihBelow ihLater =>
      obtain - | ⟨hnode', hbelow, hlater⟩ := hb
      cases hnode.symm.trans hnode'
      rw [ihBelow hbelow, ihLater hlater]

/-- Nodes that can be written out can be visited, and no deeper than their body is high. -/
theorem Depicts.exists_visits {body : Body} (h : tree.Depicts ids body) (depth : Nat) :
    ∃ visited, tree.Visits depth ids visited ∧ ∀ o ∈ visited, o.1 ≤ depth + body.height := by
  induction h generalizing depth with
  | empty => exact ⟨[], .nil, by simp⟩
  | @leaf id _ _ _ hkind _ ih =>
      obtain ⟨node, hnode, -⟩ := Option.map_eq_some_iff.mp hkind
      obtain ⟨later, hlater, hdepth⟩ := ih depth
      have hbelow : tree.Visits (depth + 1) (tree.children id) [] := by
        rw [children_of_kind?_leaf hkind]
        exact .nil
      refine ⟨_, .cons hnode hbelow hlater, ?_⟩
      rw [List.nil_append, List.forall_mem_cons]
      exact ⟨Nat.le_add_right _ _, hdepth⟩
  | group hkind _ _ ihInside ihRest =>
      obtain ⟨node, hnode, -⟩ := Option.map_eq_some_iff.mp hkind
      obtain ⟨below, hbelow, hdeeper⟩ := ihInside (depth + 1)
      obtain ⟨later, hlater, hdepth⟩ := ihRest depth
      rw [← children_of_kind?_group hkind] at hbelow
      refine ⟨_, .cons hnode hbelow hlater, ?_⟩
      rw [List.forall_mem_cons, List.forall_mem_append, Body.height]
      refine ⟨Nat.le_add_right _ _, fun o ho ↦ ?_, fun o ho ↦ ?_⟩
      · have hle := hdeeper o ho
        omega
      · have hle := hdepth o ho
        omega

theorem Sound.exists_visits (sound : tree.Sound) :
    ∃ visited, tree.Visits 0 [tree.root] visited ∧ ∀ o ∈ visited, o.1 ≤ tree.size := by
  have hdepicts := depicts_body sound
  have hheight := hdepicts.height_lt_size sound
  obtain ⟨kind, hkind⟩ := exists_kind?_eq (sound.present tree.root .refl)
  obtain ⟨node, hnode, -⟩ := Option.map_eq_some_iff.mp hkind
  obtain ⟨below, hbelow, hdepth⟩ := hdepicts.exists_visits 1
  refine ⟨_, .cons hnode hbelow .nil, ?_⟩
  rw [List.append_nil, List.forall_mem_cons]
  refine ⟨Nat.zero_le _, fun o ho ↦ ?_⟩
  have hle := hdepth o ho
  omega

theorem renderWith_of_visits (sound : tree.Sound) {visited : List (Nat × Node)}
    (h : tree.Visits 0 [tree.root] visited) (indent : Nat) :
    tree.renderWith indent = String.join (visited.map (line indent)) := by
  obtain ⟨visited', hvisits, hdepth⟩ := sound.exists_visits
  rw [renderWith, hvisits.preorder_eq hdepth, hvisits.unique h]

end Tree

/-! ## Parsed trees -/

theorem Leaf.token_kind (l : Leaf) : l.kind.token = l.token := by
  cases l <;> rfl

namespace Body

theorem length_makers (body : Body) : (makers body.tokens).length = body.size := by
  rw [← map_token_nodes 0, List.length_map, length_nodes]

theorem length_occurrences (depth n : Nat) (body : Body) :
    (body.occurrences depth n).length = body.size := by
  rw [← length_nodes n, ← map_snd_occurrences depth, List.length_map]

/-- Around the token that makes a node stand the groups that are opened and not closed before it. -/
theorem exists_split_of_occurrences {body : Body} {depth n i : Nat} {o : Nat × Node}
    (h : (body.occurrences depth n)[i]? = some o) :
    ∃ seen later, body.tokens = seen ++ o.2.kind.token :: later ∧ (makers seen).length = i ∧
      o.1 + closes seen = depth + opens seen := by
  induction body generalizing depth n i with
  | empty => cases h
  | leaf l rest ih =>
      cases i with
      | zero =>
          cases h
          exact ⟨[], rest.tokens, by rw [l.token_kind]; rfl, rfl, rfl⟩
      | succ i =>
          obtain ⟨seen, later, htokens, hmakers, hdepth⟩ := ih h
          refine ⟨l.token :: seen, later, by rw [tokens, htokens, List.cons_append], ?_, ?_⟩
          · cases l <;> simpa [makers, Leaf.token] using hmakers
          · cases l <;> simpa [opens, closes, Leaf.token] using hdepth
  | group inside rest ihInside ihRest =>
      cases i with
      | zero =>
          cases h
          exact ⟨[], inside.tokens ++ .groupClose :: rest.tokens, rfl, rfl, rfl⟩
      | succ i =>
          rw [occurrences, List.getElem?_cons_succ, List.getElem?_append, length_occurrences] at h
          split_ifs at h with hinside
          · obtain ⟨seen, later, htokens, hmakers, hdepth⟩ := ihInside h
            refine ⟨.groupOpen :: seen, later ++ .groupClose :: rest.tokens, ?_, ?_, ?_⟩
            · simp [tokens, htokens]
            · simpa [makers] using hmakers
            · simp [opens, closes] at hdepth ⊢
              omega
          · obtain ⟨seen, later, htokens, hmakers, hdepth⟩ := ihRest h
            have hclosed := inside.balanced_tokens.closes_eq
            have hsize := inside.length_makers
            refine ⟨.groupOpen :: (inside.tokens ++ .groupClose :: seen), later, ?_, ?_, ?_⟩
            · simp [tokens, htokens]
            · simp [makers] at hmakers hsize ⊢
              omega
            · simp [opens, closes] at hdepth hclosed ⊢
              omega

end Body

namespace Tree

/-- A sound tree is shown by the lines of its nodes in pre-order, each as often as it occurs and
indented by its depth, and the walk that sees them in this order ends. The lines of a parsed tree
are those of its nodes in the order of their ids: the root is not indented, and every other node by
one step more than there are brackets open at its token. -/
theorem lines_in_preorder :
    (∀ tree : Tree, tree.Sound → ∃ visited, tree.Visits 0 [tree.root] visited ∧
        (∀ other, tree.Visits 0 [tree.root] other → other = visited) ∧
        tree.Walks [⟨0, tree.root⟩] visited ∧
        ∀ indent, tree.renderWith indent = String.join (visited.map fun (depth, node) ↦
          String.ofList (List.replicate (depth * indent) ' ') ++ node.label ++ "\n")) ∧
      ∀ (rule : Rule) (tree : Tree), rule.parse = .ok tree → tree.Sound ∧
        ∃ visited, tree.Visits 0 [tree.root] visited ∧
          visited.map Prod.snd = tree.nodes.toList ∧
          visited.map (·.2.id.index) = List.range tree.size ∧
          (∃ root, visited[0]? = some (0, root)) ∧
          ∀ k, 0 < k → k < tree.size → ∃ depth node seen token later g,
            visited[k]? = some (depth, node) ∧ token = node.kind.token ∧
            rule.toTokens = seen ++ token :: later ∧
            Growth.start.takeAll seen = .ok g ∧ g.arena.issued = k ∧
            depth + closes seen = 1 + opens seen := by
  constructor
  · intro tree sound
    obtain ⟨visited, hvisits, -⟩ := sound.exists_visits
    refine ⟨visited, hvisits, fun other hother ↦ hother.unique hvisits, hvisits.walks, ?_⟩
    exact renderWith_of_visits sound hvisits
  · intro rule tree hparse
    obtain ⟨body, hbody, rfl⟩ := exists_body_of_ofTokens hparse
    obtain ⟨visited, hvisits, hids⟩ := (followsTokens_ofBody body).visits
    have hoccurrences := hvisits.unique (visits_ofBody body)
    refine ⟨sound_ofBody body, visited, hvisits, ?_, hids, ?_, ?_⟩
    · rw [hoccurrences, Body.map_snd_occurrences, toList_nodes_ofBody]
    · rw [hoccurrences]
      exact ⟨_, rfl⟩
    · intro k hpos hlt
      obtain ⟨i, rfl⟩ := Nat.exists_eq_succ_of_ne_zero hpos.ne'
      have hi : i < (body.occurrences 1 1).length := by
        rw [Body.length_occurrences]
        rw [size_ofBody] at hlt
        omega
      obtain ⟨⟨depth, node⟩, ho⟩ : ∃ o, (body.occurrences 1 1)[i]? = some o :=
        ⟨_, List.getElem?_eq_getElem hi⟩
      obtain ⟨seen, later, htokens, hmakers, hdepth⟩ := Body.exists_split_of_occurrences ho
      obtain ⟨g, hg, hissued⟩ := exists_issued_of_ofTokens (htokens ▸ ofTokens_tokens body)
      refine ⟨depth, node, seen, _, later, g, ?_, rfl, hbody ▸ htokens, hg, by omega, hdepth⟩
      rw [hoccurrences]
      simpa [Body.occurrences] using ho

/-- The group that is attached twice is shown twice, with all that it holds. -/
theorem lines_in_preorder_twice :
    twice.Sound ∧
      twice.renderWith 3 = "#0 group\n   #1 group\n      #3 identifier never\n   #2 negation\n" ++
        "   #1 group\n      #3 identifier never\n" ∧
      ∃ tree visited, (Rule.text "(a)").parse = .ok tree ∧
        tree.Visits 0 [tree.root] visited ∧ visited.map (·.2.id.index) = [0, 1, 2] := by
  have sound : twice.Sound := sound_of_depicts (by decide) depicts_twice
  refine ⟨sound, ?_, ?_⟩
  · obtain ⟨visited, hvisits, hunique, -, hlines⟩ := lines_in_preorder.1 twice sound
    have hinner (depth : Nat) : twice.Visits depth [⟨3⟩] ((depth, _) :: ([] ++ [])) :=
      .cons rfl .nil .nil
    have hvisits : twice.Visits 0 [twice.root] _ :=
      .cons rfl (.cons rfl (hinner 2) (.cons rfl .nil (.cons rfl (hinner 2) .nil))) .nil
    rw [hlines, ← hunique _ hvisits]
    rfl
  · obtain ⟨tree, hparse⟩ : ∃ tree, (Rule.text "(a)").parse = .ok tree := ⟨_, rfl⟩
    obtain ⟨-, visited, hvisits, -, hids, -, -⟩ := lines_in_preorder.2 _ tree hparse
    cases hparse
    exact ⟨_, visited, rfl, hvisits, hids⟩

end Tree

end FieldRules
