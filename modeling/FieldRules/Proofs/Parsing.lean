import FieldRules.Proofs.Unfolding

/-!
# The tree of a balanced sequence of tokens

Reading the tokens of a body makes its nodes one after the other, each group ahead of what it holds,
and in the end adds the ids of the topmost ones to the innermost open group. The groups that are
open around it stay as they are, so a body can be read wherever one can stand.
-/

namespace FieldRules

namespace Node

def adoptAll (children : List NodeId) (node : Node) : Node :=
  children.foldl (fun node child ↦ node.adopt child) node

theorem adoptAll_nil (node : Node) : node.adoptAll [] = node := rfl

theorem adoptAll_append (a b : List NodeId) (node : Node) :
    node.adoptAll (a ++ b) = (node.adoptAll a).adoptAll b :=
  List.foldl_append

theorem adoptAll_group (id : NodeId) (before : Array NodeId) (children : List NodeId) :
    adoptAll children ⟨id, .group before⟩ = ⟨id, .group (before ++ children)⟩ := by
  induction children generalizing before with
  | nil => simp [adoptAll]
  | cons child children ih =>
      have h := ih (before.push child)
      simpa [adoptAll, adopt] using h

end Node

namespace Arena

variable {arena : Arena} {parent : NodeId}

theorem ext_getElem? {a b : Arena} (h : ∀ i : Nat, a.nodes[i]? = b.nodes[i]?) : a = b := by
  obtain ⟨nodes⟩ := a
  obtain ⟨nodes'⟩ := b
  rw [mk.injEq]
  exact Array.ext_getElem? h

/-- More children for `parent`, and more nodes behind the others. -/
def extend (arena : Arena) (parent : NodeId) (children : List NodeId) (made : List Node) : Arena :=
  ⟨arena.nodes.modify parent.index (·.adoptAll children) ++ made.toArray⟩

@[simp] theorem issued_extend (children : List NodeId) (made : List Node) :
    (arena.extend parent children made).issued = arena.issued + made.length := by
  simp [issued, extend]

theorem getElem?_extend (hparent : parent.index < arena.issued) (children : List NodeId)
    (made : List Node) (i : Nat) :
    (arena.extend parent children made).nodes[i]? =
      if i = parent.index then arena.nodes[i]?.map (·.adoptAll children)
      else if i < arena.issued then arena.nodes[i]? else made[i - arena.issued]? := by
  simp only [issued, extend] at hparent ⊢
  rw [Array.getElem?_append, Array.size_modify, Array.getElem?_modify]
  grind

theorem extend_nil (hparent : parent.index < arena.issued) : arena.extend parent [] [] = arena := by
  apply ext_getElem?
  intro i
  rw [getElem?_extend hparent]
  simp only [issued] at hparent ⊢
  grind [Node.adoptAll_nil]

theorem extend_extend (hparent : parent.index < arena.issued) (a b : List NodeId)
    (made more : List Node) :
    (arena.extend parent a made).extend parent b more =
      arena.extend parent (a ++ b) (made ++ more) := by
  apply ext_getElem?
  intro i
  rw [getElem?_extend (by simp; omega), getElem?_extend hparent, getElem?_extend hparent,
    issued_extend]
  simp only [Node.adoptAll_append]
  grind

theorem attach_eq_extend (child : NodeId) :
    arena.attach parent child = arena.extend parent [child] [] := by
  simp [attach, extend, Node.adoptAll]

theorem attach_make (hparent : parent.index < arena.issued) (kind : NodeKind) :
    (arena.make kind).2.attach parent (arena.make kind).1 =
      arena.extend parent [⟨arena.issued⟩] [⟨⟨arena.issued⟩, kind⟩] := by
  rw [attach_eq_extend]
  apply ext_getElem?
  intro i
  rw [getElem?_extend hparent, getElem?_extend (by simp [make, issued] at hparent ⊢; omega)]
  simp only [make, issued] at hparent ⊢
  grind

theorem extend_group (hparent : parent.index < arena.issued) (children : List NodeId)
    (made : List Node) :
    arena.group.2.extend arena.group.1 children made =
      arena.extend parent [] (⟨⟨arena.issued⟩, .group children.toArray⟩ :: made) := by
  have hmade : (⟨⟨arena.issued⟩, .group children.toArray⟩ : Node) =
      Node.adoptAll children ⟨⟨arena.issued⟩, .group #[]⟩ := by
    simp [Node.adoptAll_group]
  apply ext_getElem?
  intro i
  rw [getElem?_extend hparent, getElem?_extend (by simp [group, make, issued]), hmade]
  simp only [group, make, issued] at hparent ⊢
  grind [Node.adoptAll_nil]

end Arena

namespace Body

/-- The ids of the topmost nodes of a body, if its first node is made under the id `n`. -/
def ids (n : Nat) : Body → List NodeId
  | .empty => []
  | .leaf _ rest => ⟨n⟩ :: rest.ids (n + 1)
  | .group inside rest => ⟨n⟩ :: rest.ids (n + 1 + inside.size)

/-- The nodes of a body in the order in which they are made, the first under the id `n`. -/
def nodes (n : Nat) : Body → List Node
  | .empty => []
  | .leaf l rest => ⟨⟨n⟩, l.kind⟩ :: rest.nodes (n + 1)
  | .group inside rest =>
    ⟨⟨n⟩, .group (inside.ids (n + 1)).toArray⟩ ::
      (inside.nodes (n + 1) ++ rest.nodes (n + 1 + inside.size))

@[simp] theorem length_nodes (n : Nat) (body : Body) : (body.nodes n).length = body.size := by
  induction body generalizing n with
  | empty => rfl
  | leaf l rest ih => simp [nodes, size, ih]
  | group inside rest ihInside ihRest => simp [nodes, size, ihInside, ihRest]

end Body

namespace Tree

/-- The nodes of a body behind the root that holds them. -/
def ofBody (body : Body) : Tree :=
  ⟨(⟨⟨0⟩, .group (body.ids 1).toArray⟩ :: body.nodes 1).toArray, ⟨0⟩⟩

namespace Growth

variable {g : Growth}

/-- The state behind the tokens of a body. -/
def grown (g : Growth) (body : Body) : Growth :=
  { g with
    arena := g.arena.extend g.current (body.ids g.arena.issued) (body.nodes g.arena.issued)
    position := g.position + body.tokens.length }

@[simp] theorem current_grown (body : Body) : (g.grown body).current = g.current := rfl

@[simp] theorem issued_grown (body : Body) :
    (g.grown body).arena.issued = g.arena.issued + body.size := by
  simp [grown]

theorem grown_empty (hcurrent : g.current.index < g.arena.issued) : g.grown .empty = g := by
  simp [grown, Body.ids, Body.nodes, Body.tokens, Arena.extend_nil hcurrent]

theorem take_leaf (hcurrent : g.current.index < g.arena.issued) (l : Leaf) :
    g.take l.token = .ok (g.grown (.leaf l .empty)) := by
  have hleaf : g.take l.token = .ok (g.leaf l.kind) := by
    cases l <;> rfl
  rw [hleaf]
  simp only [leaf]
  rw [Arena.attach_make hcurrent]
  rfl

theorem grown_leaf (hcurrent : g.current.index < g.arena.issued) (l : Leaf) (rest : Body) :
    (g.grown (.leaf l .empty)).grown rest = g.grown (.leaf l rest) := by
  simp [grown, Body.ids, Body.nodes, Body.tokens, Arena.extend_extend hcurrent]
  omega

/-- A group that is closed behind its body becomes the next child of the group around it. -/
theorem closed_grown_opened (hcurrent : g.current.index < g.arena.issued) (inside : Body) :
    (g.opened.grown inside).closed = .ok (g.grown (.group inside .empty)) := by
  have hissued : g.arena.group.2.issued = g.arena.issued + 1 := by
    simp [Arena.group, Arena.make, Arena.issued]
  have hid : g.arena.group.1 = ⟨g.arena.issued⟩ := rfl
  simp only [opened, grown, closed]
  rw [Arena.extend_group hcurrent, Arena.attach_eq_extend, Arena.extend_extend hcurrent, hissued,
    hid]
  simp [Body.ids, Body.nodes, Body.tokens]
  omega

theorem grown_group (hcurrent : g.current.index < g.arena.issued) (inside rest : Body) :
    (g.grown (.group inside .empty)).grown rest = g.grown (.group inside rest) := by
  simp [grown, Body.ids, Body.nodes, Body.tokens, Arena.extend_extend hcurrent]
  grind

/-- The tokens of a body make its nodes, whatever groups are open and whatever comes behind. -/
theorem takeAll_tokens_append (hcurrent : g.current.index < g.arena.issued) (body : Body)
    (later : List Token) : g.takeAll (body.tokens ++ later) = (g.grown body).takeAll later := by
  induction body generalizing g later with
  | empty => rw [grown_empty hcurrent, Body.tokens, List.nil_append]
  | leaf l rest ih =>
      have hnext : (g.grown (.leaf l .empty)).current.index <
          (g.grown (.leaf l .empty)).arena.issued := by
        simp
        omega
      rw [Body.tokens, List.cons_append, takeAll, take_leaf hcurrent]
      simp only
      rw [ih hnext, grown_leaf hcurrent]
  | group inside rest ihInside ihRest =>
      have hopened : g.opened.current.index < g.opened.arena.issued := by
        simp [opened, Arena.group, Arena.make, Arena.issued]
      have hnext : (g.grown (.group inside .empty)).current.index <
          (g.grown (.group inside .empty)).arena.issued := by
        simp
        omega
      -- The bracket that closes the group is the first token behind the body inside.
      rw [Body.tokens, List.cons_append, List.append_assoc, List.cons_append, takeAll, take]
      simp only
      rw [ihInside hopened, takeAll, take, closed_grown_opened hcurrent]
      simp only
      rw [ihRest hnext, grown_group hcurrent]

end Growth

theorem ofTokens_tokens (body : Body) : ofTokens body.tokens = .ok (ofBody body) := by
  have hgrown := Growth.takeAll_tokens_append (g := Growth.start)
    (by simp [Growth.start, Arena.group, Arena.make, Arena.issued]) body []
  rw [List.append_nil, Growth.takeAll] at hgrown
  simp only [ofTokens, hgrown]
  simp [Growth.grown, Growth.start, Arena.finish, ofBody, Arena.extend, Arena.group, Arena.make,
    Arena.issued, Node.adoptAll_group]

/-- The nodes stand in the tree one after the other, the first under the id `n`. -/
def Stores (tree : Tree) (n : Nat) (nodes : List Node) : Prop :=
  ∀ i < nodes.length, tree.nodes[n + i]? = nodes[i]?

theorem Stores.of_cons {tree : Tree} {n : Nat} {node : Node} {nodes : List Node}
    (h : tree.Stores n (node :: nodes)) :
    tree.get? ⟨n⟩ = some node ∧ tree.Stores (n + 1) nodes := by
  refine ⟨h 0 (by simp), fun i hi ↦ ?_⟩
  have hnext := h (i + 1) (by simpa using hi)
  rwa [List.getElem?_cons_succ, ← Nat.add_assoc, Nat.add_right_comm] at hnext

theorem Stores.of_append {tree : Tree} {n : Nat} {nodes more : List Node}
    (h : tree.Stores n (nodes ++ more)) :
    tree.Stores n nodes ∧ tree.Stores (n + nodes.length) more := by
  constructor
  · intro i hi
    rw [h i (by rw [List.length_append]; omega), List.getElem?_append_left hi]
  · intro i hi
    rw [Nat.add_assoc, h _ (by rw [List.length_append]; omega),
      List.getElem?_append_right (Nat.le_add_right _ _), Nat.add_sub_cancel_left]

theorem depicts_ids {tree : Tree} {body : Body} {n : Nat} (h : tree.Stores n (body.nodes n)) :
    tree.Depicts (body.ids n) body := by
  induction body generalizing n with
  | empty => exact .empty
  | leaf l rest ih =>
      obtain ⟨hfirst, hrest⟩ := h.of_cons
      exact .leaf (by simp [kind?, hfirst]) (ih hrest)
  | group inside rest ihInside ihRest =>
      obtain ⟨hfirst, hbelow⟩ := h.of_cons
      obtain ⟨hinside, hrest⟩ := hbelow.of_append
      rw [Body.length_nodes] at hrest
      have hkind : tree.kind? ⟨n⟩ = some (.group (inside.ids (n + 1)).toArray) := by
        simp [kind?, hfirst]
      exact .group hkind (ihInside hinside) (ihRest hrest)

theorem stores_ofBody (body : Body) : (ofBody body).Stores 1 (body.nodes 1) := by
  intro i _
  simp [ofBody, Nat.add_comm 1 i]

theorem children_root_ofBody (body : Body) :
    (ofBody body).children (ofBody body).root = body.ids 1 := by
  simp [ofBody, children, get?, Node.children]

theorem depicts_ofBody (body : Body) :
    (ofBody body).Depicts ((ofBody body).children (ofBody body).root) body := by
  rw [children_root_ofBody]
  exact depicts_ids (stores_ofBody body)

theorem sound_ofBody (body : Body) : (ofBody body).Sound :=
  sound_of_depicts (by simp [ofBody, size]) (depicts_ofBody body)

theorem body_ofBody (body : Body) (sound : (ofBody body).Sound) : (ofBody body).body sound = body :=
  body_eq sound (depicts_ofBody body)

theorem ofBody_injective {a b : Body} (h : ofBody a = ofBody b) : a = b := by
  have ha := depicts_ofBody a
  rw [h] at ha
  exact ha.unique (depicts_ofBody b)

theorem exists_body_of_ofTokens {tokens : List Token} {tree : Tree}
    (h : ofTokens tokens = .ok tree) :
    ∃ body : Body, body.tokens = tokens ∧ tree = ofBody body := by
  obtain ⟨body, rfl⟩ := Body.exists_tokens_eq ((exists_ofTokens_eq_ok_iff tokens).mp ⟨tree, h⟩)
  rw [ofTokens_tokens] at h
  cases h
  exact ⟨body, rfl, rfl⟩

end Tree

theorem Body.tokens_injective {a b : Body} (h : a.tokens = b.tokens) : a = b := by
  have ha := Tree.ofTokens_tokens a
  rw [h, Tree.ofTokens_tokens b] at ha
  cases Tree.ofBody_injective (Except.ok.inj ha)
  rfl

theorem Body.balanced_tokens (body : Body) : Token.Balanced body.tokens :=
  (Tree.exists_ofTokens_eq_ok_iff body.tokens).mp ⟨_, Tree.ofTokens_tokens body⟩

noncomputable def Body.tokensEquiv : Body ≃ {tokens // Token.Balanced tokens} :=
  Equiv.ofBijective (fun body ↦ ⟨body.tokens, body.balanced_tokens⟩) <| by
    constructor
    · intro a b h
      exact tokens_injective (Subtype.ext_iff.mp h)
    · rintro ⟨tokens, balanced⟩
      obtain ⟨body, rfl⟩ := exists_tokens_eq balanced
      exact ⟨body, rfl⟩

/-- The root is a group, and what it leads to is `body` when it is written out. -/
structure Tree.HasShape (tree : Tree) (body : Body) : Prop where
  root_group : ∃ children, tree.kind? tree.root = some (.group children)
  body_eq : ∃ sound : tree.Sound, tree.body sound = body

theorem Tree.hasShape_ofBody (body : Body) : (ofBody body).HasShape body where
  root_group := ⟨(body.ids 1).toArray, by simp [ofBody, kind?, get?]⟩
  body_eq := ⟨sound_ofBody body, body_ofBody body _⟩

theorem Rule.parse_tokens_body (body : Body) :
    ∃ tree, (Rule.tokens body.tokens).parse = .ok tree ∧ tree.HasShape body :=
  ⟨Tree.ofBody body, Tree.ofTokens_tokens body, Tree.hasShape_ofBody body⟩

theorem Rule.tokens_eq_of_parse_eq {tokens more : List Token} {tree : Tree}
    (h : (Rule.tokens tokens).parse = .ok tree) (h' : (Rule.tokens more).parse = .ok tree) :
    tokens = more := by
  obtain ⟨body, rfl, rfl⟩ := Tree.exists_body_of_ofTokens h
  obtain ⟨body', rfl, hbody⟩ := Tree.exists_body_of_ofTokens h'
  rw [Tree.ofBody_injective hbody]

/-- Parsing is a bijection: the tree of a balanced sequence writes out as that sequence, every shape
is the shape of the tree of its own tokens, and different sequences have different trees. -/
theorem Rule.parse_tokens_bijective :
    (∀ tokens, Token.Balanced tokens → ∃ tree body, (Rule.tokens tokens).parse = .ok tree ∧
        tree.HasShape body ∧ body.tokens = tokens) ∧
      (∀ body : Body, ∃ tree, (Rule.tokens body.tokens).parse = .ok tree ∧ tree.HasShape body) ∧
      (∃ shape : {tokens // Token.Balanced tokens} → Body, Function.Bijective shape ∧
        ∀ tokens, ∃ tree, (Rule.tokens tokens.1).parse = .ok tree ∧ tree.HasShape (shape tokens)) ∧
      ∀ tokens more tree, (Rule.tokens tokens).parse = .ok tree →
        (Rule.tokens more).parse = .ok tree → tokens = more := by
  refine ⟨fun tokens balanced ↦ ?_, parse_tokens_body, ?_, fun _ _ _ ↦ tokens_eq_of_parse_eq⟩
  · obtain ⟨body, rfl⟩ := Body.exists_tokens_eq balanced
    obtain ⟨tree, hparse, hshape⟩ := parse_tokens_body body
    exact ⟨tree, body, hparse, hshape, rfl⟩
  · refine ⟨Body.tokensEquiv.symm, Body.tokensEquiv.symm.bijective, fun tokens ↦ ?_⟩
    obtain ⟨body, rfl⟩ := Body.tokensEquiv.surjective tokens
    rw [Equiv.symm_apply_apply]
    exact parse_tokens_body body

theorem Rule.parse_tokens_bijective_negatedGroup :
    let tokens : List Token :=
      [.negation, .groupOpen, .identifier "min:3", .combinator .and, .groupOpen, .groupClose,
        .groupClose]
    Token.Balanced tokens ∧ ∃ tree body, (Rule.tokens tokens).parse = .ok tree ∧
      tree.HasShape body ∧ body.tokens = tokens := by
  have balanced := Body.balanced_tokens <| .leaf .negation <|
    .group (.leaf (.identifier "min:3") (.leaf (.combinator .and) (.group .empty .empty))) .empty
  exact ⟨balanced, parse_tokens_bijective.1 _ balanced⟩

end FieldRules
