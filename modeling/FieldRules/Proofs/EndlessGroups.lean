import FieldRules.Proofs.ArenaCalls
import FieldRules.Proofs.Renderings
import FieldRules.Proofs.UnknownChecks

/-!
# Groups without an end

Nothing keeps a group out of itself, so there are trees that can be walked and evaluated for ever.
The loops of both take the first node of those that they have still to take and put its children in
its place. Such a loop ends only if it ends below every node that it takes, and below a group that
contains itself it does not. No outcome of a check plays a part in this.
-/

namespace FieldRules

open Relation

namespace Tree

variable {tree : Tree} {id : NodeId} {ids later : List NodeId} {stack next : List Occurrence}

/-- Every node that the root leads to, itself among them, is there. -/
def Complete (tree : Tree) : Prop :=
  ∀ id, tree.Reaches id → id.index < tree.size

/-- No group that the root leads to contains itself, directly or inside others. -/
def Acyclic (tree : Tree) : Prop :=
  ∀ id, tree.Reaches id → ¬ tree.Holds id id

/-- One turn of the walk: the occurrence on top of the stack is seen, and those of its children take
its place. -/
inductive Advances (tree : Tree) : List Occurrence → List Occurrence → Prop
  | next {o pending node} (hnode : tree.get? o.id = some node) :
      Advances tree (o :: pending) (tree.descend o pending)

/-- What both traversals do with the nodes that they have still to take. -/
inductive Expands (tree : Tree) : List NodeId → List NodeId → Prop
  | head (id : NodeId) (ids : List NodeId) : Expands tree (id :: ids) (tree.children id ++ ids)

/-- Every way down from the node comes to an end. -/
def EndsBelow (tree : Tree) : NodeId → Prop :=
  Acc fun inner outer ↦ inner ∈ tree.children outer

/-! ## Ways down -/

theorem complete_of_forall_children (hroot : tree.root.index < tree.size)
    (h : ∀ node ∈ tree.nodes.toList, ∀ child ∈ node.children.toList, child.index < tree.size) :
    tree.Complete := by
  intro id hreaches
  cases hreaches with
  | refl => exact hroot
  | tail _ hchild =>
      obtain ⟨node, hnode, hmem⟩ := exists_node_of_mem_children hchild
      exact h node (Array.mem_toList_iff.mpr (Array.mem_of_getElem? hnode)) id hmem

theorem EndsBelow.not_holds_self (h : tree.EndsBelow id) : ¬ tree.Holds id id := by
  induction h with
  | intro id _ ih =>
      intro hcycle
      -- The first node on the way around contains itself as well.
      obtain ⟨child, hchild, hback⟩ := TransGen.head'_iff.mp hcycle
      exact ih child hchild (TransGen.tail' hback hchild)

theorem EndsBelow.acyclic (h : tree.EndsBelow tree.root) : tree.Acyclic := by
  intro id hreaches
  apply EndsBelow.not_holds_self
  induction hreaches with
  | refl => exact h
  | tail _ hchild ih => exact ih.inv hchild

theorem reaches_of_expands (h : ReflTransGen tree.Expands ids later)
    (hids : ∀ id ∈ ids, tree.Reaches id) : ∀ id ∈ later, tree.Reaches id := by
  induction h with
  | refl => exact hids
  | tail _ hstep ih =>
      cases hstep with
      | head first rest =>
          rw [List.forall_mem_cons] at ih
          rw [List.forall_mem_append]
          exact ⟨fun child hchild ↦ ih.1.tail hchild, ih.2⟩

theorem endsBelow_of_expands (h : ReflTransGen tree.Expands ids []) :
    ∀ id ∈ ids, tree.EndsBelow id := by
  induction h using ReflTransGen.head_induction_on with
  | refl => exact List.forall_mem_nil _
  | head hstep _ ih =>
      cases hstep with
      | head =>
          rw [List.forall_mem_append] at ih
          rw [List.forall_mem_cons]
          exact ⟨Acc.intro _ ih.1, ih.2⟩

theorem acyclic_of_expands (h : ReflTransGen tree.Expands (tree.children tree.root) []) :
    tree.Acyclic :=
  EndsBelow.acyclic (Acc.intro _ (endsBelow_of_expands h))

/-! ## The walk -/

theorem Advances.expands (h : tree.Advances stack next) :
    tree.Expands (stack.map Occurrence.id) (next.map Occurrence.id) := by
  cases h with
  | @next o pending node _ =>
      have hids : (tree.descend o pending).map Occurrence.id =
          tree.children o.id ++ pending.map Occurrence.id := by
        simp [descend, Function.comp_def]
      rw [hids]
      exact .head _ _

theorem Walks.advances {seen : List (Nat × Node)} (h : tree.Walks stack seen) :
    ReflTransGen tree.Advances stack [] := by
  induction h with
  | done => exact .refl
  | next hnode _ ih => exact .head (.next hnode) ih

theorem expands_of_advances (h : ReflTransGen tree.Advances stack next) :
    ReflTransGen tree.Expands (stack.map Occurrence.id) (next.map Occurrence.id) :=
  h.lift (List.map Occurrence.id) fun _ _ ↦ Advances.expands

/-- The walk cannot be stuck: there is something to see until nothing is left. -/
theorem Complete.exists_advances (complete : tree.Complete)
    (h : ReflTransGen tree.Advances [⟨0, tree.root⟩] stack) (hstack : stack ≠ []) :
    ∃ next, tree.Advances stack next := by
  obtain ⟨o, pending, rfl⟩ := List.exists_cons_of_ne_nil hstack
  have hreaches := reaches_of_expands (expands_of_advances h) (List.forall_mem_singleton.mpr .refl)
  have ho := complete o.id (hreaches o.id List.mem_cons_self)
  exact ⟨_, .next (Array.getElem?_eq_getElem ho)⟩

theorem advances_nil_iff_acyclic (complete : tree.Complete) :
    ReflTransGen tree.Advances [⟨0, tree.root⟩] [] ↔ tree.Acyclic := by
  constructor
  · intro h
    have hends := endsBelow_of_expands (expands_of_advances h)
    exact (hends tree.root List.mem_cons_self).acyclic
  · intro acyclic
    obtain ⟨visited, hvisits, -⟩ := Sound.exists_visits ⟨complete, acyclic⟩
    exact hvisits.walks.advances

theorem walks_preorder_iff_acyclic (complete : tree.Complete) :
    tree.Walks [⟨0, tree.root⟩] tree.preorder ↔ tree.Acyclic := by
  constructor
  · intro h
    exact (advances_nil_iff_acyclic complete).mp h.advances
  · intro acyclic
    obtain ⟨visited, hvisits, hdepth⟩ := Sound.exists_visits ⟨complete, acyclic⟩
    rw [hvisits.preorder_eq hdepth]
    exact hvisits.walks

end Tree

/-! ## The evaluation -/

/-- The nodes that are still to be taken, those of the innermost group first. -/
def Frame.pending (frames : List Frame) : List NodeId :=
  frames.flatMap Frame.rest

/-- Every identifier that the root leads to names a check. -/
def Registry.Knows (registry : Registry) (tree : Tree) : Prop :=
  ∀ id text, tree.Reaches id → tree.kind? id = some (.identifier text) →
    registry.get? (Token.checkName text) ≠ none

namespace Setting

variable {setting : Setting} {tree : Tree} {frames : List Frame}

theorem exists_invoke_eq_ok {text : String}
    (h : setting.registry.get? (Token.checkName text) ≠ none) :
    ∃ call, setting.invoke text = .ok call := by
  cases hinvoke : setting.invoke text with
  | ok call => exact ⟨call, rfl⟩
  | error e =>
      obtain ⟨name, hname, -⟩ := unknown?_of_invoke_error hinvoke
      rw [Registry.unknown?_identifier_eq_none_iff.mpr h] at hname
      cases hname

/-- A step ends the evaluation with a result, leaves what is still to be taken as it is, or expands
it. -/
theorem step_expands (complete : tree.Complete) (knows : setting.registry.Knows tree)
    (hreaches : ∀ id ∈ Frame.pending frames, tree.Reaches id) :
    (Frame.pending frames = [] ∧ ∃ result, setting.step tree frames = .done (.ok result)) ∨
      ∃ next event, setting.step tree frames = .next next event ∧
        ReflTransGen tree.Expands (Frame.pending frames) (Frame.pending next) := by
  rcases frames with _ | ⟨⟨depth, _ | ⟨id, rest⟩, fold⟩, outer⟩
  · exact .inl ⟨rfl, _, rfl⟩
  · rcases outer with _ | ⟨frame, outer⟩
    · exact .inl ⟨rfl, _, rfl⟩
    · exact .inr ⟨_, _, rfl, .refl⟩
  · right
    have hid : tree.Reaches id := hreaches id List.mem_cons_self
    obtain ⟨kind, hkind⟩ := Tree.exists_kind?_eq (complete id hid)
    have htake := setting.take_eq hkind depth rest fold outer
    have hexpands : tree.Expands (id :: (rest ++ Frame.pending outer)) _ := .head _ _
    cases kind with
    | group children =>
        rw [Tree.children_of_kind?_group hkind] at hexpands
        exact ⟨_, _, htake, .single hexpands⟩
    | combinator | negation =>
        rw [Tree.children_of_not_group (by simp [hkind])] at hexpands
        exact ⟨_, _, htake, .single hexpands⟩
    | identifier text =>
        obtain ⟨call, hcall⟩ := exists_invoke_eq_ok (knows id text hid hkind)
        simp only [hcall] at htake
        rw [Tree.children_of_not_group (by simp [hkind])] at hexpands
        exact ⟨_, _, htake, .single hexpands⟩

theorem Halts.expands (complete : tree.Complete) (knows : setting.registry.Knows tree)
    {outcome : Except EvalError Bool} (h : setting.Halts tree frames outcome)
    (hreaches : ∀ id ∈ Frame.pending frames, tree.Reaches id) :
    (∃ result, outcome = .ok result) ∧
      ReflTransGen tree.Expands (Frame.pending frames) [] := by
  induction h with
  | done hdone =>
      rcases step_expands complete knows hreaches with ⟨hnil, result, hstep⟩ | ⟨_, _, hstep, -⟩
      · cases hdone.symm.trans hstep
        exact ⟨⟨result, rfl⟩, hnil ▸ .refl⟩
      · cases hdone.symm.trans hstep
  | next hnext _ ih =>
      rcases step_expands complete knows hreaches with ⟨-, _, hstep⟩ | ⟨_, _, hstep, hexpands⟩
      · cases hnext.symm.trans hstep
      · cases hnext.symm.trans hstep
        obtain ⟨hresult, hend⟩ := ih (Tree.reaches_of_expands hexpands hreaches)
        exact ⟨hresult, hexpands.trans hend⟩

theorem Halts.expands_root (complete : tree.Complete) (knows : setting.registry.Knows tree)
    {outcome : Except EvalError Bool}
    (h : setting.Halts tree [⟨0, tree.children tree.root, {}⟩] outcome) :
    (∃ result, outcome = .ok result) ∧
      ReflTransGen tree.Expands (tree.children tree.root) [] := by
  have hexpands := h.expands complete knows
  rw [Frame.pending, List.flatMap_singleton] at hexpands
  exact hexpands fun _ hchild ↦ .single hchild

theorem exists_halts_iff_acyclic (complete : tree.Complete)
    (knows : setting.registry.Knows tree) :
    (∃ outcome, setting.Halts tree [⟨0, tree.children tree.root, {}⟩] outcome) ↔
      tree.Acyclic := by
  constructor
  · rintro ⟨outcome, h⟩
    exact Tree.acyclic_of_expands (h.expands_root complete knows).2
  · intro acyclic
    exact ⟨_, (setting.halts_iff_of_sound ⟨complete, acyclic⟩ _).mpr rfl⟩

theorem evaluate_eq_endlessGroup_iff (complete : tree.Complete)
    (knows : setting.registry.Knows tree) :
    setting.evaluate tree = .error .endlessGroup ↔ ¬ tree.Acyclic := by
  constructor
  · intro hendless acyclic
    exact setting.evaluate_ne_endlessGroup ⟨complete, acyclic⟩ hendless
  · intro cyclic
    by_contra hvalue
    exact cyclic ((exists_halts_iff_acyclic complete knows).mp ⟨_, halts_of_run hvalue⟩)

end Setting

/-! ## Trees from histories -/

namespace Arena

variable {history : List Call} {root outer inner : NodeId}

/-- A call of the history made the group `outer`, and a later one attached `inner` to it. -/
def Attaches (history : List Call) (outer inner : NodeId) : Prop :=
  ∃ before later, history = before ++ .group :: later ∧ outer = ⟨made before⟩ ∧
    .attach outer inner ∈ later

theorem mem_attached_iff {calls : List Call} :
    inner ∈ attached outer calls ↔ .attach outer inner ∈ calls := by
  rw [attached, List.mem_filterMap]
  constructor
  · rintro ⟨call, hcall, hchild⟩
    cases call with
    | attach parent child =>
        obtain ⟨rfl, rfl⟩ : parent = outer ∧ child = inner := by
          simpa [Call.childOf?] using hchild
        exact hcall
    | identifier | combinator | group | negation => cases hchild
  · intro hcall
    exact ⟨_, hcall, by simp [Call.childOf?]⟩

theorem mem_children_finish_iff :
    inner ∈ ((ofHistory history).finish root).children outer ↔ Attaches history outer inner := by
  constructor
  · intro hinner
    obtain ⟨node, hnode, hchild⟩ := Tree.exists_node_of_mem_children hinner
    obtain ⟨before, call, later, kind, rfl, hid, hkind, rfl⟩ := exists_call_of_getElem? hnode
    cases call with
    | group =>
        cases hkind
        refine ⟨before, later, rfl, by rw [hid], mem_attached_iff.mp ?_⟩
        simpa [Node.children] using hchild
    | attach => cases hkind
    | identifier | combinator | negation =>
        cases hkind
        simp [Node.children] at hchild
  · rintro ⟨before, later, rfl, rfl, hcall⟩
    have hnode : ((ofHistory (before ++ .group :: later)).finish root).get? ⟨made before⟩ =
        some ⟨⟨made before⟩, .group (attached ⟨made before⟩ later).toArray⟩ :=
      getElem?_ofHistory rfl
    rw [Tree.children_of_get? hnode]
    simpa [Node.children] using mem_attached_iff.mpr hcall

/-- Whatever calls build a tree, if every node that the root leads to is there, then the walk
through it comes to an empty stack exactly if no group that the root leads to contains itself, that
is, if no way along the attached children leads around. Otherwise it goes on for ever. The
evaluation ends in the same cases, whatever the checks give, and only with a result. -/
theorem traversals_end_iff_acyclic (history : List Call) (root : NodeId)
    (complete : ((ofHistory history).finish root).Complete) :
    let tree := (ofHistory history).finish root
    (tree.Acyclic ↔ ∀ id, ReflTransGen (Attaches history) root id →
        ¬ TransGen (Attaches history) id id) ∧
      (ReflTransGen tree.Advances [⟨0, root⟩] [] ↔ tree.Acyclic) ∧
      (∀ stack, ReflTransGen tree.Advances [⟨0, root⟩] stack → stack ≠ [] →
        ∃ next, tree.Advances stack next) ∧
      (tree.Walks [⟨0, root⟩] tree.preorder ↔ tree.Acyclic) ∧
      ∀ setting : Setting, setting.registry.Knows tree →
        ((∃ outcome, setting.Halts tree [⟨0, tree.children root, {}⟩] outcome) ↔ tree.Acyclic) ∧
          (∀ outcome, setting.Halts tree [⟨0, tree.children root, {}⟩] outcome →
            ∃ result, outcome = .ok result) ∧
          (setting.evaluate tree = .error .endlessGroup ↔ ¬ tree.Acyclic) := by
  intro tree
  have hchildren : (fun outer inner ↦ inner ∈ tree.children outer) = Attaches history := by
    funext outer inner
    exact propext mem_children_finish_iff
  refine ⟨?_, Tree.advances_nil_iff_acyclic complete, fun stack ↦ complete.exists_advances,
    Tree.walks_preorder_iff_acyclic complete, fun setting knows ↦ ⟨?_, fun outcome h ↦ ?_, ?_⟩⟩
  · rw [← hchildren]
    rfl
  · exact Setting.exists_halts_iff_acyclic complete knows
  · exact (h.expands_root complete knows).1
  · exact Setting.evaluate_eq_endlessGroup_iff complete knows

/-- The root holds a group twice, which holds the root: whatever the check gives, there is no way
out. -/
theorem traversals_end_iff_acyclic_around :
    let history : List Call := [.group, .group, .identifier "never", .negation, .attach ⟨0⟩ ⟨1⟩,
      .attach ⟨0⟩ ⟨3⟩, .attach ⟨0⟩ ⟨1⟩, .attach ⟨1⟩ ⟨2⟩, .attach ⟨1⟩ ⟨0⟩]
    let tree := (ofHistory history).finish ⟨0⟩
    let setting : Setting := ⟨Registry.empty.register "never" fun _ _ _ ↦ false, ∅, .absent⟩
    tree.Complete ∧ setting.registry.Knows tree ∧
      ¬ ReflTransGen tree.Advances [⟨0, ⟨0⟩⟩] [] ∧
      (¬ ∃ outcome, setting.Halts tree [⟨0, tree.children ⟨0⟩, {}⟩] outcome) ∧
      setting.evaluate tree = .error .endlessGroup := by
  intro history tree setting
  have complete : tree.Complete := Tree.complete_of_forall_children (by decide) (by decide)
  have knows : setting.registry.Knows tree := by
    rintro ⟨i⟩ text hreaches hkind
    match i, complete ⟨i⟩ hreaches with
    | 0, _ | 1, _ | 3, _ => cases hkind
    | 2, _ =>
        cases hkind
        decide
  obtain ⟨-, hwalk, -, -, hevaluation⟩ := traversals_end_iff_acyclic history ⟨0⟩ complete
  have hdown : (⟨1⟩ : NodeId) ∈ tree.children ⟨0⟩ := by decide
  have hup : (⟨0⟩ : NodeId) ∈ tree.children ⟨1⟩ := by decide
  have cyclic : ¬ tree.Acyclic := fun acyclic ↦
    acyclic ⟨0⟩ .refl (.tail (.single hdown) hup)
  obtain ⟨hhalts, -, hendless⟩ := hevaluation setting knows
  exact ⟨complete, knows, mt hwalk.mp cyclic, mt hhalts.mp cyclic, hendless.mpr cyclic⟩

end Arena

end FieldRules
