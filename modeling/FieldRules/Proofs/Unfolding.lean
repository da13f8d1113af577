import FieldRules.Proofs.Body
import Mathlib.Data.Fintype.EquivFin
import Mathlib.Data.List.Perm.Subperm
import Mathlib.Logic.Relation

/-!
# Writing trees out

In a sound tree every node below the root is there and no group contains itself. Then each node can
be written out at every place where it is attached, and what the root holds becomes a body. A tree
that can be written out is sound, so the two notions are one.
-/

namespace FieldRules.Tree

open Relation

variable {tree : Tree}

def kind? (tree : Tree) (id : NodeId) : Option NodeKind :=
  (tree.get? id).map Node.kind

/-- The nodes that the root leads to, itself among them. -/
def Reaches (tree : Tree) : NodeId → Prop :=
  ReflTransGen (fun outer inner ↦ inner ∈ tree.children outer) tree.root

/-- `outer` contains `inner`, directly or inside other groups. -/
def Holds (tree : Tree) : (outer inner : NodeId) → Prop :=
  TransGen (fun outer inner ↦ inner ∈ tree.children outer)

/-- Every node that the root leads to is there, and none of them contains itself. -/
structure Sound (tree : Tree) : Prop where
  present : ∀ id, tree.Reaches id → id.index < tree.size
  acyclic : ∀ id, tree.Reaches id → ¬ tree.Holds id id

abbrev Reached (tree : Tree) := {id // tree.Reaches id}

/-- The nodes `ids`, written out with everything in them, are a body. -/
inductive Depicts (tree : Tree) : List NodeId → Body → Prop
  | empty : Depicts tree [] .empty
  | leaf {id ids l rest} (hkind : tree.kind? id = some l.kind) (hrest : Depicts tree ids rest) :
      Depicts tree (id :: ids) (.leaf l rest)
  | group {id ids children inside rest} (hkind : tree.kind? id = some (.group children))
      (hinside : Depicts tree children.toList inside) (hrest : Depicts tree ids rest) :
      Depicts tree (id :: ids) (.group inside rest)

theorem index_lt_of_kind? {id : NodeId} {kind : NodeKind} (h : tree.kind? id = some kind) :
    id.index < tree.size := by
  obtain ⟨node, hnode, -⟩ := Option.map_eq_some_iff.mp h
  exact (Array.getElem?_eq_some_iff.mp hnode).1

theorem exists_kind?_eq {id : NodeId} (h : id.index < tree.size) :
    ∃ kind, tree.kind? id = some kind :=
  ⟨tree.nodes[id.index].kind, by simp [kind?, get?, Array.getElem?_eq_getElem h]⟩

theorem children_of_kind?_group {id : NodeId} {children : Array NodeId}
    (h : tree.kind? id = some (.group children)) : tree.children id = children.toList := by
  obtain ⟨node, hnode, hkind⟩ := Option.map_eq_some_iff.mp h
  simp [Tree.children, hnode, Node.children, hkind]

theorem children_of_not_group {id : NodeId}
    (h : ∀ children, tree.kind? id ≠ some (.group children)) : tree.children id = [] := by
  cases hnode : tree.get? id with
  | none => simp [Tree.children, hnode]
  | some node =>
      cases hkind : node.kind with
      | group children => exact absurd (by simp [kind?, hnode, hkind]) (h children)
      | _ => simp [Tree.children, hnode, Node.children, hkind]

theorem children_of_kind?_leaf {id : NodeId} {l : Leaf} (h : tree.kind? id = some l.kind) :
    tree.children id = [] := by
  refine children_of_not_group fun children hgroup ↦ ?_
  exact l.kind_ne_group children (Option.some.inj (h.symm.trans hgroup))

theorem Depicts.unique {ids : List NodeId} {a b : Body} (ha : tree.Depicts ids a)
    (hb : tree.Depicts ids b) : a = b := by
  induction ha generalizing b with
  | empty =>
      cases hb
      rfl
  | leaf hkind _ ih =>
      cases hb with
      | leaf hkind' hrest =>
          rw [Leaf.kind_injective (Option.some.inj (hkind.symm.trans hkind')), ih hrest]
      | group hkind' _ _ =>
          exact absurd (Option.some.inj (hkind.symm.trans hkind')) (Leaf.kind_ne_group _ _)
  | group hkind _ _ ihInside ihRest =>
      cases hb with
      | leaf hkind' _ =>
          exact absurd (Option.some.inj (hkind'.symm.trans hkind)) (Leaf.kind_ne_group _ _)
      | group hkind' hinside hrest =>
          cases Option.some.inj (hkind.symm.trans hkind')
          rw [ihInside hinside, ihRest hrest]

/-! ## From sound trees to bodies -/

namespace Sound

theorem wellFounded (sound : tree.Sound) :
    WellFounded fun inner outer : tree.Reached ↦ tree.Holds outer inner := by
  have hfinite : Finite tree.Reached := by
    refine Finite.of_injective
      (fun id : tree.Reached ↦ (⟨id.1.index, sound.present id.1 id.2⟩ : Fin tree.size)) ?_
    rintro ⟨⟨i⟩, hi⟩ ⟨⟨j⟩, hj⟩ hij
    cases Fin.mk.inj hij
    rfl
  have htrans : IsTrans tree.Reached fun inner outer ↦ tree.Holds outer inner :=
    ⟨fun _ _ _ hab hbc ↦ hbc.trans hab⟩
  have hirrefl : Std.Irrefl fun inner outer : tree.Reached ↦ tree.Holds outer inner :=
    ⟨fun id ↦ sound.acyclic id.1 id.2⟩
  exact Finite.wellFounded_of_trans_of_irrefl _

end Sound

/-- The nodes `ids` in order, each group among them with the body that `inside` gives it. -/
def bodyOf (tree : Tree) : (ids : List NodeId) → (inside : ∀ id ∈ ids, Body) → Body
  | [], _ => .empty
  | id :: ids, inside =>
    let rest := tree.bodyOf ids fun id h ↦ inside id (List.mem_cons_of_mem _ h)
    match tree.kind? id with
    | some (.identifier text) => .leaf (.identifier text) rest
    | some (.combinator c) => .leaf (.combinator c) rest
    | some .negation => .leaf .negation rest
    | some (.group _) => .group (inside id List.mem_cons_self) rest
    | none => rest

def bodyBelow (sound : tree.Sound) (id : tree.Reached) : Body :=
  tree.bodyOf (tree.children id) fun child h ↦ bodyBelow sound ⟨child, id.2.tail h⟩
termination_by sound.wellFounded.wrap id
decreasing_by exact TransGen.single h

/-- What the root holds, written out: a node that is attached in several places stands in each. -/
def body (tree : Tree) (sound : tree.Sound) : Body :=
  bodyBelow sound ⟨tree.root, .refl⟩

theorem depicts_bodyOf {ids : List NodeId} {inside : ∀ id ∈ ids, Body}
    (hpresent : ∀ id ∈ ids, id.index < tree.size)
    (hinside : ∀ id h, tree.Depicts (tree.children id) (inside id h)) :
    tree.Depicts ids (tree.bodyOf ids inside) := by
  induction ids with
  | nil => exact .empty
  | cons id ids ih =>
      have hrest : tree.Depicts ids
          (tree.bodyOf ids fun i hi ↦ inside i (List.mem_cons_of_mem _ hi)) :=
        ih (fun i hi ↦ hpresent i (List.mem_cons_of_mem _ hi)) fun i hi ↦ hinside i _
      obtain ⟨kind, hkind⟩ := exists_kind?_eq (hpresent id List.mem_cons_self)
      cases kind with
      | identifier text =>
          simp only [bodyOf, hkind]
          exact .leaf hkind hrest
      | combinator c =>
          simp only [bodyOf, hkind]
          exact .leaf hkind hrest
      | negation =>
          simp only [bodyOf, hkind]
          exact .leaf hkind hrest
      | group children =>
          simp only [bodyOf, hkind]
          refine .group hkind ?_ hrest
          rw [← children_of_kind?_group hkind]
          exact hinside id List.mem_cons_self

theorem depicts_bodyBelow (sound : tree.Sound) (id : tree.Reached) :
    tree.Depicts (tree.children id) (bodyBelow sound id) := by
  induction id using sound.wellFounded.induction with
  | _ id ih =>
      rw [bodyBelow]
      exact depicts_bodyOf (fun child h ↦ sound.present child (id.2.tail h))
        fun child h ↦ ih ⟨child, id.2.tail h⟩ (.single h)

theorem depicts_body (sound : tree.Sound) :
    tree.Depicts (tree.children tree.root) (tree.body sound) :=
  depicts_bodyBelow sound ⟨tree.root, .refl⟩

/-! ## From bodies to sound trees -/

theorem Depicts.child {ids : List NodeId} {body : Body} (h : tree.Depicts ids body) {id : NodeId}
    (hid : id ∈ ids) :
    id.index < tree.size ∧
      ∃ inside, tree.Depicts (tree.children id) inside ∧ inside.size < body.size := by
  induction h with
  | empty => cases hid
  | leaf hkind hrest ih =>
      rcases List.mem_cons.mp hid with rfl | hid
      · refine ⟨index_lt_of_kind? hkind, .empty, ?_, by simp [Body.size]⟩
        rw [children_of_kind?_leaf hkind]
        exact .empty
      · obtain ⟨hlt, inside, hinside, hsize⟩ := ih hid
        exact ⟨hlt, inside, hinside, by simp only [Body.size]; omega⟩
  | group hkind hinside _ _ ihRest =>
      rcases List.mem_cons.mp hid with rfl | hid
      · rw [children_of_kind?_group hkind]
        exact ⟨index_lt_of_kind? hkind, _, hinside, by simp only [Body.size]; omega⟩
      · obtain ⟨hlt, inside, hinside, hsize⟩ := ihRest hid
        exact ⟨hlt, inside, hinside, by simp only [Body.size]; omega⟩

theorem Depicts.held {outer inner : NodeId} {body : Body}
    (h : tree.Depicts (tree.children outer) body) (hholds : tree.Holds outer inner) :
    inner.index < tree.size ∧
      ∃ inside, tree.Depicts (tree.children inner) inside ∧ inside.size < body.size := by
  induction hholds with
  | single hchild => exact h.child hchild
  | tail _ hchild ih =>
      obtain ⟨-, middle, hmiddle, hsize⟩ := ih
      obtain ⟨hlt, inside, hinside, hsize'⟩ := hmiddle.child hchild
      exact ⟨hlt, inside, hinside, hsize'.trans hsize⟩

theorem sound_of_depicts {body : Body} (hroot : tree.root.index < tree.size)
    (h : tree.Depicts (tree.children tree.root) body) : tree.Sound := by
  have hreached : ∀ id, tree.Reaches id → id.index < tree.size ∧
      ∃ inside, tree.Depicts (tree.children id) inside := by
    intro id hid
    rcases reflTransGen_iff_eq_or_transGen.mp hid with rfl | hholds
    · exact ⟨hroot, body, h⟩
    · obtain ⟨hlt, inside, hinside, -⟩ := h.held hholds
      exact ⟨hlt, inside, hinside⟩
  refine ⟨fun id hid ↦ (hreached id hid).1, fun id hid hcycle ↦ ?_⟩
  obtain ⟨-, inside, hinside⟩ := hreached id hid
  obtain ⟨-, again, hagain, hsize⟩ := hinside.held hcycle
  rw [hagain.unique hinside] at hsize
  exact lt_irrefl _ hsize

theorem body_eq (sound : tree.Sound) {body : Body}
    (h : tree.Depicts (tree.children tree.root) body) : tree.body sound = body :=
  (depicts_body sound).unique h

/-! ## The depth of a sound tree -/

/-- A body is as high as some groups of the tree contain each other. -/
theorem Depicts.exists_path {ids : List NodeId} {body : Body} (h : tree.Depicts ids body) :
    ∃ path : List NodeId, path.length = body.height ∧ path.Pairwise tree.Holds ∧
      ∀ id ∈ path, ∃ top ∈ ids,
        ReflTransGen (fun outer inner ↦ inner ∈ tree.children outer) top id := by
  induction h with
  | empty => exact ⟨[], rfl, .nil, by simp⟩
  | leaf _ _ ih =>
      obtain ⟨path, hlength, hpath, htop⟩ := ih
      refine ⟨path, hlength, hpath, fun id hid ↦ ?_⟩
      obtain ⟨top, hmem, hle⟩ := htop id hid
      exact ⟨top, List.mem_cons_of_mem _ hmem, hle⟩
  | @group outer ids children inside rest hkind _ _ ihInside ihRest =>
      rcases le_total (inside.height + 1) rest.height with hle | hle
      · obtain ⟨path, hlength, hpath, htop⟩ := ihRest
        refine ⟨path, by simpa [Body.height, hle] using hlength, hpath, fun id hid ↦ ?_⟩
        obtain ⟨top, hmem, hle⟩ := htop id hid
        exact ⟨top, List.mem_cons_of_mem _ hmem, hle⟩
      · obtain ⟨path, hlength, hpath, htop⟩ := ihInside
        have houter : ∀ id ∈ path, tree.Holds outer id := by
          intro id hid
          obtain ⟨top, hmem, hreach⟩ := htop id hid
          rw [← children_of_kind?_group hkind] at hmem
          exact TransGen.head' hmem hreach
        refine ⟨outer :: path, by simp [Body.height, hle, hlength], hpath.cons houter, ?_⟩
        intro id hid
        rcases List.mem_cons.mp hid with rfl | hid
        · exact ⟨id, List.mem_cons_self, .refl⟩
        · exact ⟨outer, List.mem_cons_self, (houter id hid).to_reflTransGen⟩

/-- Groups that contain each other are distinct, so they cannot be more than the tree has nodes. -/
theorem Depicts.height_lt_size (sound : tree.Sound) {body : Body}
    (h : tree.Depicts (tree.children tree.root) body) : body.height < tree.size := by
  obtain ⟨path, hlength, hpath, htop⟩ := h.exists_path
  have hroot : ∀ id ∈ path, tree.Holds tree.root id := by
    intro id hid
    obtain ⟨top, hmem, hreach⟩ := htop id hid
    exact TransGen.head' hmem hreach
  have hreached : ∀ id ∈ tree.root :: path, tree.Reaches id := by
    intro id hid
    rcases List.mem_cons.mp hid with rfl | hid
    · exact .refl
    · exact (hroot id hid).to_reflTransGen
  have hnodup : ((tree.root :: path).map NodeId.index).Nodup := by
    rw [List.Nodup, List.pairwise_map]
    refine (hpath.cons hroot).imp_of_mem ?_
    rintro ⟨i⟩ ⟨j⟩ hi _ hholds rfl
    exact sound.acyclic ⟨i⟩ (hreached _ hi) hholds
  have hsubset : (tree.root :: path).map NodeId.index ⊆ List.range tree.size := by
    intro i hi
    obtain ⟨id, hid, rfl⟩ := List.mem_map.mp hi
    exact List.mem_range.mpr (sound.present id (hreached id hid))
  have hle := (List.subperm_of_subset hnodup hsubset).length_le
  simp only [List.length_map, List.length_cons, List.length_range, hlength] at hle
  omega

end FieldRules.Tree
