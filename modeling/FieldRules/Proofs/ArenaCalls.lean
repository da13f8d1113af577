import FieldRules.Proofs.Parsing

/-!
# Calls on an arena

An arena is built by calls, in any order and with any ids. A call makes a node under the next id or
attaches a child, and what was made stays: all that a later call can do to a node is to give it one
more child if it is a group. So the arena can be read off its history.
-/

namespace FieldRules

namespace Node

variable {node : Node} {child : NodeId}

theorem adopt_eq_self_iff : node.adopt child = node ↔ node.isGroup = false := by
  obtain ⟨id, kind⟩ := node
  cases kind with
  | group children =>
      -- One child more is never the same list of children.
      have hne : children.push child ≠ children := fun heq ↦ by
        simpa using congrArg Array.size heq
      simp [adopt, isGroup, hne]
  | identifier | combinator | negation => simp [adopt, isGroup]

theorem adoptAll_of_isGroup_eq_false (h : node.isGroup = false) (children : List NodeId) :
    node.adoptAll children = node := by
  induction children with
  | nil => rfl
  | cons child rest ih =>
      rw [adoptAll, List.foldl_cons, adopt_eq_self_iff.mpr h]
      exact ih

end Node

namespace Arena

inductive Call
  | identifier (text : String)
  | combinator (c : Combinator)
  | group
  | negation
  | attach (parent child : NodeId)
  deriving DecidableEq, Repr

namespace Call

def makes : Call → Bool
  | .attach _ _ => false
  | _ => true

/-- The kind of the node that a call made, if `children` were attached to it since. -/
def kind? (children : List NodeId) : Call → Option NodeKind
  | .identifier text => some (.identifier text)
  | .combinator c => some (.combinator c)
  | .group => some (.group children.toArray)
  | .negation => some .negation
  | .attach _ _ => none

def childOf? (id : NodeId) : Call → Option NodeId
  | .attach parent child => if parent = id then some child else none
  | _ => none

end Call

/-- The id that a call hands back, if it makes a node, and the arena after it. -/
def answer (arena : Arena) : Call → Option NodeId × Arena
  | .identifier text => (arena.identifier text).map some id
  | .combinator c => (arena.combinator c).map some id
  | .group => arena.group.map some id
  | .negation => arena.negation.map some id
  | .attach parent child => (none, arena.attach parent child)

def after (arena : Arena) (calls : List Call) : Arena :=
  calls.foldl (fun arena call ↦ (arena.answer call).2) arena

/-- The arena after some calls in their order, from nothing on. -/
def ofHistory (history : List Call) : Arena :=
  after {} history

def made (calls : List Call) : Nat :=
  calls.countP Call.makes

/-- The children that calls attach to `id`, in the order of the calls. -/
def attached (id : NodeId) (calls : List Call) : List NodeId :=
  calls.filterMap (Call.childOf? id)

/-- Some call of the history made a group under this id. -/
def MadeGroup (history : List Call) (id : NodeId) : Prop :=
  ∃ before later, history = before ++ .group :: later ∧ id = ⟨made before⟩

variable {arena : Arena} {call : Call} {calls before later history : List Call} {k : Nat}
  {node : Node}

/-! ## One call -/

theorem exists_kind?_iff (children : List NodeId) :
    (∃ kind, call.kind? children = some kind) ↔ call.makes := by
  cases call <;> simp [Call.kind?, Call.makes]

theorem answer_of_kind? {kind : NodeKind} (h : call.kind? [] = some kind) (arena : Arena) :
    arena.answer call = (some ⟨arena.issued⟩, (arena.make kind).2) := by
  cases call with
  | attach => cases h
  | identifier | combinator | group | negation =>
      cases h
      rfl

theorem adoptAll_of_kind? {kind later : NodeKind} {children : List NodeId}
    (h : call.kind? [] = some kind) (hlater : call.kind? children = some later) (id : NodeId) :
    (⟨id, kind⟩ : Node).adoptAll children = ⟨id, later⟩ := by
  cases call with
  | attach => cases h
  | group =>
      cases h
      cases hlater
      simp [Node.adoptAll_group]
  | identifier | combinator | negation =>
      cases h
      cases hlater
      exact Node.adoptAll_of_isGroup_eq_false rfl children

theorem issued_answer (arena : Arena) (call : Call) :
    (arena.answer call).2.issued = arena.issued + made [call] := by
  cases call with
  | attach parent child => simp [answer, attach, issued, made, Call.makes]
  | identifier | combinator | group | negation =>
      simp [answer, identifier, combinator, group, negation, make, issued, made, Call.makes]

/-- A call changes no node that is there, except that it may attach a child to it. -/
theorem getElem?_answer (h : arena.nodes[k]? = some node) (call : Call) :
    (arena.answer call).2.nodes[k]? = some (node.adoptAll (attached ⟨k⟩ [call])) := by
  obtain ⟨hlt, -⟩ := Array.getElem?_eq_some_iff.mp h
  cases call with
  | attach parent child =>
      obtain ⟨i⟩ := parent
      by_cases hparent : i = k
      · simp [answer, attach, attached, Call.childOf?, Node.adoptAll, Array.getElem?_modify,
          hparent, h]
      · simp [answer, attach, attached, Call.childOf?, Node.adoptAll, Array.getElem?_modify,
          hparent, h]
  | identifier | combinator | group | negation =>
      have hkept : ∀ last : Node, (arena.nodes.push last)[k]? = some node := fun last ↦ by
        rw [Array.getElem?_push_lt hlt, ← Array.getElem?_eq_getElem hlt, h]
      exact hkept _

theorem attach_eq_self_iff {parent child : NodeId} :
    arena.attach parent child = arena ↔
      ∀ node, arena.nodes[parent.index]? = some node → node.isGroup = false := by
  constructor
  · intro heq node hnode
    have hget := congrArg (fun arena ↦ arena.nodes[parent.index]?) heq
    simp only [attach, Array.getElem?_modify, if_pos, hnode, Option.map_some, Option.some.injEq]
      at hget
    exact Node.adopt_eq_self_iff.mp hget
  · intro hleaf
    apply ext_getElem?
    intro i
    rw [attach, Array.getElem?_modify]
    split
    · next hi =>
        subst hi
        cases hnode : arena.nodes[parent.index]? with
        | none => rfl
        | some node => simp [Node.adopt_eq_self_iff.mpr (hleaf node hnode)]
    · rfl

/-! ## All calls -/

theorem made_append (calls more : List Call) : made (calls ++ more) = made calls + made more :=
  List.countP_append

theorem made_cons (call : Call) (calls : List Call) :
    made (call :: calls) = made [call] + made calls :=
  made_append [call] calls

theorem after_append (arena : Arena) (calls more : List Call) :
    arena.after (calls ++ more) = (arena.after calls).after more :=
  List.foldl_append

theorem issued_after (arena : Arena) (calls : List Call) :
    (arena.after calls).issued = arena.issued + made calls := by
  induction calls generalizing arena with
  | nil => rfl
  | cons call rest ih =>
      have hrest := ih (arena.answer call).2
      rw [issued_answer] at hrest
      rw [made_cons, ← Nat.add_assoc]
      exact hrest

theorem issued_ofHistory (history : List Call) : (ofHistory history).issued = made history := by
  have hissued := issued_after {} history
  rwa [show ({} : Arena).issued = 0 from rfl, Nat.zero_add] at hissued

theorem getElem?_after (h : arena.nodes[k]? = some node) (calls : List Call) :
    (arena.after calls).nodes[k]? = some (node.adoptAll (attached ⟨k⟩ calls)) := by
  induction calls generalizing arena node with
  | nil => exact h
  | cons call rest ih =>
      have hrest := ih (getElem?_answer h call)
      have hsplit : attached ⟨k⟩ (call :: rest) = attached ⟨k⟩ [call] ++ attached ⟨k⟩ rest :=
        List.filterMap_append (l := [call])
      rw [hsplit, Node.adoptAll_append]
      exact hrest

theorem ofHistory_append (before later : List Call) :
    ofHistory (before ++ later) = (ofHistory before).after later :=
  after_append {} before later

/-- A node stays under the id that it was made with, with all children that were attached to it
since. -/
theorem getElem?_ofHistory {kind : NodeKind}
    (h : call.kind? (attached ⟨made before⟩ later) = some kind) :
    (ofHistory (before ++ call :: later)).nodes[made before]? = some ⟨⟨made before⟩, kind⟩ := by
  obtain ⟨first, hfirst⟩ := (exists_kind?_iff []).mpr ((exists_kind?_iff _).mp ⟨kind, h⟩)
  have hissued := issued_ofHistory before
  have hmade : ((ofHistory before).answer call).2.nodes[made before]? =
      some ⟨⟨made before⟩, first⟩ := by
    rw [answer_of_kind? hfirst, ← hissued]
    exact Array.getElem?_push_size
  rw [ofHistory_append]
  have hnow := getElem?_after hmade later
  rwa [adoptAll_of_kind? hfirst h] at hnow

theorem exists_call_of_lt_made (h : k < made history) :
    ∃ before call later, history = before ++ call :: later ∧ call.makes ∧ made before = k := by
  induction history generalizing k with
  | nil => cases h
  | cons call rest ih =>
      -- The first call made the first node, if it made one at all.
      cases hmakes : call.makes with
      | false =>
          have hcall : made [call] = 0 := by simp [made, hmakes]
          rw [made_cons, hcall, Nat.zero_add] at h
          obtain ⟨before, maker, later, rfl, hmaker, hbefore⟩ := ih h
          refine ⟨call :: before, maker, later, rfl, hmaker, ?_⟩
          rw [made_cons, hcall, Nat.zero_add, hbefore]
      | true =>
          have hcall : made [call] = 1 := by simp [made, hmakes]
          cases k with
          | zero => exact ⟨[], call, rest, rfl, hmakes, rfl⟩
          | succ k =>
              rw [made_cons, hcall] at h
              have hk : k < made rest := by omega
              obtain ⟨before, maker, later, rfl, hmaker, hbefore⟩ := ih hk
              refine ⟨call :: before, maker, later, rfl, hmaker, ?_⟩
              rw [made_cons, hcall, hbefore, Nat.add_comm]

theorem exists_call_of_getElem? (h : (ofHistory history).nodes[k]? = some node) :
    ∃ before call later kind, history = before ++ call :: later ∧ made before = k ∧
      call.kind? (attached ⟨k⟩ later) = some kind ∧ node = ⟨⟨k⟩, kind⟩ := by
  obtain ⟨hlt, -⟩ := Array.getElem?_eq_some_iff.mp h
  change k < (ofHistory history).issued at hlt
  rw [issued_ofHistory] at hlt
  obtain ⟨before, call, later, rfl, hmakes, rfl⟩ := exists_call_of_lt_made hlt
  obtain ⟨kind, hkind⟩ := (exists_kind?_iff (attached ⟨made before⟩ later)).mpr hmakes
  refine ⟨before, call, later, kind, rfl, rfl, hkind, ?_⟩
  rw [getElem?_ofHistory hkind] at h
  exact (Option.some.inj h).symm

theorem madeGroup_iff {id : NodeId} :
    MadeGroup history id ↔
      ∃ node, (ofHistory history).nodes[id.index]? = some node ∧ node.isGroup = true := by
  constructor
  · rintro ⟨before, later, rfl, rfl⟩
    exact ⟨_, getElem?_ofHistory rfl, rfl⟩
  · rintro ⟨node, hnode, hgroup⟩
    obtain ⟨before, call, later, kind, rfl, hid, hkind, rfl⟩ := exists_call_of_getElem? hnode
    cases call with
    | group => exact ⟨before, later, rfl, by rw [hid]⟩
    | attach => cases hkind
    | identifier | combinator | negation =>
        cases hkind
        cases hgroup

/-- An arena holds what was made, each node under the number of those made before it, and nothing
else. A call that makes a node hands back this number, and the node keeps its id and what it was
made of; a group holds the children that were attached to it after it was made, in the order of the
calls. Attaching changes nothing exactly if no group was made under the id before. -/
theorem nodes_determined_by_history (history : List Call) :
    (ofHistory history).issued = made history ∧
      (∀ before call later, history = before ++ call :: later → call.makes →
        ((ofHistory before).answer call).1 = some ⟨made before⟩ ∧
        ∃ kind, call.kind? (attached ⟨made before⟩ later) = some kind ∧
          (ofHistory history).nodes[made before]? = some ⟨⟨made before⟩, kind⟩) ∧
      ∀ parent child,
        ofHistory (history ++ [.attach parent child]) = ofHistory history ↔
          ¬ MadeGroup history parent := by
  refine ⟨issued_ofHistory history, ?_, ?_⟩
  · rintro before call later rfl hmakes
    obtain ⟨first, hfirst⟩ := (exists_kind?_iff []).mpr hmakes
    obtain ⟨kind, hkind⟩ := (exists_kind?_iff (attached ⟨made before⟩ later)).mpr hmakes
    refine ⟨?_, kind, hkind, getElem?_ofHistory hkind⟩
    rw [answer_of_kind? hfirst, issued_ofHistory]
  · intro parent child
    rw [ofHistory_append, madeGroup_iff, not_exists]
    apply attach_eq_self_iff.trans
    apply forall_congr'
    intro node
    rw [not_and, Bool.not_eq_true]

/-- Group 0 gets a child that does not exist, twice, and itself. What is attached to it before it is
made, to the check under the id 1, and to a group that comes later is lost. -/
theorem nodes_determined_by_history_itself :
    let early : List Call := [.attach ⟨0⟩ ⟨1⟩]
    let late : List Call := [.attach ⟨0⟩ ⟨7⟩, .identifier "min:3", .attach ⟨1⟩ ⟨0⟩, .attach ⟨0⟩ ⟨0⟩,
      .attach ⟨2⟩ ⟨0⟩, .group, .attach ⟨0⟩ ⟨7⟩]
    (ofHistory (early ++ .group :: late)).issued = 3 ∧
      (ofHistory (early ++ .group :: late)).nodes[0]? =
        some ⟨⟨0⟩, .group #[⟨7⟩, ⟨0⟩, ⟨7⟩]⟩ ∧
      ofHistory early = ofHistory [] := by
  intro early late
  obtain ⟨hissued, hmakers, -⟩ := nodes_determined_by_history (early ++ .group :: late)
  obtain ⟨-, kind, hkind, hnode⟩ := hmakers early .group late rfl rfl
  cases hkind
  refine ⟨hissued, hnode, ((nodes_determined_by_history []).2.2 ⟨0⟩ ⟨1⟩).mpr ?_⟩
  rintro ⟨before, later, hsplit, -⟩
  cases before <;> cases hsplit

end Arena

end FieldRules
