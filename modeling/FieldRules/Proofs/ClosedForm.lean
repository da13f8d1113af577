import FieldRules.Proofs.Arenas
import FieldRules.Proofs.Comparison

/-!
# The result of a group without its running result

What a group gives can be said without following the fold. Each result is inverted if a negation is
in force where it stands, and belongs to the combinator in force there. The group is true if some
result under `||` is, and each result under `&&` behind it. The groups of a parsed tree are of this
kind one by one, whatever stands around them.
-/

namespace FieldRules

/-- The mark stands in the list, and nothing behind it ends it. -/
def InForce {α : Type} (mark : α) (ends : α → Prop) (l : List α) : Prop :=
  ∃ earlier later, l = earlier ++ mark :: later ∧ ∀ x ∈ later, ¬ ends x

theorem not_inForce_nil {α : Type} {mark : α} {ends : α → Prop} : ¬ InForce mark ends [] := by
  rintro ⟨earlier, later, h, -⟩
  simp at h

theorem inForce_append_singleton_iff {α : Type} {mark x : α} {ends : α → Prop} {l : List α} :
    InForce mark ends (l ++ [x]) ↔ x = mark ∨ ¬ ends x ∧ InForce mark ends l := by
  constructor
  · rintro ⟨earlier, later, h, hlater⟩
    rcases List.eq_nil_or_concat' later with rfl | ⟨between, last, rfl⟩
    · exact .inl (List.append_inj_right' h rfl |> List.singleton_inj.mp)
    · rw [← List.cons_append, ← List.append_assoc] at h
      obtain ⟨rfl, hlast⟩ := List.append_inj' h rfl
      cases hlast
      obtain ⟨hbetween, hx⟩ := List.forall_mem_append.mp hlater
      exact .inr ⟨hx _ List.mem_cons_self, earlier, between, rfl, hbetween⟩
  · rintro (rfl | ⟨hx, earlier, later, rfl, hlater⟩)
    · exact ⟨l, [], rfl, by simp⟩
    · refine ⟨earlier, later ++ [x], by simp, ?_⟩
      rw [List.forall_mem_append]
      exact ⟨hlater, List.forall_mem_singleton.mpr hx⟩

/-- What a child of a group does to the running result. -/
inductive Contribution
  | result (outcome : Bool)
  | combinator (combinator : Combinator)
  | negation
  deriving DecidableEq, Repr

namespace Contribution

def IsResult (x : Contribution) : Prop :=
  ∃ outcome, x = .result outcome

def IsCombinator (x : Contribution) : Prop :=
  ∃ c, x = .combinator c

/-- A negation stands behind the last result, so the next one is inverted. -/
def Negated (before : List Contribution) : Prop :=
  InForce .negation IsResult before

/-- The last combinator is `c`; without any it is `||`. -/
def Under (c : Combinator) (before : List Contribution) : Prop :=
  InForce (.combinator c) IsCombinator before ∨ c = .or ∧ ∀ x ∈ before, ¬ x.IsCombinator

/-- At place `i` stands a result that counts as `r`. -/
def CountsAt (row : List Contribution) (i : Nat) (r : Bool) : Prop :=
  ∃ outcome, row[i]? = some (.result outcome) ∧ (r ≠ outcome ↔ Negated (row.take i))

/-- A result under `||` counts as true, and so does every result behind it that is under `&&`. -/
def TurnsOn (row : List Contribution) : Prop :=
  ∃ i, CountsAt row i true ∧ Under .or (row.take i) ∧
    ∀ j > i, ∀ r, CountsAt row j r → Under .and (row.take j) → r = true

end Contribution

namespace Fold

def take (fold : Fold) : Contribution → Fold
  | .result outcome => fold.add outcome
  | .combinator c => { fold with combinator := c }
  | .negation => { fold with negateNext := true }

/-- The running result of a group behind some children. -/
def behind (row : List Contribution) : Fold :=
  row.foldl take {}

theorem behind_append_singleton (row : List Contribution) (x : Contribution) :
    behind (row ++ [x]) = (behind row).take x := by
  simp [behind]

end Fold

namespace Contribution

open Fold

variable {row front trailing : List Contribution} {x : Contribution} {c : Combinator} {r : Bool}
  {i : Nat}

/-! ## What is in force -/

theorem negated_iff_negateNext : Negated row ↔ (behind row).negateNext = true := by
  induction row using List.reverseRecOn with
  | nil => simp [Negated, not_inForce_nil, behind]
  | append_singleton row x ih =>
      rw [Negated, inForce_append_singleton_iff, behind_append_singleton, ← Negated, ih]
      cases x <;> simp [Fold.take, Fold.add, IsResult]

theorem under_iff_combinator : Under c row ↔ (behind row).combinator = c := by
  induction row using List.reverseRecOn with
  | nil => simp [Under, not_inForce_nil, behind, eq_comm]
  | append_singleton row x ih =>
      rw [behind_append_singleton]
      cases x with
      | combinator d => simp [Under, inForce_append_singleton_iff, IsCombinator, Fold.take]
      | result outcome =>
          have hsame : Under c (row ++ [.result outcome]) ↔ Under c row := by
            simp [Under, inForce_append_singleton_iff, IsCombinator, or_imp, forall_and]
          rw [hsame, ih]
          rfl
      | negation =>
          have hsame : Under c (row ++ [.negation]) ↔ Under c row := by
            simp [Under, inForce_append_singleton_iff, IsCombinator, or_imp, forall_and]
          rw [hsame, ih]
          rfl

theorem Under.unique {d : Combinator} (h : Under c row) (h' : Under d row) : c = d := by
  rw [under_iff_combinator] at h h'
  exact h.symm.trans h'

/-! ## Results in a row -/

theorem CountsAt.lt_length (h : CountsAt row i r) : i < row.length := by
  obtain ⟨outcome, hget, -⟩ := h
  exact (List.getElem?_eq_some_iff.mp hget).1

theorem countsAt_append_of_lt (h : i < row.length) (later : List Contribution) :
    CountsAt (row ++ later) i r ↔ CountsAt row i r := by
  rw [CountsAt, CountsAt, List.getElem?_append_left h, List.take_append_of_le_length h.le]

theorem countsAt_length_iff {outcome : Bool} :
    CountsAt (row ++ [.result outcome]) row.length r ↔
      (outcome != (behind row).negateNext) = r := by
  rw [CountsAt, List.getElem?_concat_length, List.take_left, negated_iff_negateNext]
  cases outcome <;> cases r <;> cases (behind row).negateNext <;> simp

theorem CountsAt.of_append_singleton (h : CountsAt (row ++ [x]) i r) :
    CountsAt row i r ∨ i = row.length ∧ x.IsResult := by
  have hlt := h.lt_length
  rw [List.length_append, List.length_singleton] at hlt
  rcases Nat.lt_succ_iff_lt_or_eq.mp hlt with hlt | rfl
  · exact .inl ((countsAt_append_of_lt hlt _).mp h)
  · obtain ⟨outcome, hget, -⟩ := h
    rw [List.getElem?_concat_length] at hget
    exact .inr ⟨rfl, outcome, Option.some.inj hget⟩

theorem turnsOn_of_append (hi : CountsAt row i true) (hunder : Under .or (row.take i))
    {later : List Contribution}
    (hlater : ∀ j > i, ∀ r, CountsAt (row ++ later) j r → Under .and ((row ++ later).take j) →
      r = true) : TurnsOn row := by
  refine ⟨i, hi, hunder, fun j hj r hr hand ↦ hlater j hj r ?_ ?_⟩
  · exact (countsAt_append_of_lt hr.lt_length _).mpr hr
  · rwa [List.take_append_of_le_length hr.lt_length.le]

theorem TurnsOn.append_singleton (h : TurnsOn row)
    (hx : ∀ r, CountsAt (row ++ [x]) row.length r → Under .and row → r = true) :
    TurnsOn (row ++ [x]) := by
  obtain ⟨i, hi, hunder, hlater⟩ := h
  refine ⟨i, (countsAt_append_of_lt hi.lt_length _).mpr hi, ?_, fun j hj r hr hand ↦ ?_⟩
  · rwa [List.take_append_of_le_length hi.lt_length.le]
  · rcases hr.of_append_singleton with hr' | ⟨rfl, -⟩
    · rw [List.take_append_of_le_length hr'.lt_length.le] at hand
      exact hlater j hj r hr' hand
    · rw [List.take_left] at hand
      exact hx r hr hand

theorem turnsOn_append_of_not_isResult (hx : ¬ x.IsResult) :
    TurnsOn (row ++ [x]) ↔ TurnsOn row := by
  constructor
  · rintro ⟨i, hi, hunder, hlater⟩
    rcases hi.of_append_singleton with hi | ⟨-, hresult⟩
    · rw [List.take_append_of_le_length hi.lt_length.le] at hunder
      exact turnsOn_of_append hi hunder hlater
    · exact absurd hresult hx
  · intro h
    refine h.append_singleton fun r hr _ ↦ ?_
    rcases hr.of_append_singleton with hr | ⟨-, hresult⟩
    · exact absurd hr.lt_length (lt_irrefl _)
    · exact absurd hresult hx

theorem turnsOn_append_result_of_or {outcome : Bool} (h : Under .or row) :
    TurnsOn (row ++ [.result outcome]) ↔
      TurnsOn row ∨ CountsAt (row ++ [.result outcome]) row.length true := by
  constructor
  · rintro ⟨i, hi, hunder, hlater⟩
    rcases hi.of_append_singleton with hi' | ⟨rfl, -⟩
    · rw [List.take_append_of_le_length hi'.lt_length.le] at hunder
      exact .inl (turnsOn_of_append hi' hunder hlater)
    · exact .inr hi
  · rintro (hrow | hlast)
    · refine hrow.append_singleton fun r _ hand ↦ ?_
      cases h.unique hand
    · refine ⟨row.length, hlast, by rwa [List.take_left], fun j hj r hr _ ↦ ?_⟩
      have hlt := hr.lt_length
      rw [List.length_append, List.length_singleton] at hlt
      omega

theorem turnsOn_append_result_of_and {outcome : Bool} (h : Under .and row) :
    TurnsOn (row ++ [.result outcome]) ↔
      TurnsOn row ∧ CountsAt (row ++ [.result outcome]) row.length true := by
  constructor
  · rintro ⟨i, hi, hunder, hlater⟩
    rcases hi.of_append_singleton with hi' | ⟨rfl, -⟩
    · have hlast : CountsAt (row ++ [.result outcome]) row.length
          (outcome != (behind row).negateNext) := countsAt_length_iff.mpr rfl
      have htrue := hlater row.length hi'.lt_length _ hlast (by rwa [List.take_left])
      rw [List.take_append_of_le_length hi'.lt_length.le] at hunder
      exact ⟨turnsOn_of_append hi' hunder hlater, htrue ▸ hlast⟩
    · rw [List.take_left] at hunder
      cases h.unique hunder
  · rintro ⟨hrow, hlast⟩
    refine hrow.append_singleton fun r hr _ ↦ ?_
    rw [countsAt_length_iff] at hr hlast
    exact hr.symm.trans hlast

/-- The running result is on exactly if the closed form says so. -/
theorem turnsOn_iff_accumulator : TurnsOn row ↔ (behind row).accumulator = true := by
  induction row using List.reverseRecOn with
  | nil => simp [TurnsOn, CountsAt, behind]
  | append_singleton row x ih =>
      rw [behind_append_singleton]
      cases x with
      | combinator d => exact (turnsOn_append_of_not_isResult (by simp [IsResult])).trans ih
      | negation => exact (turnsOn_append_of_not_isResult (by simp [IsResult])).trans ih
      | result outcome =>
          cases hc : (behind row).combinator with
          | or =>
              rw [turnsOn_append_result_of_or (under_iff_combinator.mpr hc), countsAt_length_iff,
                ih]
              simp [Fold.take, Fold.add, hc]
          | and =>
              rw [turnsOn_append_result_of_and (under_iff_combinator.mpr hc), countsAt_length_iff,
                ih]
              simp [Fold.take, Fold.add, hc]

theorem turnsOn_append_iff (htrailing : ∀ x ∈ trailing, ¬ x.IsResult) :
    TurnsOn (front ++ trailing) ↔ TurnsOn front := by
  induction trailing using List.reverseRecOn with
  | nil => rw [List.append_nil]
  | append_singleton trailing x ih =>
      obtain ⟨htrailing, hx⟩ := List.forall_mem_append.mp htrailing
      rw [← List.append_assoc, turnsOn_append_of_not_isResult (hx x List.mem_cons_self),
        ih htrailing]

end Contribution

/-! ## Groups of a tree -/

namespace Tree

variable {tree : Tree}

/-- The same nodes from another root on; from the tree's own root on they are the tree. -/
def rootedAt (tree : Tree) (id : NodeId) : Tree :=
  { tree with root := id }

theorem Depicts.rootedAt {ids : List NodeId} {body : Body} (h : tree.Depicts ids body)
    (id : NodeId) : (tree.rootedAt id).Depicts ids body := by
  induction h with
  | empty => exact .empty
  | leaf hkind _ ih => exact .leaf hkind ih
  | group hkind _ _ ihInside ihRest => exact .group hkind ihInside ihRest

end Tree

namespace Setting

variable {setting : Setting} {tree : Tree}

theorem evaluate_rootedAt {id : NodeId} {children : Array NodeId} {inside : Body}
    (hkind : tree.kind? id = some (.group children)) (h : tree.Depicts children.toList inside) :
    setting.evaluate (tree.rootedAt id) = setting.result inside := by
  have hinside :
      (tree.rootedAt id).Depicts ((tree.rootedAt id).children (tree.rootedAt id).root) inside := by
    have hchildren : (tree.rootedAt id).children id = children.toList :=
      Tree.children_of_kind?_group hkind
    rw [← hchildren] at h
    exact h.rootedAt id
  have hroot : (tree.rootedAt id).root.index < (tree.rootedAt id).size :=
    Tree.index_lt_of_kind? hkind
  have sound := Tree.sound_of_depicts hroot hinside
  rw [setting.evaluate_of_sound sound, Tree.body_eq sound hinside]

/-- What a child does to the running result of its group: a check gives its outcome, and a group the
result that it has on its own. -/
inductive Contributes (setting : Setting) (tree : Tree) : NodeId → Contribution → Prop
  | identifier {id text outcome} (hkind : tree.kind? id = some (.identifier text))
      (houtcome : setting.outcome text = .ok outcome) :
      Contributes setting tree id (.result outcome)
  | group {id children outcome} (hkind : tree.kind? id = some (.group children))
      (hresult : setting.evaluate (tree.rootedAt id) = .ok outcome) :
      Contributes setting tree id (.result outcome)
  | combinator {id c} (hkind : tree.kind? id = some (.combinator c)) :
      Contributes setting tree id (.combinator c)
  | negation {id} (hkind : tree.kind? id = some .negation) : Contributes setting tree id .negation

/-- Some steps lead from `frames` to `last`. -/
def Leads (setting : Setting) (tree : Tree) : (frames last : List Frame) → Prop :=
  Relation.ReflTransGen fun frames next ↦ ∃ event, setting.step tree frames = .next next event

theorem Leads.of_step {frames next last : List Frame} {event : Option Event}
    (hstep : setting.step tree frames = .next next event) (h : setting.Leads tree next last) :
    setting.Leads tree frames last :=
  .head ⟨event, hstep⟩ h

theorem Leads.trans {frames mid last : List Frame} (h : setting.Leads tree frames mid)
    (h' : setting.Leads tree mid last) : setting.Leads tree frames last :=
  Relation.ReflTransGen.trans h h'

/-- A frame takes the contributions of its children one after the other, whatever frames wait below
it. -/
theorem exists_contributions {ids : List NodeId} {body : Body} (h : tree.Depicts ids body)
    {fold : Fold} {result : Bool}
    (hresult : setting.resultFrom fold.accumulator fold.combinator fold.negateNext body =
      .ok result) :
    ∃ row, ids.Forall₂ (setting.Contributes tree) row ∧
      (row.foldl Fold.take fold).accumulator = result ∧
      ∀ depth outer, setting.Leads tree (⟨depth, ids, fold⟩ :: outer)
        (⟨depth, [], row.foldl Fold.take fold⟩ :: outer) := by
  induction h generalizing fold result with
  | empty => exact ⟨[], .nil, Except.ok.inj hresult, fun _ _ ↦ .refl⟩
  | @leaf id ids l rest hkind hrest ih =>
      cases l with
      | combinator c =>
          obtain ⟨row, hrow, hlast, hleads⟩ := @ih { fold with combinator := c } _ hresult
          refine ⟨.combinator c :: row, .cons (.combinator hkind) hrow, hlast,
            fun depth outer ↦ ?_⟩
          exact .of_step (setting.take_eq hkind depth ids fold outer) (hleads depth outer)
      | negation =>
          obtain ⟨row, hrow, hlast, hleads⟩ := @ih { fold with negateNext := true } _ hresult
          refine ⟨.negation :: row, .cons (.negation hkind) hrow, hlast, fun depth outer ↦ ?_⟩
          exact .of_step (setting.take_eq hkind depth ids fold outer) (hleads depth outer)
      | identifier text =>
          cases hinvoke : setting.invoke text with
          | error e => simp [resultFrom, hinvoke] at hresult
          | ok call =>
              obtain ⟨outcome, event⟩ := call
              simp only [resultFrom, hinvoke] at hresult
              rw [← setting.resultFrom_add] at hresult
              obtain ⟨row, hrow, hlast, hleads⟩ := ih hresult
              have hcontributes : setting.Contributes tree id (.result outcome) :=
                .identifier hkind (by simp [Setting.outcome, hinvoke, Except.map])
              refine ⟨_, .cons hcontributes hrow, hlast, fun depth outer ↦ ?_⟩
              have htake := setting.take_eq hkind depth ids fold outer
              simp only [Leaf.kind, hinvoke] at htake
              exact .of_step htake (hleads depth outer)
  | @group id ids children inside rest hkind hinside hrest ihInside ihRest =>
      rw [resultFrom_group] at hresult
      cases hinner : setting.result inside with
      | error e => simp [hinner, bind, Except.bind] at hresult
      | ok outcome =>
          simp only [hinner, bind, Except.bind, ← setting.resultFrom_add] at hresult
          obtain ⟨inner, -, hinnerLast, hinnerLeads⟩ := @ihInside {} _ hinner
          obtain ⟨row, hrow, hlast, hleads⟩ := ihRest hresult
          have hcontributes : setting.Contributes tree id (.result outcome) :=
            .group hkind ((evaluate_rootedAt hkind hinside).trans hinner)
          refine ⟨_, .cons hcontributes hrow, hlast, fun depth outer ↦ ?_⟩
          -- The frame of the group stands on top until it has handed its result down.
          have hup := hinnerLeads (depth + 1) (⟨depth, ids, fold⟩ :: outer)
          refine .of_step (setting.take_eq hkind depth ids fold outer) (hup.trans ?_)
          refine .of_step rfl ?_
          rw [hinnerLast]
          exact hleads depth outer

theorem exists_contributions_rootedAt (sound : tree.Sound) {id : NodeId} (hid : tree.Reaches id)
    {children : Array NodeId} (hkind : tree.kind? id = some (.group children)) {result : Bool}
    (hresult : setting.evaluate (tree.rootedAt id) = .ok result) :
    ∃ row, children.toList.Forall₂ (setting.Contributes tree) row ∧
      (Fold.behind row).accumulator = result ∧
      ∀ depth outer, setting.Leads tree (⟨depth, children.toList, {}⟩ :: outer)
        (⟨depth, [], Fold.behind row⟩ :: outer) := by
  have hdepicts := Tree.depicts_bodyBelow sound ⟨id, hid⟩
  rw [Tree.children_of_kind?_group hkind] at hdepicts
  rw [evaluate_rootedAt hkind hdepicts] at hresult
  exact @exists_contributions _ _ _ _ hdepicts {} _ hresult

theorem exists_evaluate_rootedAt (sound : tree.Sound)
    (hroot : ∃ result, setting.evaluate tree = .ok result) {id : NodeId} (hid : tree.Reaches id)
    {children : Array NodeId} (hkind : tree.kind? id = some (.group children)) :
    ∃ result, setting.evaluate (tree.rootedAt id) = .ok result := by
  induction hid generalizing children with
  | refl => exact hroot
  | @tail outer id houter hchild ih =>
      -- The group around this one has a result, so each of its children contributes to it.
      obtain ⟨siblings, hsiblings, hmem⟩ := Tree.exists_group_of_mem_children hchild
      obtain ⟨result, hresult⟩ := ih hsiblings
      obtain ⟨row, hrow, -⟩ := exists_contributions_rootedAt sound houter hsiblings hresult
      obtain ⟨i, hi⟩ := List.mem_iff_get.mp hmem
      obtain ⟨x, hcontributes⟩ : ∃ x, setting.Contributes tree id x :=
        ⟨_, hi ▸ (List.forall₂_iff_get.mp hrow).2 i i.2 (hrow.length_eq ▸ i.2)⟩
      cases hcontributes with
      | group hkind' hgroup => exact ⟨_, hgroup⟩
      | identifier hkind' _ | combinator hkind' | negation hkind' =>
          cases Option.some.inj (hkind.symm.trans hkind')

end Setting

/-- Every group of a parsed tree has a result if the tree has one. The result is the closed form of
what the children contribute, in which trailing negations and combinators do not count, and it is
what the frame of the group ends with in any run. -/
theorem Rule.group_result_iff {rule : Rule} {tree : Tree} (hparse : rule.parse = .ok tree)
    {id : NodeId} {children : Array NodeId} (hgroup : tree.kind? id = some (.group children))
    (setting : Setting) :
    ((∃ result, setting.evaluate tree = .ok result) →
        ∃ result, setting.evaluate (tree.rootedAt id) = .ok result) ∧
      ∀ result, setting.evaluate (tree.rootedAt id) = .ok result →
        ∃ row, children.toList.Forall₂ (setting.Contributes tree) row ∧
          (result = true ↔ Contribution.TurnsOn row) ∧
          (∀ front trailing, row = front ++ trailing → (∀ x ∈ trailing, ¬ x.IsResult) →
            (result = true ↔ Contribution.TurnsOn front)) ∧
          ∀ depth outer, ∃ fold : Fold, fold.accumulator = result ∧
            setting.Leads tree (⟨depth, children.toList, {}⟩ :: outer)
              (⟨depth, [], fold⟩ :: outer) := by
  obtain ⟨body, -, rfl⟩ := Tree.exists_body_of_ofTokens hparse
  have sound := Tree.sound_ofBody body
  have hid : (Tree.ofBody body).Reaches id := Tree.reaches_ofBody (Tree.index_lt_of_kind? hgroup)
  refine ⟨fun hroot ↦ Setting.exists_evaluate_rootedAt sound hroot hid hgroup,
    fun result hresult ↦ ?_⟩
  obtain ⟨row, hrow, hlast, hleads⟩ :=
    Setting.exists_contributions_rootedAt sound hid hgroup hresult
  have hturns : result = true ↔ Contribution.TurnsOn row := by
    rw [Contribution.turnsOn_iff_accumulator, hlast]
  refine ⟨row, hrow, hturns, ?_, fun depth outer ↦ ⟨_, hlast, hleads depth outer⟩⟩
  rintro front trailing rfl htrailing
  rw [hturns, Contribution.turnsOn_append_iff htrailing]

/-- In `f && (!! && t || ! f && !)` the second result of the group turns it on, and what stands
behind it does not count. -/
theorem Rule.group_result_iff_trailing :
    let rule : Rule := .text "f && (!! && t || ! f && !)"
    let setting : Setting :=
      ⟨(Registry.empty.register "t" fun _ _ _ ↦ true).register "f" fun _ _ _ ↦ false, ∅, .absent⟩
    ∃ tree children, rule.parse = .ok tree ∧ tree.kind? ⟨3⟩ = some (.group children) ∧
      setting.evaluate (tree.rootedAt ⟨3⟩) = .ok true ∧
      ∃ row, children.toList.Forall₂ (setting.Contributes tree) row ∧
        Contribution.TurnsOn row := by
  intro rule setting
  let inside : Body := .leaf .negation <| .leaf .negation <| .leaf (.combinator .and) <|
    .leaf (.identifier "t") <| .leaf (.combinator .or) <| .leaf .negation <|
    .leaf (.identifier "f") <| .leaf (.combinator .and) <| .leaf .negation .empty
  let body : Body := .leaf (.identifier "f") (.leaf (.combinator .and) (.group inside .empty))
  have hparse : rule.parse = .ok (Tree.ofBody body) := rfl
  have hgroup : (Tree.ofBody body).kind? ⟨3⟩ = some (.group (inside.ids 4).toArray) := rfl
  have hdepicts : (Tree.ofBody body).Depicts (inside.ids 4) inside :=
    Tree.depicts_ids (Tree.stores_ofBody body).of_cons.2.of_cons.2.of_cons.2.of_append.1
  have hresult : setting.evaluate ((Tree.ofBody body).rootedAt ⟨3⟩) = .ok true := by
    rw [Setting.evaluate_rootedAt hgroup hdepicts]
    rfl
  obtain ⟨row, hrow, hturns, -⟩ := (group_result_iff hparse hgroup setting).2 true hresult
  exact ⟨_, _, hparse, hgroup, hresult, row, hrow, hturns.mp rfl⟩

end FieldRules
