import FieldRules.Evaluation
import FieldRules.Proofs.Parsing
import FieldRules.Tree.Arena

/-!
# Evaluation as recursion

The result of a group is defined by recursion on its body: the children are taken in order, and
each group among them is evaluated on its own. The stack of frames computes the same result. A frame
below the top waits for the result of the group above it, and goes on with it as the recursion does
when it comes back.
-/

namespace FieldRules

/-- The check that a token names, if it names one that the registry does not have. -/
def Registry.unknown? (registry : Registry) : Token → Option String
  | .identifier text =>
    let name := (Invocation.ofIdentifier text).name
    if (registry.get? name).isNone then some name else none
  | _ => none

def Registry.firstUnknown? (registry : Registry) (tokens : List Token) : Option String :=
  tokens.findSome? registry.unknown?

theorem Registry.firstUnknown?_group (registry : Registry) (inside rest : Body) :
    registry.firstUnknown? (Body.group inside rest).tokens =
      (registry.firstUnknown? inside.tokens).or (registry.firstUnknown? rest.tokens) := by
  have hopen : registry.unknown? .groupOpen = none := rfl
  have hclose : registry.unknown? .groupClose = none := rfl
  simp [firstUnknown?, Body.tokens, List.findSome?_append, hopen, hclose]

namespace Setting

variable {setting : Setting} {tree : Tree}

/-- The running result behind one more result: under `||` it can only turn true. -/
def accumulate : Combinator → (accumulator result : Bool) → Bool
  | .or, accumulator, result => if result then true else accumulator
  | .and, accumulator, result => accumulator && result

/-- The result of a group with some children behind it and the others in front: what the children so
far gave, the last combinator among them, and whether a negation waits for the next result. -/
def resultFrom (setting : Setting) (accumulator : Bool) (combinator : Combinator)
    (negation : Bool) : Body → Except EvalError Bool
  | .empty => .ok accumulator
  | .leaf (.combinator c) rest => setting.resultFrom accumulator c negation rest
  | .leaf .negation rest => setting.resultFrom accumulator combinator true rest
  | .leaf (.identifier text) rest =>
    match setting.invoke text with
    | .error e => .error e
    | .ok (outcome, _) =>
      let accumulator := accumulate combinator accumulator (outcome != negation)
      setting.resultFrom accumulator combinator false rest
  | .group inside rest =>
    match setting.resultFrom false .or false inside with
    | .error e => .error e
    | .ok outcome =>
      let accumulator := accumulate combinator accumulator (outcome != negation)
      setting.resultFrom accumulator combinator false rest

def result (setting : Setting) (body : Body) : Except EvalError Bool :=
  setting.resultFrom false .or false body

def reports (setting : Setting) : Body → List Event
  | .empty => []
  | .leaf (.identifier text) rest =>
    match setting.invoke text with
    | .error _ => []
    | .ok (_, event) => event :: setting.reports rest
  | .leaf _ rest => setting.reports rest
  | .group inside rest =>
    setting.reports inside ++
      match setting.result inside with
      | .error _ => []
      | .ok _ => setting.reports rest

theorem unknown?_of_invoke_error {text : String} {e : EvalError}
    (h : setting.invoke text = .error e) :
    ∃ name, setting.registry.unknown? (.identifier text) = some name ∧ e = .unknownCheck name := by
  cases hget : setting.registry.get? (Invocation.ofIdentifier text).name with
  | none =>
      simp only [invoke, hget] at h
      cases h
      exact ⟨_, by simp [Registry.unknown?, hget], rfl⟩
  | some check =>
      simp only [invoke, hget] at h
      cases h

theorem unknown?_of_invoke_ok {text : String} {call : Bool × Event}
    (h : setting.invoke text = .ok call) : setting.registry.unknown? (.identifier text) = none := by
  cases hget : setting.registry.get? (Invocation.ofIdentifier text).name with
  | none =>
      simp only [invoke, hget] at h
      cases h
  | some check => simp [Registry.unknown?, hget]

theorem resultFrom_eq_error_iff (accumulator : Bool) (combinator : Combinator) (negation : Bool)
    (body : Body) (e : EvalError) :
    setting.resultFrom accumulator combinator negation body = .error e ↔
      ∃ name, setting.registry.firstUnknown? body.tokens = some name ∧ e = .unknownCheck name := by
  induction body generalizing accumulator combinator negation e with
  | empty => simp [resultFrom, Body.tokens, Registry.firstUnknown?]
  | leaf l rest ih =>
      cases l with
      | combinator c => exact ih _ _ _ _
      | negation => exact ih _ _ _ _
      | identifier text =>
          cases hinvoke : setting.invoke text with
          | error e' =>
              obtain ⟨name, hname, rfl⟩ := unknown?_of_invoke_error hinvoke
              simp [resultFrom, hinvoke, Registry.firstUnknown?, Body.tokens, Leaf.token, hname,
                eq_comm]
          | ok call =>
              have hknown := unknown?_of_invoke_ok hinvoke
              simp only [resultFrom, hinvoke, Registry.firstUnknown?, Body.tokens, Leaf.token,
                List.findSome?_cons, hknown]
              exact ih _ _ _ _
  | group inside rest ihInside ihRest =>
      rw [Registry.firstUnknown?_group]
      cases hresult : setting.resultFrom false .or false inside with
      | error e' =>
          obtain ⟨name, hname, rfl⟩ := (ihInside _ _ _ _).mp hresult
          simp [resultFrom, hresult, hname, eq_comm]
      | ok outcome =>
          have hnone : setting.registry.firstUnknown? inside.tokens = none := by
            refine Option.eq_none_iff_forall_ne_some.mpr fun name hname ↦ ?_
            have herror := (ihInside false .or false (.unknownCheck name)).mpr ⟨name, hname, rfl⟩
            rw [hresult] at herror
            cases herror
          simp only [resultFrom, hresult, hnone, Option.none_or]
          exact ihRest _ _ _ _

/-! ## One step of the run -/

theorem not_tooDeep {depth : Nat} (hdepth : depth ≤ tree.size) (ids : List NodeId) (fold : Fold)
    (outer : List Frame) : Frame.tooDeep tree (⟨depth, ids, fold⟩ :: outer) = false := by
  simpa [Frame.tooDeep] using hdepth

theorem run_eq {events : Array Event} {frames : List Frame}
    (hdepth : Frame.tooDeep tree frames = false) :
    setting.run tree events frames =
      match setting.step tree frames with
      | .done outcome => ⟨outcome, events⟩
      | .next next event => setting.run tree (events ++ event.toArray) next := by
  rw [run]
  simp only [hdepth, Bool.false_eq_true, if_false]
  split
  · next hstep => rw [hstep]
  · next hstep => simp [hstep]
  · next hstep => simp [hstep]

theorem run_of_done {events : Array Event} {frames : List Frame} {outcome : Except EvalError Bool}
    (hdepth : Frame.tooDeep tree frames = false) (h : setting.step tree frames = .done outcome) :
    setting.run tree events frames = ⟨outcome, events⟩ := by
  rw [run_eq hdepth, h]

theorem run_of_next {events : Array Event} {frames next : List Frame} {event : Option Event}
    (hdepth : Frame.tooDeep tree frames = false) (h : setting.step tree frames = .next next event) :
    setting.run tree events frames = setting.run tree (events ++ event.toArray) next := by
  rw [run_eq hdepth, h]

theorem take_eq (setting : Setting) {id : NodeId} {kind : NodeKind}
    (h : tree.kind? id = some kind) (depth : Nat) (rest : List NodeId) (fold : Fold)
    (outer : List Frame) :
    setting.take tree depth id rest fold outer =
      match kind with
      | .combinator c => .next (⟨depth, rest, { fold with combinator := c }⟩ :: outer) none
      | .negation => .next (⟨depth, rest, { fold with negateNext := true }⟩ :: outer) none
      | .identifier text =>
        match setting.invoke text with
        | .error e => .done (.error e)
        | .ok (outcome, event) => .next (⟨depth, rest, fold.add outcome⟩ :: outer) (some event)
      | .group children =>
        .next (⟨depth + 1, children.toList, {}⟩ :: ⟨depth, rest, fold⟩ :: outer) none := by
  obtain ⟨⟨_, kind⟩, hnode, rfl⟩ := Option.map_eq_some_iff.mp h
  cases kind with
  | identifier text =>
      cases hinvoke : setting.invoke text with
      | error e => simp [take, hnode, hinvoke]
      | ok call => simp [take, hnode, hinvoke]
  | _ => simp [take, hnode]

/-- The run once the innermost group has a result: it goes to the group around, if there is one. -/
def resume (setting : Setting) (tree : Tree) (events : Array Event) (outcome : Bool) :
    List Frame → Logged (Except EvalError Bool)
  | [] => ⟨.ok outcome, events⟩
  | ⟨depth, rest, fold⟩ :: outer =>
    setting.run tree events (⟨depth, rest, fold.add outcome⟩ :: outer)

theorem run_of_no_child {events : Array Event} {depth : Nat} {fold : Fold} {outer : List Frame}
    (hdepth : depth ≤ tree.size) :
    setting.run tree events (⟨depth, [], fold⟩ :: outer) =
      setting.resume tree events fold.accumulator outer := by
  have hfits := not_tooDeep hdepth [] fold outer
  cases outer with
  | nil => exact run_of_done hfits rfl
  | cons frame outer =>
      rw [run_of_next hfits rfl]
      simp [resume]

theorem add_eq (fold : Fold) (outcome : Bool) :
    fold.add outcome =
      ⟨accumulate fold.combinator fold.accumulator (outcome != fold.negateNext), fold.combinator,
        false⟩ := by
  obtain ⟨accumulator, combinator, negation⟩ := fold
  cases combinator <;> cases accumulator <;> cases outcome <;> cases negation <;> rfl

theorem resultFrom_add (setting : Setting) (fold : Fold) (outcome : Bool) (rest : Body) :
    setting.resultFrom (fold.add outcome).accumulator (fold.add outcome).combinator
        (fold.add outcome).negateNext rest =
      setting.resultFrom (accumulate fold.combinator fold.accumulator (outcome != fold.negateNext))
        fold.combinator false rest := by
  rw [add_eq]

/-! ## The whole run -/

/-- The invariant of the run: whatever frames wait below, a frame whose remaining children are
written out as a body ends with the result of the recursion from its running state on, or fails with
its error. -/
theorem run_of_depicts {ids : List NodeId} {body : Body} (h : tree.Depicts ids body) {depth : Nat}
    (hdepth : depth + body.height ≤ tree.size) (events : Array Event) (fold : Fold)
    (outer : List Frame) :
    setting.run tree events (⟨depth, ids, fold⟩ :: outer) =
      match setting.resultFrom fold.accumulator fold.combinator fold.negateNext body with
      | .error e => ⟨.error e, events ++ setting.reports body⟩
      | .ok outcome => setting.resume tree (events ++ setting.reports body) outcome outer := by
  induction h generalizing depth events fold outer with
  | empty =>
      rw [run_of_no_child (by simpa [Body.height] using hdepth)]
      simp [resultFrom, reports]
  | @leaf id ids l rest hkind hrest ih =>
      have hfits := not_tooDeep (by omega : depth ≤ tree.size) (id :: ids) fold outer
      have htake := setting.take_eq hkind depth ids fold outer
      cases l with
      | combinator c =>
          rw [run_of_next hfits htake, ih hdepth]
          simp [resultFrom, reports]
      | negation =>
          rw [run_of_next hfits htake, ih hdepth]
          simp [resultFrom, reports]
      | identifier text =>
          simp only [Leaf.kind] at htake
          cases hinvoke : setting.invoke text with
          | error e =>
              simp only [hinvoke] at htake
              rw [run_of_done hfits htake]
              simp [resultFrom, reports, hinvoke]
          | ok call =>
              simp only [hinvoke] at htake
              rw [run_of_next hfits htake, ih hdepth, add_eq]
              simp [resultFrom, reports, hinvoke]
  | @group id ids children inside rest hkind hinside hrest ihInside ihRest =>
      have hheight : depth + 1 + inside.height ≤ tree.size ∧ depth + rest.height ≤ tree.size := by
        simp only [Body.height] at hdepth
        omega
      have hfits := not_tooDeep (by omega : depth ≤ tree.size) (id :: ids) fold outer
      have htake := setting.take_eq hkind depth ids fold outer
      -- The body inside is evaluated with this frame among those that wait.
      rw [run_of_next hfits htake, ihInside hheight.1]
      cases hresult : setting.resultFrom false .or false inside with
      | error e => simp [resultFrom, reports, result, hresult]
      | ok outcome =>
          have hevents : events ++ setting.reports inside ++ setting.reports rest =
              events ++ (setting.reports inside ++ setting.reports rest) := by
            apply Array.ext'
            simp
          change setting.run tree _ (⟨depth, ids, fold.add outcome⟩ :: outer) = _
          rw [ihRest hheight.2, add_eq]
          simp [resultFrom, reports, result, hresult, hevents]

theorem evaluation_eq (sound : tree.Sound) :
    setting.evaluation tree =
      ⟨setting.result (tree.body sound), (setting.reports (tree.body sound)).toArray⟩ := by
  have hbody := Tree.depicts_body sound
  have hheight : 0 + (tree.body sound).height ≤ tree.size := by
    have hlt := hbody.height_lt_size sound
    omega
  rw [evaluation, run_of_depicts hbody hheight, result]
  split <;> next hresult => simp [resume, hresult]

/-- The steps from `frames` on come to an end, with this outcome. -/
inductive Halts (setting : Setting) (tree : Tree) : List Frame → Except EvalError Bool → Prop
  | done {frames outcome} (hstep : setting.step tree frames = .done outcome) :
      Halts setting tree frames outcome
  | next {frames next event outcome} (hstep : setting.step tree frames = .next next event)
      (hnext : Halts setting tree next outcome) : Halts setting tree frames outcome

theorem Halts.unique {frames : List Frame} {a b : Except EvalError Bool}
    (ha : setting.Halts tree frames a) (hb : setting.Halts tree frames b) : a = b := by
  induction ha with
  | done hstep =>
      cases hb with
      | done hstep' =>
          rw [hstep] at hstep'
          cases hstep'
          rfl
      | next hstep' _ =>
          rw [hstep] at hstep'
          cases hstep'
  | next hstep _ ih =>
      cases hb with
      | done hstep' =>
          rw [hstep] at hstep'
          cases hstep'
      | next hstep' hnext =>
          rw [hstep] at hstep'
          cases hstep'
          exact ih hnext

/-- The bound on the depth ends only runs that it reports. -/
theorem halts_of_run {events : Array Event} {frames : List Frame}
    (h : (setting.run tree events frames).value ≠ .error .endlessGroup) :
    setting.Halts tree frames (setting.run tree events frames).value := by
  fun_induction run setting tree events frames with
  | case1 => exact absurd rfl h
  | case2 _ _ _ _ hstep => exact .done hstep
  | case3 _ _ _ _ hstep ih => exact .next hstep (ih h)
  | case4 _ _ _ _ _ hstep ih => exact .next hstep (ih h)

theorem evaluate_of_sound (setting : Setting) {tree : Tree} (sound : tree.Sound) :
    setting.evaluate tree = setting.result (tree.body sound) := by
  rw [evaluate, evaluation_eq sound]

theorem evaluate_ofBody (setting : Setting) (body : Body) :
    setting.evaluate (Tree.ofBody body) = setting.result body := by
  rw [evaluate_of_sound setting (Tree.sound_ofBody body), Tree.body_ofBody]

theorem evaluate_ne_endlessGroup (setting : Setting) {tree : Tree} (sound : tree.Sound) :
    setting.evaluate tree ≠ .error .endlessGroup := by
  intro hendless
  rw [evaluate_of_sound setting sound, result, resultFrom_eq_error_iff] at hendless
  obtain ⟨name, -, hname⟩ := hendless
  cases hname

theorem halts_iff_of_sound (setting : Setting) {tree : Tree} (sound : tree.Sound)
    (outcome : Except EvalError Bool) :
    setting.Halts tree [⟨0, tree.children tree.root, {}⟩] outcome ↔
      outcome = setting.result (tree.body sound) := by
  have hhalts := halts_of_run (evaluate_ne_endlessGroup setting sound)
  rw [← evaluation, ← evaluate, evaluate_of_sound setting sound] at hhalts
  constructor
  · intro h
    exact h.unique hhalts
  · rintro rfl
    exact hhalts

/-- On a sound tree the steps come to an end without any bound on the depth, and only with the
result of the recursion. -/
theorem evaluate_eq_result (setting : Setting) {tree : Tree} (sound : tree.Sound) :
    (∀ outcome, setting.Halts tree [⟨0, tree.children tree.root, {}⟩] outcome ↔
        outcome = setting.result (tree.body sound)) ∧
      setting.evaluate tree = setting.result (tree.body sound) ∧
      ((∀ children, tree.kind? tree.root ≠ some (.group children)) →
        setting.evaluate tree = .ok false) := by
  refine ⟨halts_iff_of_sound setting sound, evaluate_of_sound setting sound, ?_⟩
  intro hroot
  have hbody := Tree.depicts_body sound
  rw [Tree.children_of_not_group hroot] at hbody
  rw [evaluate_of_sound setting sound, ← Tree.Depicts.empty.unique hbody]
  rfl

end Setting

/-- The root holds a group, and the same group once more behind a negation. -/
def Tree.twice : Tree :=
  let (root, arena) := Arena.group {}
  let (inner, arena) := arena.group
  let (negation, arena) := arena.negation
  let (check, arena) := arena.identifier "never"
  let arena := (arena.attach root inner).attach root negation
  ((arena.attach root inner).attach inner check).finish root

theorem Tree.depicts_twice :
    twice.Depicts (twice.children twice.root)
      (.group (.leaf (.identifier "never") .empty)
        (.leaf .negation (.group (.leaf (.identifier "never") .empty) .empty))) := by
  have hinner : twice.Depicts [⟨3⟩] (.leaf (.identifier "never") .empty) := .leaf rfl .empty
  exact .group rfl hinner (.leaf rfl (.group rfl hinner .empty))

theorem Setting.evaluate_eq_result_twice :
    Tree.twice.Sound ∧
      Setting.evaluate ⟨Registry.empty.register "never" fun _ _ _ ↦ false, ∅, .absent⟩ Tree.twice =
        .ok true := by
  have sound : Tree.twice.Sound := Tree.sound_of_depicts (by decide) Tree.depicts_twice
  have hbody := Tree.body_eq sound Tree.depicts_twice
  refine ⟨sound, ?_⟩
  rw [(evaluate_eq_result _ sound).2.1, hbody]
  rfl

end FieldRules
