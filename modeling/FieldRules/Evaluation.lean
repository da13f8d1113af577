import FieldRules.Invocation
import FieldRules.Registry
import FieldRules.Tree.Traversal

/-!
# Evaluating a rule

Each group folds the results of its children from left to right. `||` turns the running result on and
never off, `&&` keeps it only if the next result is true, and a negation inverts the next result. A
group starts from false under `||`, whatever stands around it, and gives one result to its parent.

The groups that are being folded stand on a stack of frames, and one step takes one child of the
innermost. No result ends the evaluation early, so every identifier is invoked.
-/

namespace FieldRules

/-- What keeps a tree from having a result. -/
inductive EvalError
  | unknownCheck (name : String)
  /-- A group has a child that is not in the tree. -/
  | missingNode (id : NodeId)
  /-- A group contains itself. -/
  | endlessGroup
  deriving DecidableEq, Repr

def EvalError.message : EvalError → String
  | .unknownCheck name => "Validator function '" ++ name ++ "' was not found"
  | .missingNode id => "Node " ++ id.label ++ " does not exist"
  | .endlessGroup => "A group contains itself"

/-- The running result of a group. -/
structure Fold where
  accumulator : Bool := false
  combinator : Combinator := .or
  negateNext : Bool := false
  deriving DecidableEq, Repr

namespace Fold

/-- Folds in the next result, inverted if a negation stands before it. -/
def add (fold : Fold) (result : Bool) : Fold :=
  let result := result != fold.negateNext
  { fold with
    negateNext := false
    accumulator :=
      match fold.combinator with
      | .or => fold.accumulator || result
      | .and => fold.accumulator && result }

end Fold

/-- A group with `depth` groups around it: its running result, and the children still to be taken. -/
structure Frame where
  depth : Nat
  rest : List NodeId
  fold : Fold := {}
  deriving DecidableEq, Repr

/-- What a value is judged by: the checks, and the fields that they may look at. -/
structure Setting where
  registry : Registry
  fields : Fields Value
  value : Value

namespace Setting

/-- The outcome of the check that an identifier names, and the report on it. -/
def invoke (setting : Setting) (text : String) : Except EvalError (Bool × Event) :=
  let call := Invocation.ofIdentifier text
  match setting.registry.get? call.name with
  | none => .error (.unknownCheck call.name)
  | some check =>
    let outcome := check setting.fields setting.value call.params
    .ok (outcome, .invoked call.name setting.value.typeName call.params outcome)

/-- What one step leads to. -/
inductive Step
  /-- Another stack of frames, after an event at most. -/
  | next (frames : List Frame) (event : Option Event)
  | done (outcome : Except EvalError Bool)

/-- Takes the next child of the innermost group. -/
def take (setting : Setting) (tree : Tree) (depth : Nat) (id : NodeId) (rest : List NodeId)
    (fold : Fold) (outer : List Frame) : Step :=
  match tree.get? id with
  | none => .done (.error (.missingNode id))
  | some node =>
    match node.kind with
    | .combinator c => .next (⟨depth, rest, { fold with combinator := c }⟩ :: outer) none
    | .negation => .next (⟨depth, rest, { fold with negateNext := true }⟩ :: outer) none
    | .identifier text =>
      match setting.invoke text with
      | .error e => .done (.error e)
      | .ok (outcome, event) => .next (⟨depth, rest, fold.add outcome⟩ :: outer) (some event)
    | .group children => .next (⟨depth + 1, children.toList, {}⟩ :: ⟨depth, rest, fold⟩ :: outer) none

/-- Takes the next child of the innermost group or, if there is none, gives its result to the group
around it. -/
def step (setting : Setting) (tree : Tree) : List Frame → Step
  | [] => .done (.ok false)
  | ⟨depth, id :: rest, fold⟩ :: outer => setting.take tree depth id rest fold outer
  | [⟨_, [], fold⟩] => .done (.ok fold.accumulator)
  | ⟨_, [], fold⟩ :: ⟨depth, rest, outerFold⟩ :: outer =>
    .next (⟨depth, rest, outerFold.add fold.accumulator⟩ :: outer) none

end Setting

namespace Frame

/-- A bound on the steps that a frame takes. -/
def weight (tree : Tree) (frame : Frame) : Nat :=
  Tree.total (frame.rest.map (tree.weight (tree.size + 1 - frame.depth))) + 1

/-- Whether the innermost group lies deeper than the tree has nodes. -/
def tooDeep (tree : Tree) : List Frame → Bool
  | [] => false
  | frame :: _ => tree.size < frame.depth

end Frame

namespace Setting

theorem total_weight_take_lt {setting : Setting} {tree : Tree} {depth : Nat} {id : NodeId}
    {rest : List NodeId} {fold : Fold} {outer frames : List Frame} {event : Option Event}
    (hdepth : depth ≤ tree.size)
    (h : setting.take tree depth id rest fold outer = .next frames event) :
    Tree.total (frames.map (·.weight tree)) <
      Tree.total ((⟨depth, id :: rest, fold⟩ :: outer).map (Frame.weight tree ·)) := by
  have hpos := tree.weight_pos (tree.size + 1 - depth) id
  unfold take at h
  split at h
  · cases h
  · next node hnode =>
    split at h
    · cases h
      simp [Frame.weight]
      omega
    · cases h
      simp [Frame.weight]
      omega
    · split at h
      · cases h
      · cases h
        simp [Frame.weight]
        omega
    · next children hkind =>
      cases h
      have hroom : tree.size + 1 - depth = (tree.size - depth) + 1 := by omega
      have hchildren : tree.children id = children.toList := by
        simp [Tree.children, hnode, Node.children, hkind]
      simp [Frame.weight, hroom, Tree.weight, hchildren]
      omega

theorem total_weight_step_lt {setting : Setting} {tree : Tree} {frames next : List Frame}
    {event : Option Event} (hdepth : Frame.tooDeep tree frames = false)
    (h : setting.step tree frames = .next next event) :
    Tree.total (next.map (·.weight tree)) < Tree.total (frames.map (·.weight tree)) := by
  unfold step at h
  split at h
  · cases h
  · exact total_weight_take_lt (by simpa [Frame.tooDeep] using hdepth) h
  · cases h
  · cases h
    simp [Frame.weight]

/-- Takes steps until there is a result. A group deeper than the tree has nodes contains itself, and
there would never be one. -/
def run (setting : Setting) (tree : Tree) (events : Array Event) (frames : List Frame) :
    Logged (Except EvalError Bool) :=
  if Frame.tooDeep tree frames then ⟨.error .endlessGroup, events⟩
  else
    match _h : setting.step tree frames with
    | .done outcome => ⟨outcome, events⟩
    | .next next none => setting.run tree events next
    | .next next (some event) => setting.run tree (events.push event) next
termination_by Tree.total (frames.map (·.weight tree))
decreasing_by all_goals exact total_weight_step_lt (by simp_all) (by assumption)

/-- Evaluates a tree, with a report on every check that was invoked. -/
def evaluation (setting : Setting) (tree : Tree) : Logged (Except EvalError Bool) :=
  setting.run tree #[] [⟨0, tree.children tree.root, {}⟩]

/-- The result of a tree. -/
def evaluate (setting : Setting) (tree : Tree) : Except EvalError Bool :=
  (setting.evaluation tree).value

end Setting

end FieldRules
