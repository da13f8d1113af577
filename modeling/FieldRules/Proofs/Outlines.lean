import FieldRules.Proofs.Renderings
import FieldRules.Proofs.Separators
import Mathlib.Data.Nat.Digits.Defs

/-!
# Rules read from their lines

The lines of a parsed tree tell each node's depth and what it is, and nothing else of it matters: a
group ends where a line is indented no deeper than its own, so closing brackets need not be shown.
An identifier may look like anything else as long as it does not begin a line.
-/

namespace FieldRules

open Token

namespace NodeKind

/-- A node that is no group, without its place in a tree. -/
def leaf? : NodeKind → Option Leaf
  | .identifier text => some (.identifier text)
  | .combinator c => some (.combinator c)
  | .negation => some .negation
  | .group _ => none

theorem leaf?_kind (l : Leaf) : l.kind.leaf? = some l := by
  cases l <;> rfl

theorem leaf?_group (children : Array NodeId) : (group children).leaf? = none := rfl

end NodeKind

/-! ## Outlines -/

namespace Body

/-- The depths of the leaves and groups of a body, in order; a group is nothing but its depth. -/
def outline (depth : Nat) : Body → List (Nat × Option Leaf)
  | .empty => []
  | .leaf l rest => (depth, some l) :: rest.outline depth
  | .group inside rest => (depth, none) :: (inside.outline (depth + 1) ++ rest.outline depth)

theorem map_occurrences (depth n : Nat) (body : Body) :
    (body.occurrences depth n).map (fun o ↦ (o.1, o.2.kind.leaf?)) = body.outline depth := by
  induction body generalizing depth n with
  | empty => rfl
  | leaf l rest ih => simp [occurrences, outline, ih, NodeKind.leaf?_kind]
  | group inside rest ihInside ihRest =>
      simp [occurrences, outline, ihInside, ihRest, NodeKind.leaf?_group]

/-- What stands behind the body of a group is not as deep as the body. -/
theorem head_outline_append_lt (body : Body) {depth : Nat} {x : List (Nat × Option Leaf)}
    (hx : ∀ entry ∈ x.head?, entry.1 < depth) :
    ∀ entry ∈ (body.outline depth ++ x).head?, entry.1 < depth + 1 := by
  cases body with
  | empty => exact fun entry hentry ↦ (hx entry hentry).trans (Nat.lt_succ_self depth)
  | leaf | group => simp [outline]

/-- A body ends where something follows that is not as deep. -/
theorem eq_of_outline_append_eq {a b : Body} {depth : Nat} {x y : List (Nat × Option Leaf)}
    (hx : ∀ entry ∈ x.head?, entry.1 < depth) (hy : ∀ entry ∈ y.head?, entry.1 < depth)
    (h : a.outline depth ++ x = b.outline depth ++ y) : a = b ∧ x = y := by
  induction a generalizing b depth x y with
  | empty =>
      cases b with
      | empty => exact ⟨rfl, h⟩
      | leaf | group =>
          rw [outline, List.nil_append] at h
          rw [h] at hx
          exact absurd (hx _ rfl) (lt_irrefl depth)
  | leaf l rest ih =>
      cases b with
      | empty =>
          rw [outline, outline, List.nil_append] at h
          rw [← h] at hy
          exact absurd (hy _ rfl) (lt_irrefl depth)
      | leaf m other =>
          obtain ⟨hfirst, hrest⟩ := List.cons.inj h
          cases hfirst
          obtain ⟨rfl, hbehind⟩ := ih hx hy hrest
          exact ⟨rfl, hbehind⟩
      | group inside other => cases (List.cons.inj h).1
  | group inside rest ihInside ihRest =>
      cases b with
      | empty =>
          rw [outline, outline, List.nil_append] at h
          rw [← h] at hy
          exact absurd (hy _ rfl) (lt_irrefl depth)
      | leaf m other => cases (List.cons.inj h).1
      | group within other =>
          rw [outline, outline, List.cons_append, List.cons_append, List.append_assoc,
            List.append_assoc] at h
          have htail := (List.cons.inj h).2
          obtain ⟨rfl, hlater⟩ := ihInside (head_outline_append_lt rest hx)
            (head_outline_append_lt other hy) htail
          obtain ⟨rfl, hbehind⟩ := ihRest hx hy hlater
          exact ⟨rfl, hbehind⟩

end Body

/-! ## Lines -/

/-- What the line of a node says behind its id. -/
def NodeKind.words : NodeKind → String
  | .identifier text => " identifier " ++ text
  | .combinator c => " combinator " ++ c.symbol
  | .group _ => " group"
  | .negation => " negation"

theorem NodeKind.head?_words (kind : NodeKind) : kind.words.toList.head? = some ' ' := by
  cases kind <;> simp [words]

theorem NodeKind.leaf?_eq_of_words_eq {a b : NodeKind} (h : a.words.toList = b.words.toList) :
    a.leaf? = b.leaf? := by
  cases a <;> cases b <;> simp [words] at h
  case identifier.identifier => rw [String.toList_inj.mp h]
  case combinator.combinator c c' =>
    have hsame : c = c' := by
      cases c <;> cases c' <;> simp_all [Combinator.symbol]
    rw [hsame]
  all_goals rfl

theorem NodeId.toList_label (id : NodeId) :
    id.label.toList = '#' :: Nat.toDigits 10 id.index := by
  simp [label]

theorem NodeId.isDigit_of_mem_label {id : NodeId} {c : Char} (h : c ∈ id.label.toList) :
    c = '#' ∨ c.isDigit := by
  rw [toList_label, List.mem_cons] at h
  exact h.imp_right (Nat.isDigit_of_mem_toDigits (by decide) (by decide))

namespace Node

theorem label_eq (node : Node) : node.label = node.id.label ++ node.kind.words := by
  obtain ⟨id, kind⟩ := node
  cases kind <;> rfl

/-- The id ends at the first space, so the words behind it can be told from it. -/
theorem leaf?_eq_of_label_eq {a b : Node} (h : a.label = b.label) :
    a.kind.leaf? = b.kind.leaf? := by
  have hid (id : NodeId) : ∀ c ∈ id.label.toList, c ≠ ' ' := by
    rintro c hc rfl
    exact absurd (NodeId.isDigit_of_mem_label hc) (by decide)
  have hwords (kind : NodeKind) : ∀ c ∈ kind.words.toList.head?, ¬ c ≠ ' ' := by
    simp [kind.head?_words]
  rw [label_eq, label_eq, ← String.toList_inj, String.toList_append, String.toList_append] at h
  exact NodeKind.leaf?_eq_of_words_eq
    (eq_of_append_eq_append (hid _) (hid _) (hwords _) (hwords _) h).2

/-- The text of an identifier is on one line. -/
def OnOneLine (node : Node) : Prop :=
  ∀ text, node.kind = .identifier text → '\n' ∉ text.toList

theorem OnOneLine.notMem_label {node : Node} (h : node.OnOneLine) : '\n' ∉ node.label.toList := by
  rw [label_eq, String.toList_append, List.mem_append, not_or]
  constructor
  · intro hid
    exact absurd (NodeId.isDigit_of_mem_label hid) (by decide)
  · obtain ⟨id, kind⟩ := node
    cases kind with
    | identifier text => simpa [NodeKind.words] using h text rfl
    | combinator c => cases c <;> simp [NodeKind.words, Combinator.symbol]
    | group | negation => simp [NodeKind.words]

end Node

namespace Tree

variable {indent : Nat}

/-- The line of an occurrence, without its line feed. -/
def content (indent : Nat) (o : Nat × Node) : List Char :=
  List.replicate (o.1 * indent) ' ' ++ o.2.label.toList

theorem toList_lines (visited : List (Nat × Node)) :
    (String.join (visited.map (line indent))).toList =
      (visited.map (content indent)).flatMap (· ++ ['\n']) := by
  simp [String.toList_join, List.flatMap_map, line, content]

/-- Indentation and label are told apart by the sign that the label begins with. -/
theorem entry_eq_of_content_eq (hindent : 0 < indent) {a b : Nat × Node}
    (h : content indent a = content indent b) : (a.1, a.2.kind.leaf?) = (b.1, b.2.kind.leaf?) := by
  have hspaces (n : Nat) : ∀ c ∈ List.replicate n ' ', c = ' ' := fun _ hc ↦
    List.eq_of_mem_replicate hc
  have hlabel (node : Node) : ∀ c ∈ node.label.toList.head?, ¬ c = ' ' := by
    simp [node.label_eq, NodeId.toList_label]
  obtain ⟨hwidth, hlabels⟩ :=
    eq_of_append_eq_append (hspaces _) (hspaces _) (hlabel a.2) (hlabel b.2) h
  have hdepth : a.1 = b.1 := by
    have hlength := congrArg List.length hwidth
    rw [List.length_replicate, List.length_replicate] at hlength
    exact Nat.eq_of_mul_eq_mul_right hindent hlength
  rw [hdepth, Node.leaf?_eq_of_label_eq (String.toList_inj.mp hlabels)]

theorem entries_eq_of_lines_eq (hindent : 0 < indent) {visited others : List (Nat × Node)}
    (hvisited : ∀ o ∈ visited, o.2.OnOneLine) (hothers : ∀ o ∈ others, o.2.OnOneLine)
    (h : String.join (visited.map (line indent)) = String.join (others.map (line indent))) :
    visited.map (fun o ↦ (o.1, o.2.kind.leaf?)) = others.map fun o ↦ (o.1, o.2.kind.leaf?) := by
  have honeLine {entries : List (Nat × Node)} (hentries : ∀ o ∈ entries, o.2.OnOneLine) :
      ∀ piece ∈ entries.map (content indent), '\n' ∉ piece := by
    intro piece hpiece
    obtain ⟨o, ho, rfl⟩ := List.mem_map.mp hpiece
    simp [content, (hentries o ho).notMem_label]
  rw [← String.toList_inj, toList_lines, toList_lines] at h
  have hcontents := eq_of_flatMap_append_singleton_eq (honeLine hvisited) (honeLine hothers) h
  rw [← List.forall₂_eq_eq_eq, List.forall₂_map_left_iff, List.forall₂_map_right_iff] at hcontents ⊢
  exact hcontents.imp fun _ _ ↦ entry_eq_of_content_eq hindent

end Tree

/-! ## Rules -/

/-- The texts of the identifiers contain no line feed. -/
def Token.OnLines (tokens : List Token) : Prop :=
  ∀ text, .identifier text ∈ tokens → '\n' ∉ text.toList

theorem Body.onOneLine_of_mem_occurrences {body : Body} (h : OnLines body.tokens) {depth n : Nat}
    {o : Nat × Node} (ho : o ∈ body.occurrences depth n) : o.2.OnOneLine := by
  intro text hkind
  have hnode : o.2 ∈ body.nodes n := by
    rw [← map_snd_occurrences depth]
    exact List.mem_map_of_mem ho
  have hmaker : o.2.kind.token ∈ makers body.tokens := by
    rw [← map_token_nodes n]
    exact List.mem_map_of_mem hnode
  rw [hkind] at hmaker
  exact h text (List.mem_of_mem_filter hmaker)

theorem Tree.eq_of_renderWith_ofBody_eq {a b : Body} {indent : Nat} (hindent : 0 < indent)
    (ha : OnLines a.tokens) (hb : OnLines b.tokens)
    (h : (ofBody a).renderWith indent = (ofBody b).renderWith indent) : a = b := by
  have honLines {body : Body} (hbody : OnLines body.tokens) :
      OnLines (Body.group body .empty).tokens := by
    intro text htext
    exact hbody text (by simpa [Body.tokens] using htext)
  rw [renderWith_of_visits (sound_ofBody a) (visits_ofBody a),
    renderWith_of_visits (sound_ofBody b) (visits_ofBody b)] at h
  have hentries := entries_eq_of_lines_eq hindent
    (fun _ ho ↦ Body.onOneLine_of_mem_occurrences (honLines ha) ho)
    (fun _ ho ↦ Body.onOneLine_of_mem_occurrences (honLines hb) ho) h
  rw [Body.map_occurrences, Body.map_occurrences] at hentries
  have hgroup := Body.eq_of_outline_append_eq (x := []) (y := []) (by simp) (by simp)
    (congrArg (· ++ []) hentries)
  cases hgroup.1
  rfl

/-- The lines of a tree are those of one sequence of tokens only, if there is an indentation and no
identifier has a line feed in it. -/
theorem Rule.tokens_determined_by_lines {indent : Nat} (hindent : 0 < indent) {a b : List Token}
    (ha : Balanced a) (hb : Balanced b) (honLinesA : OnLines a) (honLinesB : OnLines b) :
    ∃ tree other, (Rule.tokens a).parse = .ok tree ∧ (Rule.tokens b).parse = .ok other ∧
      (tree.renderWith indent = other.renderWith indent → a = b) := by
  obtain ⟨body, rfl⟩ := Body.exists_tokens_eq ha
  obtain ⟨body', rfl⟩ := Body.exists_tokens_eq hb
  refine ⟨_, _, Tree.ofTokens_tokens body, Tree.ofTokens_tokens body', fun h ↦ ?_⟩
  rw [Tree.eq_of_renderWith_ofBody_eq hindent honLinesA honLinesB h]

/-- The two rules differ in where a bracket is closed, and one identifier looks like a group. -/
theorem Rule.tokens_determined_by_lines_closed :
    let a : List Token := [.groupOpen, .identifier " #2 group", .groupClose]
    let b : List Token := [.groupOpen, .groupClose, .identifier " #2 group"]
    Balanced a ∧ Balanced b ∧ OnLines a ∧ OnLines b ∧
      ∃ tree other, (Rule.tokens a).parse = .ok tree ∧ (Rule.tokens b).parse = .ok other ∧
        tree.renderWith 1 ≠ other.renderWith 1 := by
  intro a b
  have ha : Balanced a :=
    Body.balanced_tokens (.group (.leaf (.identifier " #2 group") .empty) .empty)
  have hb : Balanced b :=
    Body.balanced_tokens (.group .empty (.leaf (.identifier " #2 group") .empty))
  have honLinesA : OnLines a := by simp [OnLines, a]
  have honLinesB : OnLines b := by simp [OnLines, b]
  obtain ⟨tree, other, htree, hother, hinjective⟩ :=
    tokens_determined_by_lines Nat.one_pos ha hb honLinesA honLinesB
  refine ⟨ha, hb, honLinesA, honLinesB, tree, other, htree, hother, fun h ↦ ?_⟩
  exact absurd (hinjective h) (by simp [a, b])

end FieldRules
