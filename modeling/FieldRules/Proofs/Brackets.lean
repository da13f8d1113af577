import FieldRules.Rule
import Mathlib.Order.Bounds.Basic

/-!
# Brackets of token sequences

The depth of the tree under construction is the number of groups opened less the number of groups
closed. A sequence of tokens is therefore a tree exactly if its brackets are balanced, and the two
faults of the others are read off their counts: a group closed once too often, at the first place
where that happens, or groups that are never closed.
-/

namespace FieldRules

namespace Token

def opens (tokens : List Token) : Nat :=
  tokens.count .groupOpen

def closes (tokens : List Token) : Nat :=
  tokens.count .groupClose

def isBracket : Token → Bool
  | .groupOpen | .groupClose => true
  | _ => false

/-- Nowhere are more groups closed than were opened before. -/
def Nested (tokens : List Token) : Prop :=
  ∀ seen, seen <+: tokens → closes seen ≤ opens seen

/-- Every group that is opened is closed again, and no other. -/
structure Balanced (tokens : List Token) : Prop where
  nested : Nested tokens
  closes_eq : closes tokens = opens tokens

/-- The tokens close the groups that they open and `depth` groups that were open before. -/
structure Closing (depth : Nat) (tokens : List Token) : Prop where
  closes_le : ∀ seen, seen <+: tokens → closes seen ≤ depth + opens seen
  closes_eq : closes tokens = depth + opens tokens

/-- The positions at which, with the token there, more groups are closed than opened. -/
def overclosed (tokens : List Token) : Set Nat :=
  {position | position < tokens.length ∧
    opens (tokens.take (position + 1)) < closes (tokens.take (position + 1))}

@[simp] theorem opens_nil : opens [] = 0 := rfl

@[simp] theorem closes_nil : closes [] = 0 := rfl

theorem opens_cons (token : Token) (rest : List Token) :
    opens (token :: rest) = opens rest + opens [token] := by
  simp [opens, List.count_cons]

theorem closes_cons (token : Token) (rest : List Token) :
    closes (token :: rest) = closes rest + closes [token] := by
  simp [closes, List.count_cons]

theorem Balanced.closing {tokens : List Token} (h : Balanced tokens) : Closing 0 tokens where
  closes_le := by
    intro seen hseen
    simpa using h.nested seen hseen
  closes_eq := by simpa using h.closes_eq

theorem Closing.tail {depth : Nat} {token : Token} {rest : List Token}
    (h : Closing depth (token :: rest)) :
    closes [token] ≤ depth + opens [token] ∧
      Closing (depth + opens [token] - closes [token]) rest := by
  have hfirst := h.closes_le [token] (by simp)
  refine ⟨hfirst, ?_, ?_⟩
  · intro seen hseen
    have hle := h.closes_le (token :: seen) ((List.prefix_cons_inj token).mpr hseen)
    rw [closes_cons, opens_cons] at hle
    omega
  · have heq := h.closes_eq
    rw [closes_cons, opens_cons] at heq
    omega

theorem nested_iff_take {tokens : List Token} :
    Nested tokens ↔ ∀ n, closes (tokens.take n) ≤ opens (tokens.take n) := by
  constructor
  · intro h n
    exact h _ (List.take_prefix n tokens)
  · intro h seen hseen
    rw [List.prefix_iff_eq_take.mp hseen]
    exact h seen.length

theorem balanced_filter_isBracket_iff {tokens : List Token} :
    Balanced (tokens.filter isBracket) ↔ Balanced tokens := by
  have hopens (tokens : List Token) : opens (tokens.filter isBracket) = opens tokens :=
    List.count_filter rfl
  have hcloses (tokens : List Token) : closes (tokens.filter isBracket) = closes tokens :=
    List.count_filter rfl
  constructor
  · intro h
    refine ⟨fun seen hseen ↦ ?_, ?_⟩
    · rw [← hopens, ← hcloses]
      exact h.nested _ (hseen.filter isBracket)
    · rw [← hopens, ← hcloses]
      exact h.closes_eq
  · intro h
    refine ⟨fun seen hseen ↦ ?_, ?_⟩
    · obtain ⟨whole, hwhole, rfl⟩ := List.prefix_filter_iff.mp hseen
      rw [hopens, hcloses]
      exact h.nested whole hwhole
    · rw [hopens, hcloses]
      exact h.closes_eq

theorem Balanced.of_filter_eq {a b : List Token} (h : Balanced a)
    (hfilter : a.filter isBracket = b.filter isBracket) : Balanced b := by
  rw [← balanced_filter_isBracket_iff, ← hfilter]
  exact balanced_filter_isBracket_iff.mpr h

theorem Nested.notMem_overclosed {tokens : List Token} (h : Nested tokens) (position : Nat) :
    position ∉ overclosed tokens := by
  rintro ⟨-, hover⟩
  exact hover.not_ge (nested_iff_take.mp h (position + 1))

end Token

open Token

namespace Tree.Growth

theorem take_ok {g next : Growth} {token : Token} (h : g.take token = .ok next) :
    next.position = g.position + 1 ∧
      next.enclosing.length + closes [token] = g.enclosing.length + opens [token] := by
  cases token with
  | groupOpen =>
      cases h
      exact ⟨rfl, rfl⟩
  | groupClose =>
      simp only [take, closed] at h
      split at h
      · cases h
      · next parent outer henclosing =>
          cases h
          simp [henclosing, opens, closes]
  | combinator | identifier | negation =>
      cases h
      exact ⟨rfl, rfl⟩

theorem take_error {g : Growth} {token : Token} {e : ParseError} (h : g.take token = .error e) :
    token = .groupClose ∧ g.enclosing = [] ∧ e = .unmatchedClose g.position := by
  cases token with
  | groupClose =>
      simp only [take, closed] at h
      split at h
      · next henclosing =>
          cases h
          exact ⟨rfl, henclosing, rfl⟩
      · cases h
  | groupOpen | combinator | identifier | negation => cases h

/-- The groups that are open after some tokens: those open before and those opened, less those
closed, and never fewer than none. -/
theorem takeAll_ok {tokens : List Token} {g next : Growth} (h : g.takeAll tokens = .ok next) :
    (∀ n, closes (tokens.take n) ≤ g.enclosing.length + opens (tokens.take n)) ∧
      next.enclosing.length + closes tokens = g.enclosing.length + opens tokens := by
  induction tokens generalizing g with
  | nil =>
      cases h
      simp
  | cons token rest ih =>
      simp only [takeAll] at h
      split at h
      · cases h
      · next mid hmid =>
          obtain ⟨-, hdepth⟩ := take_ok hmid
          obtain ⟨hrest, hlast⟩ := ih h
          refine ⟨fun n ↦ ?_, ?_⟩
          · cases n with
            | zero => simp
            | succ n =>
                have := hrest n
                rw [List.take_succ_cons, closes_cons, opens_cons]
                omega
          · rw [closes_cons, opens_cons]
            omega

/-- The first token that closes a group where none is open ends the construction. -/
theorem takeAll_error {tokens : List Token} {g : Growth} {e : ParseError}
    (h : g.takeAll tokens = .error e) :
    ∃ i < tokens.length, e = .unmatchedClose (g.position + i) ∧
      g.enclosing.length + opens (tokens.take (i + 1)) < closes (tokens.take (i + 1)) ∧
      ∀ n ≤ i, closes (tokens.take n) ≤ g.enclosing.length + opens (tokens.take n) := by
  induction tokens generalizing g with
  | nil => cases h
  | cons token rest ih =>
      simp only [takeAll] at h
      split at h
      · next hfail =>
          cases h
          obtain ⟨rfl, henclosing, rfl⟩ := take_error hfail
          refine ⟨0, by simp, rfl, ?_, ?_⟩
          · simp [henclosing, opens, closes]
          · intro n hn
            simp [Nat.le_zero.mp hn]
      · next mid hmid =>
          obtain ⟨hposition, hdepth⟩ := take_ok hmid
          obtain ⟨i, hi, rfl, hover, hbefore⟩ := ih h
          refine ⟨i + 1, by simpa using hi, ?_, ?_, ?_⟩
          · rw [hposition]
            congr 1
            omega
          · rw [List.take_succ_cons, closes_cons, opens_cons]
            omega
          · intro n hn
            cases n with
            | zero => simp
            | succ n =>
                have := hbefore n (by omega)
                rw [List.take_succ_cons, closes_cons, opens_cons]
                omega

end Tree.Growth

namespace Tree

theorem ofTokens_cases (tokens : List Token) :
    (∃ tree, ofTokens tokens = .ok tree ∧ Balanced tokens) ∨
      (∃ position, ofTokens tokens = .error (.unmatchedClose position) ∧
        IsLeast (overclosed tokens) position) ∨
      (ofTokens tokens = .error (.unclosedBlocks (opens tokens - closes tokens)) ∧
        Nested tokens ∧ closes tokens < opens tokens) := by
  cases hgrown : Growth.start.takeAll tokens with
  | error e =>
      obtain ⟨i, hi, rfl, hover, hbefore⟩ := Growth.takeAll_error hgrown
      simp only [Growth.start, List.length_nil, Nat.zero_add] at hover hbefore
      have hfail : ofTokens tokens = .error (.unmatchedClose i) := by
        simp only [ofTokens, hgrown]
        simp [Growth.start]
      refine .inr (.inl ⟨i, hfail, ⟨hi, hover⟩, ?_⟩)
      rintro j ⟨-, hj⟩
      by_contra hlt
      exact hj.not_ge (hbefore (j + 1) (by omega))
  | ok g =>
      obtain ⟨hnested, hdepth⟩ := Growth.takeAll_ok hgrown
      simp only [Growth.start, List.length_nil, Nat.zero_add] at hnested hdepth
      have hnested : Nested tokens := nested_iff_take.mpr hnested
      cases henclosing : g.enclosing with
      | nil =>
          rw [henclosing, List.length_nil, Nat.zero_add] at hdepth
          exact .inl ⟨g.arena.finish ⟨0⟩, by simp [ofTokens, hgrown, henclosing], hnested, hdepth⟩
      | cons parent outer =>
          have hopen : g.enclosing.length = opens tokens - closes tokens := by omega
          have hpos : 0 < g.enclosing.length := by simp [henclosing]
          refine .inr (.inr ⟨?_, hnested, by omega⟩)
          simp [ofTokens, hgrown, ← hopen, henclosing]

theorem exists_ofTokens_eq_ok_iff (tokens : List Token) :
    (∃ tree, ofTokens tokens = .ok tree) ↔ Balanced tokens := by
  constructor
  · rintro ⟨tree, htree⟩
    obtain ⟨-, -, hbalanced⟩ | ⟨_, hfail, -⟩ | ⟨hfail, -⟩ := ofTokens_cases tokens
    · exact hbalanced
    · rw [htree] at hfail
      cases hfail
    · rw [htree] at hfail
      cases hfail
  · intro hbalanced
    obtain ⟨tree, htree, -⟩ | ⟨position, -, hleast⟩ | ⟨-, -, hlt⟩ := ofTokens_cases tokens
    · exact ⟨tree, htree⟩
    · exact absurd hleast.1 (hbalanced.nested.notMem_overclosed position)
    · exact absurd hbalanced.closes_eq hlt.ne

theorem ofTokens_eq_unmatchedClose_iff (tokens : List Token) (position : Nat) :
    ofTokens tokens = .error (.unmatchedClose position) ↔ IsLeast (overclosed tokens) position := by
  obtain ⟨tree, htree, hbalanced⟩ | ⟨first, hfail, hleast⟩ | ⟨hfail, hnested, -⟩ :=
    ofTokens_cases tokens
  · refine ⟨fun h ↦ by simp [htree] at h, fun h ↦ ?_⟩
    exact absurd h.1 (hbalanced.nested.notMem_overclosed position)
  · rw [hfail]
    refine ⟨fun h ↦ ?_, fun h ↦ ?_⟩
    · cases h
      exact hleast
    · rw [hleast.unique h]
  · refine ⟨fun h ↦ by simp [hfail] at h, fun h ↦ ?_⟩
    exact absurd h.1 (hnested.notMem_overclosed position)

theorem ofTokens_eq_unclosedBlocks_iff (tokens : List Token) (depth : Nat) :
    ofTokens tokens = .error (.unclosedBlocks depth) ↔
      Nested tokens ∧ closes tokens < opens tokens ∧ depth = opens tokens - closes tokens := by
  obtain ⟨tree, htree, hbalanced⟩ | ⟨first, hfail, hleast⟩ | ⟨hfail, hnested, hlt⟩ :=
    ofTokens_cases tokens
  · refine ⟨fun h ↦ by simp [htree] at h, fun h ↦ ?_⟩
    exact absurd hbalanced.closes_eq h.2.1.ne
  · refine ⟨fun h ↦ by simp [hfail] at h, fun h ↦ ?_⟩
    exact absurd hleast.1 (h.1.notMem_overclosed first)
  · rw [hfail]
    refine ⟨fun h ↦ ?_, fun h ↦ by rw [h.2.2]⟩
    cases h
    exact ⟨hnested, hlt, rfl⟩

end Tree

/-- What the brackets of some tokens say about the outcome of parsing them. -/
structure FollowsBrackets (tokens : List Token) (outcome : Except ParseError Tree) : Prop where
  succeeds_iff : (∃ tree, outcome = .ok tree) ↔ Balanced tokens
  unmatchedClose_iff : ∀ position,
    outcome = .error (.unmatchedClose position) ↔ IsLeast (overclosed tokens) position
  unclosedBlocks_iff : ∀ depth,
    outcome = .error (.unclosedBlocks depth) ↔
      Nested tokens ∧ closes tokens < opens tokens ∧ depth = opens tokens - closes tokens
  error_cases : ∀ e, outcome = .error e →
    (∃ position, e = .unmatchedClose position) ∨ ∃ depth, e = .unclosedBlocks depth

theorem Tree.followsBrackets_ofTokens (tokens : List Token) :
    FollowsBrackets tokens (Tree.ofTokens tokens) where
  succeeds_iff := exists_ofTokens_eq_ok_iff tokens
  unmatchedClose_iff := ofTokens_eq_unmatchedClose_iff tokens
  unclosedBlocks_iff := ofTokens_eq_unclosedBlocks_iff tokens
  error_cases := by
    intro e he
    obtain ⟨_, h, -⟩ | ⟨position, h, -⟩ | ⟨h, -⟩ := ofTokens_cases tokens
    all_goals
      rw [he] at h
      cases h
    · exact .inl ⟨position, rfl⟩
    · exact .inr ⟨_, rfl⟩

/-- Parsing succeeds exactly on balanced tokens. The first group closed too often is reported
whatever follows it, and otherwise the number of groups left open. -/
theorem parse_followsBrackets :
    (∀ tokens, FollowsBrackets tokens (Rule.tokens tokens).parse) ∧
      ∀ written, FollowsBrackets (tokenize written) (Rule.text written).parse :=
  ⟨fun tokens ↦ Tree.followsBrackets_ofTokens tokens,
    fun written ↦ Tree.followsBrackets_ofTokens (tokenize written)⟩

end FieldRules
