import FieldRules.Proofs.Lexing

/-!
# Reading by splitting

Wherever a symbol stands in a text, the tokens of the text are those before it, the symbol, and
those behind it. Of a text without symbols only its identifier is left. These laws say everything
about reading: no other function from texts to tokens obeys them.
-/

namespace FieldRules

namespace Token

/-- Texts are split at the symbols in them, and a text without symbols is one identifier at most.
Of three bars or ampersands in a row the first two are the symbol, so a combinator splits a text
only if its own character does not stand in front of it. -/
structure SplitsAtSymbols (reading : String → List Token) : Prop where
  at_bracket_or_negation : ∀ symbol ∈ [.groupOpen, .groupClose, .negation], ∀ before after : String,
    reading (before ++ symbol.spelling ++ after) = reading before ++ [symbol] ++ reading after
  at_combinator : ∀ (c : Combinator) (before after : String),
    before.toList.getLast? ≠ c.symbol.toList.head? →
      reading (before ++ c.symbol ++ after) = reading before ++ [.combinator c] ++ reading after
  of_plain : ∀ text : String, Plain text.toList → (∃ c ∈ text.toList, ¬ Text.isBlank c) →
    reading text = [.identifier (Text.trimmed text)]
  of_blank : ∀ text : String, (∀ c ∈ text.toList, Text.isBlank c) → reading text = []

theorem plain_of_isBlank {cs : List Char} (h : ∀ c ∈ cs, Text.isBlank c) : Plain cs := by
  induction cs with
  | nil => exact plain_nil
  | cons c cs ih =>
      rw [List.forall_mem_cons] at h
      exact (ih h.2).cons_blank h.1

theorem word_of_isBlank {cs : List Char} (h : ∀ c ∈ cs, Text.isBlank c) : word cs = [] := by
  simp [word, Text.trim_eq_nil_iff.mpr h]

theorem word_of_not_isBlank {text : String} (h : ∃ c ∈ text.toList, ¬ Text.isBlank c) :
    word text.toList = [.identifier (Text.trimmed text)] := by
  unfold word
  split
  · next hnil =>
      obtain ⟨c, hc, hblank⟩ := h
      exact absurd (Text.trim_eq_nil_iff.mp hnil c hc) hblank
  · rfl

/-- Only a combinator is written as one character twice. -/
theorem apart_iff {before : List Char} {symbol : Token} (h : symbol ∈ symbols) :
    Apart before symbol ↔
      ∀ c, symbol = .combinator c → before.getLast? ≠ c.symbol.toList.head? := by
  cases symbol with
  | groupOpen | groupClose | negation => simp [Apart, chars, spelling]
  | combinator c => cases c <;> simp [Apart, chars, spelling, Combinator.symbol]
  | identifier text => exact absurd h (identifier_notMem_symbols text)

theorem splitsAtSymbols_tokenize : SplitsAtSymbols tokenize where
  at_bracket_or_negation := by
    intro symbol hsymbol before after
    have hmem : symbol ∈ symbols := List.mem_of_mem_take (i := 3) hsymbol
    have hapart : Apart before.toList symbol := by
      refine (apart_iff hmem).mpr fun c hc ↦ ?_
      simp [hc] at hsymbol
    rw [tokenize_append_symbol hmem hapart, List.append_assoc, List.singleton_append]
  at_combinator := by
    intro c before after hbefore
    have hmem : .combinator c ∈ symbols := by cases c <;> decide
    have hapart : Apart before.toList (.combinator c) := by
      refine (apart_iff hmem).mpr fun d hd ↦ ?_
      cases hd
      exact hbefore
    have hsplit := tokenize_append_symbol hmem hapart after
    rwa [← List.singleton_append, ← List.append_assoc] at hsplit
  of_plain := by
    intro text hplain h
    have hread := read_plain hplain
    rwa [word_of_not_isBlank h] at hread
  of_blank := by
    intro text h
    have hread := read_plain (plain_of_isBlank h)
    rwa [word_of_isBlank h] at hread

namespace SplitsAtSymbols

variable {reading : String → List Token}

theorem at_symbol (h : SplitsAtSymbols reading) {symbol : Token} (hsymbol : symbol ∈ symbols)
    {before : String} (hapart : Apart before.toList symbol) (after : String) :
    reading (before ++ symbol.spelling ++ after) = reading before ++ [symbol] ++ reading after := by
  rw [apart_iff hsymbol] at hapart
  cases symbol with
  | combinator c => exact h.at_combinator c before after (hapart c rfl)
  | groupOpen | groupClose | negation => exact h.at_bracket_or_negation _ (by simp) before after
  | identifier text => exact absurd hsymbol (identifier_notMem_symbols text)

theorem eq_word (h : SplitsAtSymbols reading) {text : String} (hplain : Plain text.toList) :
    reading text = word text.toList := by
  by_cases hblank : ∀ c ∈ text.toList, Text.isBlank c
  · rw [h.of_blank text hblank, word_of_isBlank hblank]
  · push Not at hblank
    rw [h.of_plain text hplain hblank, word_of_not_isBlank hblank]

/-- Two readings that split at the symbols agree piece by piece. -/
theorem unique {another : String → List Token} (h : SplitsAtSymbols reading)
    (h' : SplitsAtSymbols another) (cs : List Char) :
    reading (String.ofList cs) = another (String.ofList cs) := by
  induction cs using piece_induction with
  | plain cs hplain =>
      rw [← String.toList_ofList (l := cs)] at hplain
      rw [h.eq_word hplain, h'.eq_word hplain]
  | symbol before symbol rest hbefore hsymbol hapart ih =>
      have hpieces : String.ofList (before ++ (symbol.chars ++ rest)) =
          String.ofList before ++ symbol.spelling ++ String.ofList rest := by
        rw [String.append_assoc]
        simp [chars]
      rw [← String.toList_ofList (l := before)] at hbefore hapart
      rw [hpieces, h.at_symbol hsymbol hapart, h'.at_symbol hsymbol hapart, ih, h.eq_word hbefore,
        h'.eq_word hbefore]

end SplitsAtSymbols

/-- Reading a text splits it at its symbols, and nothing else does. -/
theorem splitsAtSymbols_iff_eq_tokenize (reading : String → List Token) :
    SplitsAtSymbols reading ↔ reading = tokenize := by
  constructor
  · intro h
    funext text
    have hsame := h.unique splitsAtSymbols_tokenize text.toList
    rwa [String.ofList_toList] at hsame
  · rintro rfl
    exact splitsAtSymbols_tokenize

/-- The bar behind the combinator belongs to the next piece, and one in front of it would not. -/
example : tokenize ("a" ++ "||" ++ "|b") = tokenize "a" ++ [.combinator .or] ++ tokenize "|b" ∧
    tokenize ("a|" ++ "||" ++ "b") ≠ tokenize "a|" ++ [.combinator .or] ++ tokenize "b" := by
  decide

end Token

end FieldRules
