import FieldRules.Proofs.Lexing

/-!
# The layout of a text

A text is its tokens as they are written, one behind the other, with white space between them. No
other character is lost, and white space only where a symbol or an end of the text is next to it.
-/

namespace FieldRules

namespace Text

/-- The text without white space. -/
def solid (text : String) : String :=
  String.ofList (text.toList.filter fun c ↦ !isBlank c)

theorem solid_eq_iff (text other : String) :
    solid text = solid other ↔
      text.toList.filter (fun c ↦ !isBlank c) = other.toList.filter fun c ↦ !isBlank c := by
  rw [solid, solid, String.ext_iff, String.toList_ofList, String.toList_ofList]

theorem filter_append_of_isBlank {gap : List Char} (h : ∀ c ∈ gap, isBlank c) (cs : List Char) :
    (gap ++ cs).filter (fun c ↦ !isBlank c) = cs.filter fun c ↦ !isBlank c := by
  have hgap : gap.filter (fun c ↦ !isBlank c) = [] := by
    rw [List.filter_eq_nil_iff]
    intro c hc
    simp [h c hc]
  rw [List.filter_append, hgap, List.nil_append]

end Text

namespace Token

variable {fresh : Bool} {cs before rest : List Char} {symbol : Token} {tokens : List Token}

/-- The characters are the tokens as they are written, one behind the other, with a gap of white
space in front of each and at the end. They are fresh if a symbol or the start of the text stands in
front of them, and only then the first token may be an identifier. So every gap is next to a symbol
or to an end of the text. -/
inductive LaidOut : Bool → List Char → List Token → Prop
  | finish {fresh : Bool} {gap : List Char} (hgap : ∀ c ∈ gap, Text.isBlank c) :
      LaidOut fresh gap []
  | symbol {fresh : Bool} {gap rest : List Char} {symbol : Token} {tokens : List Token}
      (hgap : ∀ c ∈ gap, Text.isBlank c) (hsymbol : symbol ∈ symbols)
      (hrest : LaidOut true rest tokens) :
      LaidOut fresh (gap ++ (symbol.chars ++ rest)) (symbol :: tokens)
  | identifier {gap rest : List Char} {text : String} {tokens : List Token}
      (hgap : ∀ c ∈ gap, Text.isBlank c) (htext : Legible text)
      (hrest : LaidOut false rest tokens) :
      LaidOut true (gap ++ (text.toList ++ rest)) (.identifier text :: tokens)

theorem LaidOut.filter_chars (h : LaidOut fresh cs tokens) :
    (tokens.flatMap chars).filter (fun c ↦ !Text.isBlank c) =
      cs.filter fun c ↦ !Text.isBlank c := by
  induction h with
  | finish hgap =>
      have hempty := Text.filter_append_of_isBlank hgap []
      rw [List.append_nil] at hempty
      exact hempty.symm
  | symbol hgap _ _ ih =>
      rw [Text.filter_append_of_isBlank hgap, List.flatMap_cons, List.filter_append,
        List.filter_append, ih]
  | identifier hgap _ _ ih =>
      rw [Text.filter_append_of_isBlank hgap, List.flatMap_cons, List.filter_append,
        List.filter_append, ih, chars, spelling]

theorem flatMap_chars_word (cs : List Char) : (word cs).flatMap chars = Text.trim cs := by
  unfold word
  split
  · next hnil => exact hnil.symm
  · simp [chars, spelling]

/-- A piece without symbols may stand in front of what is laid out behind a gap. -/
theorem laidOut_word_append (hplain : Plain before)
    (hrest : ∀ fresh gap, (∀ c ∈ gap, Text.isBlank c) → LaidOut fresh (gap ++ rest) tokens) :
    LaidOut true (before ++ rest) (word before ++ tokens) := by
  obtain ⟨left, right, hbefore, hleft, hright⟩ := Text.exists_eq_append_trim before
  have hchars := flatMap_chars_word before
  rcases word_cases hplain with hword | ⟨text, htext, hword⟩
  · rw [hword] at hchars ⊢
    exact hrest true before (Text.trim_eq_nil_iff.mp hchars.symm)
  · rw [hword, List.flatMap_singleton] at hchars
    rw [hword, hbefore, ← hchars, List.append_assoc, List.append_assoc]
    exact .identifier hleft htext (hrest false right hright)

theorem laidOut_read (cs : List Char) : LaidOut true cs (read cs) := by
  induction cs using piece_induction with
  | plain cs h =>
      have hend (fresh : Bool) (gap : List Char) (hgap : ∀ c ∈ gap, Text.isBlank c) :
          LaidOut fresh (gap ++ []) [] := by
        rw [List.append_nil]
        exact .finish hgap
      have hword := laidOut_word_append h hend
      rwa [List.append_nil, List.append_nil, ← read_plain h] at hword
  | symbol before symbol rest hbefore h hapart ih =>
      rw [read_append_symbol h hapart, read_plain hbefore]
      exact laidOut_word_append hbefore fun fresh gap hgap ↦ .symbol hgap h ih

end Token

/-- Without its white space, a text is its tokens one behind the other without theirs. All tokens,
and so the texts of all identifiers, stand in it as they are, in their order and apart from each
other, and white space is left out only next to a symbol or at an end of the text. -/
theorem tokenize_laidOut (text : String) :
    Text.solid (String.join ((tokenize text).map Token.spelling)) = Text.solid text ∧
      Token.LaidOut true text.toList (tokenize text) := by
  have hlaidOut : Token.LaidOut true text.toList (tokenize text) := Token.laidOut_read text.toList
  refine ⟨?_, hlaidOut⟩
  rw [Text.solid_eq_iff, String.toList_join, List.flatMap_map]
  exact hlaidOut.filter_chars

/-- Inside an identifier white space is kept. -/
example : tokenize " a  b ||\u00a0c" = [.identifier "a  b", .combinator .or, .identifier "c"] ∧
    Text.solid " a  b ||\u00a0c" = "ab||c" := by
  decide

end FieldRules
