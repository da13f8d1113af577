import FieldRules.Proofs.Trimming
import FieldRules.Token.Lexer
import Mathlib.Data.List.Infix
import Mathlib.Tactic.MkIffOfInductiveProp

/-!
# The tokens of a text

A text falls apart at the symbols in it, and what stands between two of them is one identifier at
most. So the tokens of a text are those sequences in which no two identifiers stand next to each
other and none holds a symbol. Such a sequence can be written with a space between any two tokens,
and is then read back as it was.
-/

namespace FieldRules

namespace Token

/-- The tokens that are always written alike: all but the identifiers. -/
def symbols : List Token :=
  [.groupOpen, .groupClose, .negation, .combinator .or, .combinator .and]

def chars (token : Token) : List Char :=
  token.spelling.toList

/-- The characters hold no symbol. -/
@[mk_iff]
structure Plain (cs : List Char) : Prop where
  no_open : '(' ∉ cs
  no_close : ')' ∉ cs
  no_negation : '!' ∉ cs
  no_or : ¬ ['|', '|'] <:+: cs
  no_and : ¬ ['&', '&'] <:+: cs

/-- Behind the characters the symbol is read as it is written: if it is one character twice, they
do not end with that one. -/
def Apart (before : List Char) (symbol : Token) : Prop :=
  ∀ c, symbol.chars = [c, c] → before.getLast? ≠ some c

/-- The identifier that characters without symbols stand for, if they are not all blank. -/
def word (cs : List Char) : List Token :=
  match Text.trim cs with
  | [] => []
  | text => [.identifier (String.ofList text)]

def read (cs : List Char) : List Token :=
  (scan [] #[] cs).toList

variable {c : Char} {cs before rest : List Char} {symbol : Token}

/-! ## Symbols -/

theorem mem_symbols_or (token : Token) : token ∈ symbols ∨ ∃ text, token = .identifier text := by
  cases token with
  | identifier text => exact .inr ⟨text, rfl⟩
  | combinator c => cases c <;> exact .inl (by decide)
  | groupOpen | groupClose | negation => exact .inl (by decide)

theorem identifier_notMem_symbols (text : String) : .identifier text ∉ symbols := by
  simp [symbols]

theorem chars_ne_nil : ∀ symbol ∈ symbols, symbol.chars ≠ [] := by
  decide

theorem not_isBlank_of_mem_chars : ∀ symbol ∈ symbols, ∀ c ∈ symbol.chars, ¬ Text.isBlank c := by
  have hall : ∀ symbol ∈ symbols, symbol.chars.any Text.isBlank = false := by decide
  intro symbol h c hc
  simpa using List.any_eq_false.mp (hall symbol h) c hc

/-- The first character tells symbols from each other. -/
theorem eq_of_head?_chars :
    ∀ a ∈ symbols, ∀ b ∈ symbols, a.chars.head? = b.chars.head? → a = b := by
  decide

theorem chars_once_or_twice :
    ∀ symbol ∈ symbols, ∃ c, symbol.chars = [c] ∨ symbol.chars = [c, c] := by
  simp only [symbols, List.forall_mem_cons]
  exact ⟨⟨'(', .inl rfl⟩, ⟨')', .inl rfl⟩, ⟨'!', .inl rfl⟩, ⟨'|', .inr rfl⟩, ⟨'&', .inr rfl⟩,
    by simp⟩

theorem plain_iff_forall_symbol : Plain cs ↔ ∀ symbol ∈ symbols, ¬ symbol.chars <:+: cs := by
  have hmem (c : Char) : c ∈ cs ↔ [c] <:+: cs := (List.singleton_infix_iff c cs).symm
  simp only [plain_iff, hmem, symbols, List.forall_mem_cons]
  simp [chars, spelling, Combinator.symbol]

theorem plain_nil : Plain [] := by
  simp [plain_iff]

theorem plain_cons_iff :
    Plain (c :: cs) ↔ (∀ symbol ∈ symbols, ¬ symbol.chars <+: c :: cs) ∧ Plain cs := by
  simp only [plain_iff_forall_symbol, List.infix_cons_iff, not_or, forall_and]

theorem Plain.of_isInfix {part : List Char} (h : Plain cs) (hpart : part <:+: cs) : Plain part := by
  rw [plain_iff_forall_symbol] at h ⊢
  intro symbol hsymbol hin
  exact h symbol hsymbol (hin.trans hpart)

theorem Plain.cons_blank (h : Plain cs) (hc : Text.isBlank c) : Plain (c :: cs) := by
  refine plain_cons_iff.mpr ⟨fun symbol hsymbol hpre ↦ ?_, h⟩
  rcases List.prefix_cons_iff.mp hpre with hnil | ⟨later, hlater, -⟩
  · exact chars_ne_nil symbol hsymbol hnil
  · exact not_isBlank_of_mem_chars symbol hsymbol c (by simp [hlater]) hc

theorem Plain.append_blank (h : Plain cs) (hc : Text.isBlank c) : Plain (cs ++ [c]) := by
  rw [plain_iff_forall_symbol] at h ⊢
  intro symbol hsymbol hin
  rcases List.infix_concat_iff.mp hin with hsuffix | hin
  · rcases List.suffix_concat_iff.mp hsuffix with hnil | ⟨first, hfirst, -⟩
    · exact chars_ne_nil symbol hsymbol hnil
    · exact not_isBlank_of_mem_chars symbol hsymbol c (by simp [hfirst]) hc
  · exact h symbol hsymbol hin

theorem apart_nil (symbol : Token) : Apart [] symbol := by
  simp [Apart]

theorem Apart.of_append (before : List Char) (h : Apart (before ++ rest) symbol) :
    Apart rest symbol := by
  intro c hc hlast
  exact h c hc (by simp [List.getLast?_append, hlast])

theorem Apart.cons (h : Apart before symbol) (hc : before = [] → symbol.chars ≠ [c, c]) :
    Apart (c :: before) symbol := by
  intro d hd hlast
  cases before with
  | nil =>
      cases hlast
      exact hc rfl hd
  | cons e before => exact h d hd (by simpa using hlast)

theorem apart_append_blank (hsymbol : symbol ∈ symbols) (hc : Text.isBlank c)
    (before : List Char) : Apart (before ++ [c]) symbol := by
  intro d hd hlast
  rw [List.getLast?_concat, Option.some.injEq] at hlast
  subst hlast
  exact not_isBlank_of_mem_chars symbol hsymbol c (by simp [hd]) hc

/-! ## Scanning -/

theorem flush_eq (pending : List Char) (tokens : Array Token) :
    flush pending tokens = tokens ++ (word pending.reverse).toArray := by
  cases htrim : Text.trim pending.reverse with
  | nil => simp [flush, word, htrim]
  | cons c text => simp [flush, word, htrim]

theorem scan_symbol (h : symbol ∈ symbols) (pending : List Char) (tokens : Array Token)
    (rest : List Char) :
    scan pending tokens (symbol.chars ++ rest) =
      scan [] ((flush pending tokens).push symbol) rest := by
  cases symbol with
  | groupOpen | groupClose | negation => rfl
  | combinator c => cases c <;> rfl
  | identifier text => exact absurd h (identifier_notMem_symbols text)

theorem scan_char (h : ∀ symbol ∈ symbols, ¬ symbol.chars <+: c :: rest) (pending : List Char)
    (tokens : Array Token) :
    scan pending tokens (c :: rest) = scan (c :: pending) tokens rest := by
  apply scan.eq_7
  · rintro rfl
    exact h .groupOpen (by decide) ⟨rest, rfl⟩
  · rintro rfl
    exact h .groupClose (by decide) ⟨rest, rfl⟩
  · rintro rfl
    exact h .negation (by decide) ⟨rest, rfl⟩
  · rintro later rfl rfl
    exact h (.combinator .or) (by decide) ⟨later, rfl⟩
  · rintro later rfl rfl
    exact h (.combinator .and) (by decide) ⟨later, rfl⟩

/-- A text is empty, begins with a symbol, or begins with a character of an identifier. -/
@[elab_as_elim]
theorem text_induction {motive : List Char → Prop} (nil : motive [])
    (symbol : ∀ (symbol : Token) (rest : List Char), symbol ∈ symbols → motive rest →
      motive (symbol.chars ++ rest))
    (char : ∀ (c : Char) (rest : List Char),
      (∀ symbol ∈ symbols, ¬ symbol.chars <+: c :: rest) → motive rest → motive (c :: rest))
    (cs : List Char) : motive cs := by
  induction hlength : cs.length using Nat.strong_induction_on generalizing cs with
  | _ n ih =>
      cases cs with
      | nil => exact nil
      | cons c rest =>
          by_cases h : ∃ s ∈ symbols, s.chars <+: c :: rest
          · obtain ⟨s, hs, later, hlater⟩ := h
            have hpos : 0 < s.chars.length := List.length_pos_iff.mpr (chars_ne_nil s hs)
            rw [← hlater, List.length_append] at hlength
            rw [← hlater]
            exact symbol s later hs (ih later.length (by omega) later rfl)
          · have hrest : motive rest := ih rest.length (by simp [← hlength]) rest rfl
            exact char c rest (fun s hs hpre ↦ h ⟨s, hs, hpre⟩) hrest

theorem scan_append_tokens (pending : List Char) (earlier tokens : Array Token) (cs : List Char) :
    scan pending (earlier ++ tokens) cs = earlier ++ scan pending tokens cs := by
  induction cs using text_induction generalizing pending tokens with
  | nil => simp [scan, flush_eq, Array.append_assoc]
  | symbol symbol rest hsymbol ih =>
      have hpush : (flush pending (earlier ++ tokens)).push symbol =
          earlier ++ (flush pending tokens).push symbol := by
        simp [flush_eq, Array.append_assoc]
      rw [scan_symbol hsymbol, scan_symbol hsymbol, hpush, ih]
  | char c rest hc ih => rw [scan_char hc, scan_char hc, ih]

theorem scan_plain (h : Plain cs) (pending : List Char) (tokens : Array Token) :
    scan pending tokens cs = flush (cs.reverse ++ pending) tokens := by
  induction cs generalizing pending with
  | nil => rfl
  | cons c rest ih =>
      obtain ⟨hc, hrest⟩ := plain_cons_iff.mp h
      rw [scan_char hc, ih hrest, List.reverse_cons, List.append_assoc, List.singleton_append]

/-- A character that begins no symbol begins none either if a symbol stands behind the text. -/
theorem not_prefix_append (h : symbol ∈ symbols) (hapart : Apart (c :: before) symbol)
    (hc : ∀ s ∈ symbols, ¬ s.chars <+: c :: before) (rest : List Char) :
    ∀ s ∈ symbols, ¬ s.chars <+: c :: (before ++ (symbol.chars ++ rest)) := by
  intro s hs hpre
  have hlong : (c :: before).length < s.chars.length := by
    by_contra hshort
    refine hc s hs (List.prefix_of_prefix_length_le hpre ?_ (not_lt.mp hshort))
    exact ⟨symbol.chars ++ rest, rfl⟩
  -- Only a symbol of two characters reaches behind the text, which is the first of them then.
  obtain ⟨d, hd | hd⟩ := chars_once_or_twice s hs
  · simp [hd] at hlong
  · have hbefore : before = [] := by
      simp only [hd, List.length_cons, List.length_nil] at hlong
      exact List.length_eq_zero_iff.mp (by omega)
    subst hbefore
    rw [hd, List.nil_append, List.cons_prefix_cons] at hpre
    obtain ⟨rfl, hsecond⟩ := hpre
    obtain ⟨e, he⟩ := chars_once_or_twice symbol h
    have hhead : s.chars.head? = symbol.chars.head? := by
      rcases he with he | he <;> simp_all
    rw [eq_of_head?_chars s hs symbol h hhead] at hd
    exact hapart d hd rfl

theorem scan_append_symbol (h : symbol ∈ symbols) (hapart : Apart before symbol)
    (pending : List Char) (tokens : Array Token) (rest : List Char) :
    scan pending tokens (before ++ (symbol.chars ++ rest)) =
      scan [] ((scan pending tokens before).push symbol) rest := by
  induction before using text_induction generalizing pending tokens with
  | nil => exact scan_symbol h pending tokens rest
  | symbol first later hfirst ih =>
      rw [List.append_assoc, scan_symbol hfirst, scan_symbol hfirst]
      exact ih (Apart.of_append first.chars hapart) _ _
  | char c later hc ih =>
      rw [List.cons_append, scan_char (not_prefix_append h hapart hc rest), scan_char hc]
      exact ih (Apart.of_append [c] hapart) _ _

/-! ## Reading piece by piece -/

theorem read_plain (h : Plain cs) : read cs = word cs := by
  simp [read, scan_plain h, flush_eq]

theorem read_append_symbol (h : symbol ∈ symbols) (hapart : Apart before symbol)
    (rest : List Char) :
    read (before ++ (symbol.chars ++ rest)) = read before ++ symbol :: read rest := by
  have hrest := scan_append_tokens [] ((scan [] #[] before).push symbol) #[] rest
  rw [Array.append_empty] at hrest
  simp [read, scan_append_symbol h hapart, hrest]

theorem read_symbol (h : symbol ∈ symbols) (rest : List Char) :
    read (symbol.chars ++ rest) = symbol :: read rest :=
  read_append_symbol h (apart_nil symbol) rest

theorem plain_or_exists_symbol (cs : List Char) :
    Plain cs ∨ ∃ before symbol rest, Plain before ∧ symbol ∈ symbols ∧ Apart before symbol ∧
      cs = before ++ (symbol.chars ++ rest) := by
  induction cs using text_induction with
  | nil => exact .inl plain_nil
  | symbol symbol rest h _ => exact .inr ⟨[], symbol, rest, plain_nil, h, apart_nil symbol, rfl⟩
  | char c later hc ih =>
      rcases ih with hplain | ⟨before, symbol, rest, hbefore, h, hapart, rfl⟩
      · exact .inl (plain_cons_iff.mpr ⟨hc, hplain⟩)
      · refine .inr ⟨c :: before, symbol, rest, ?_, h, hapart.cons ?_, rfl⟩
        · refine plain_cons_iff.mpr ⟨fun s hs hpre ↦ hc s hs (hpre.trans ?_), hbefore⟩
          exact ⟨symbol.chars ++ rest, rfl⟩
        · rintro rfl hd
          exact hc symbol h ⟨c :: rest, by simp [hd]⟩

/-- A text has no symbol, or one behind a piece without symbols, and more text behind it. -/
@[elab_as_elim]
theorem piece_induction {motive : List Char → Prop}
    (plain : ∀ cs, Plain cs → motive cs)
    (symbol : ∀ (before : List Char) (symbol : Token) (rest : List Char), Plain before →
      symbol ∈ symbols → Apart before symbol → motive rest →
      motive (before ++ (symbol.chars ++ rest)))
    (cs : List Char) : motive cs := by
  induction hlength : cs.length using Nat.strong_induction_on generalizing cs with
  | _ n ih =>
      rcases plain_or_exists_symbol cs with hplain | ⟨before, s, rest, hbefore, hs, hapart, rfl⟩
      · exact plain cs hplain
      · have hpos : 0 < s.chars.length := List.length_pos_iff.mpr (chars_ne_nil s hs)
        rw [List.length_append, List.length_append] at hlength
        exact symbol before s rest hbefore hs hapart (ih rest.length (by omega) rest rfl)

theorem read_cons_blank (hc : Text.isBlank c) (cs : List Char) : read (c :: cs) = read cs := by
  have hplain : ∀ {cs}, Plain cs → read (c :: cs) = read cs := by
    intro cs h
    rw [read_plain (h.cons_blank hc), read_plain h, word, word, Text.trim_cons_of_isBlank hc]
  cases cs using piece_induction with
  | plain cs h => exact hplain h
  | symbol before symbol rest hbefore h hapart _ =>
      have hapart' : Apart (c :: before) symbol := by
        refine hapart.cons fun _ hd ↦ ?_
        exact not_isBlank_of_mem_chars symbol h c (by simp [hd]) hc
      rw [← List.cons_append, read_append_symbol h hapart', read_append_symbol h hapart,
        hplain hbefore]

theorem read_append_blank (hc : Text.isBlank c) (cs : List Char) : read (cs ++ [c]) = read cs := by
  induction cs using piece_induction with
  | plain cs h =>
      rw [read_plain (h.append_blank hc), read_plain h, word, word, Text.trim_append_of_isBlank hc]
  | symbol before symbol rest _ h hapart ih =>
      rw [List.append_assoc, List.append_assoc, read_append_symbol h hapart,
        read_append_symbol h hapart, ih]

theorem read_trim (cs : List Char) : read (Text.trim cs) = read cs := by
  have hstart (cs : List Char) : read (cs.dropWhile Text.isBlank) = read cs := by
    induction cs with
    | nil => rfl
    | cons c cs ih =>
        by_cases hc : Text.isBlank c
        · rw [List.dropWhile_cons_of_pos hc, ih, read_cons_blank hc]
        · rw [List.dropWhile_cons_of_neg hc]
  have hend (cs : List Char) : read (cs.rdropWhile Text.isBlank) = read cs := by
    induction cs using List.reverseRecOn with
    | nil => rfl
    | append_singleton cs c ih =>
        by_cases hc : Text.isBlank c
        · rw [List.rdropWhile_concat_pos _ _ _ hc, ih, read_append_blank hc]
        · rw [List.rdropWhile_concat_neg _ _ _ hc]
  rw [Text.trim_eq_rdropWhile, hend, hstart]

/-! ## Lexical sequences -/

/-- The text of an identifier: not empty, without symbols, and without white space at its ends. -/
structure Legible (text : String) : Prop where
  nonempty : text ≠ ""
  trimmed : Text.trimmed text = text
  plain : Plain text.toList

/-- The identifiers are legible and never stand next to each other. -/
structure Lexical (tokens : List Token) : Prop where
  legible : ∀ text, .identifier text ∈ tokens → Legible text
  separate : ∀ a b, ¬ [.identifier a, .identifier b] <:+: tokens

/-- The tokens as they are written, with a space between any two. -/
def spaced (tokens : List Token) : String :=
  " ".intercalate (tokens.map spelling)

theorem toList_spaced (tokens : List Token) :
    (spaced tokens).toList = [' '].intercalate (tokens.map chars) := by
  rw [spaced, String.toList_intercalate, List.map_map]
  rfl

theorem word_toList {text : String} (h : Legible text) : word text.toList = [.identifier text] := by
  have htrim := (Text.trimmed_eq_self_iff text).mp h.trimmed
  unfold word
  rw [htrim]
  split
  · next hnil => exact absurd (String.toList_eq_nil_iff.mp hnil) h.nonempty
  · rw [String.ofList_toList]

theorem word_cases (h : Plain cs) :
    word cs = [] ∨ ∃ text, Legible text ∧ word cs = [.identifier text] := by
  cases htrim : Text.trim cs with
  | nil => exact .inl (by simp [word, htrim])
  | cons c rest =>
      refine .inr ⟨String.ofList (c :: rest), ⟨?_, ?_, ?_⟩, by simp [word, htrim]⟩
      · simp
      · rw [Text.trimmed_ofList, ← htrim, Text.trim_trim]
      · rw [String.toList_ofList, ← htrim]
        exact h.of_isInfix (Text.trim_isInfix cs)

theorem Lexical.tail {token : Token} {tokens : List Token} (h : Lexical (token :: tokens)) :
    Lexical tokens where
  legible := fun text htext ↦ h.legible text (List.mem_cons_of_mem _ htext)
  separate := fun a b hin ↦ h.separate a b (List.infix_cons hin)

theorem Lexical.cons_symbol {tokens : List Token} (h : Lexical tokens)
    (hsymbol : symbol ∈ symbols) : Lexical (symbol :: tokens) where
  legible := by
    intro text htext
    rcases List.mem_cons.mp htext with rfl | htext
    · exact absurd hsymbol (identifier_notMem_symbols text)
    · exact h.legible text htext
  separate := by
    intro a b hin
    rcases List.infix_cons_iff.mp hin with hpre | hin
    · obtain ⟨rfl, -⟩ := List.cons_prefix_cons.mp hpre
      exact identifier_notMem_symbols a hsymbol
    · exact h.separate a b hin

theorem Lexical.cons_identifier {tokens : List Token} (h : Lexical tokens) {text : String}
    (htext : Legible text) (hhead : ∀ token ∈ tokens.head?, token ∈ symbols) :
    Lexical (.identifier text :: tokens) where
  legible := by
    intro other hother
    rcases List.mem_cons.mp hother with heq | hother
    · cases heq
      exact htext
    · exact h.legible other hother
  separate := by
    intro a b hin
    rcases List.infix_cons_iff.mp hin with hpre | hin
    · obtain ⟨-, later, rfl⟩ := List.cons_prefix_cons.mp hpre
      exact identifier_notMem_symbols b (hhead _ rfl)
    · exact h.separate a b hin

theorem Lexical.head_mem_symbols {text : String} {token : Token} {tokens : List Token}
    (h : Lexical (.identifier text :: token :: tokens)) : token ∈ symbols := by
  rcases mem_symbols_or token with hsymbol | ⟨other, rfl⟩
  · exact hsymbol
  · exact absurd ⟨[], tokens, rfl⟩ (h.separate text other)

theorem lexical_nil : Lexical [] :=
  ⟨by simp, by simp⟩

theorem lexical_word_append {tokens : List Token} (hcs : Plain cs) (h : Lexical tokens)
    (hhead : ∀ token ∈ tokens.head?, token ∈ symbols) : Lexical (word cs ++ tokens) := by
  rcases word_cases hcs with hword | ⟨text, htext, hword⟩
  · rwa [hword]
  · rw [hword]
    exact h.cons_identifier htext hhead

theorem lexical_read (cs : List Char) : Lexical (read cs) := by
  induction cs using piece_induction with
  | plain cs h =>
      rw [read_plain h, ← List.append_nil (word cs)]
      exact lexical_word_append h lexical_nil (by simp)
  | symbol before symbol rest hbefore h hapart ih =>
      rw [read_append_symbol h hapart, read_plain hbefore]
      exact lexical_word_append hbefore (ih.cons_symbol h) (by simpa using h)

/-- What stands behind a space and begins with a symbol is read on its own. -/
theorem read_append_space (hsymbol : symbol ∈ symbols) (before later : List Char) :
    read (before ++ ' ' :: (symbol.chars ++ later)) =
      read before ++ read (symbol.chars ++ later) := by
  have hapart : Apart (before ++ [' ']) symbol := apart_append_blank hsymbol rfl before
  have hsplit := read_append_symbol hsymbol hapart later
  rwa [List.append_assoc, read_append_blank rfl, ← read_symbol hsymbol] at hsplit

theorem exists_intercalate_cons (separator piece : List Char) (pieces : List (List Char)) :
    ∃ later, separator.intercalate (piece :: pieces) = piece ++ later := by
  cases pieces with
  | nil => exact ⟨[], by simp⟩
  | cons next pieces =>
      exact ⟨separator ++ separator.intercalate (next :: pieces), by
        rw [List.intercalate_cons_cons, List.append_assoc]⟩

theorem read_intercalate {tokens : List Token} (h : Lexical tokens) :
    read ([' '].intercalate (tokens.map chars)) = tokens := by
  induction tokens with
  | nil => rfl
  | cons token tokens ih =>
      have hrest := ih h.tail
      rcases mem_symbols_or token with hsymbol | ⟨text, rfl⟩
      · cases tokens with
        | nil =>
            have hlast := read_symbol hsymbol []
            rw [List.append_nil] at hlast
            rwa [List.map_singleton, List.intercalate_singleton]
        | cons next tokens =>
            rw [List.map_cons, List.map_cons, List.intercalate_cons_cons, List.append_assoc,
              read_symbol hsymbol, List.singleton_append, read_cons_blank rfl]
            rw [List.map_cons] at hrest
            rw [hrest]
      · have htext := h.legible text List.mem_cons_self
        have hread : read text.toList = [.identifier text] := by
          rw [read_plain htext.plain, word_toList htext]
        cases tokens with
        | nil => rwa [List.map_singleton, List.intercalate_singleton]
        | cons next tokens =>
            -- The next token is a symbol, and the space keeps it apart from the identifier.
            obtain ⟨later, hlater⟩ := exists_intercalate_cons [' '] next.chars (tokens.map chars)
            rw [List.map_cons, hlater] at hrest
            rw [List.map_cons, List.map_cons, List.intercalate_cons_cons, hlater,
              List.append_assoc, List.singleton_append, chars, spelling,
              read_append_space h.head_mem_symbols, hread, hrest, List.singleton_append]

theorem tokenize_spaced {tokens : List Token} (h : Lexical tokens) :
    tokenize (spaced tokens) = tokens := by
  have hread := read_intercalate h
  rwa [← toList_spaced] at hread

theorem lexical_tokenize (text : String) : Lexical (tokenize text) :=
  lexical_read text.toList

end Token

/-- A text may be trimmed before it is read. -/
theorem tokenize_trimmed (text : String) : tokenize (Text.trimmed text) = tokenize text := by
  have h := Token.read_trim text.toList
  rwa [← String.toList_ofList (l := Text.trim text.toList)] at h

theorem tokenize_append_symbol {symbol : Token} (h : symbol ∈ Token.symbols) {before : String}
    (hapart : Token.Apart before.toList symbol) (after : String) :
    tokenize (before ++ symbol.spelling ++ after) =
      tokenize before ++ symbol :: tokenize after := by
  have hread := Token.read_append_symbol h hapart after.toList
  rwa [Token.chars, ← String.toList_append, ← String.toList_append, ← String.append_assoc] at hread

theorem tokenize_symbol_append {symbol : Token} (h : symbol ∈ Token.symbols) (after : String) :
    tokenize (symbol.spelling ++ after) = symbol :: tokenize after := by
  have hread := Token.read_symbol h after.toList
  rwa [Token.chars, ← String.toList_append] at hread

theorem tokenize_append_space (text : String) : tokenize (text ++ " ") = tokenize text := by
  have hread := Token.read_append_blank (c := ' ') rfl text.toList
  rwa [← String.toList_singleton (c := ' '), ← String.toList_append] at hread

theorem tokenize_space_append (text : String) : tokenize (" " ++ text) = tokenize text := by
  have hread := Token.read_cons_blank (c := ' ') rfl text.toList
  rwa [← List.singleton_append, ← String.toList_singleton, ← String.toList_append] at hread

/-- Some text has the tokens exactly if they are lexical, and exactly then they are read back from
their own spellings with spaces in between. -/
theorem tokenize_image :
    (∀ tokens, (∃ text, tokenize text = tokens) ↔ Token.Lexical tokens) ∧
      (∀ tokens, tokenize (Token.spaced tokens) = tokens ↔ Token.Lexical tokens) ∧
      ∀ text, tokenize (Token.spaced (tokenize text)) = tokenize text := by
  refine ⟨fun tokens ↦ ⟨?_, fun h ↦ ⟨Token.spaced tokens, Token.tokenize_spaced h⟩⟩,
    fun tokens ↦ ⟨fun h ↦ h ▸ Token.lexical_tokenize _, Token.tokenize_spaced⟩,
    fun text ↦ Token.tokenize_spaced (Token.lexical_tokenize text)⟩
  rintro ⟨text, rfl⟩
  exact Token.lexical_tokenize text

/-- A bar on its own stays with the identifier, on both sides of a combinator. -/
example : Token.spaced [.identifier "a|", .combinator .or, .identifier "|b"] = "a| || |b" ∧
    tokenize "a| || |b" = [.identifier "a|", .combinator .or, .identifier "|b"] := by
  decide

end FieldRules
