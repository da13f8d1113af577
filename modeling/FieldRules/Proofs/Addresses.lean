import FieldRules.Checks.Email
import FieldRules.Proofs.Separators

/-!
# The grammar of addresses

An address is one or more words with dots between them, an `@`, and one or more parts of a domain
with dots between them. All of these are made alike: of plain characters alone, or of items between
delimiters, where a backslash stands before a character that could not stand alone. So the same
lemmas serve for both sides of the `@`. The automaton accepts exactly the written addresses, and an
address can be read from its text in one way only.
-/

namespace FieldRules

namespace Email

/-- The characters of atoms, which are neither controls nor delimiters. -/
def Atomic (c : Char) : Prop :=
  ¬ c.toNat ≤ 0x20 ∧ ¬ (0x7f ≤ c.toNat ∧ c.toNat ≤ 0xff) ∧
    c ∉ ['"', '(', ')', ',', '.', ':', ';', '<', '>', '@', '[', '\\', ']']

instance : DecidablePred Atomic := fun _ ↦ inferInstanceAs (Decidable (_ ∧ _ ∧ _))

/-- Two delimiters, and the characters that do not stand alone between them. -/
structure Enclosure where
  opening : Char
  closing : Char
  reserved : List Char
  opening_not_atomic : ¬ Atomic opening
  closing_mem : closing ∈ reserved
  backslash_mem : '\\' ∈ reserved
  closing_ne : closing ≠ '\\'

/-- What stands alone between the delimiters. -/
def Enclosure.Plain (e : Enclosure) (c : Char) : Prop :=
  c ∉ e.reserved ∧ ¬ (0x80 ≤ c.toNat ∧ c.toNat ≤ 0xff)

instance (e : Enclosure) : DecidablePred e.Plain := fun _ ↦ inferInstanceAs (Decidable (_ ∧ _))

def quotes : Enclosure where
  opening := '"'
  closing := '"'
  reserved := ['\r', '"', '\\']
  opening_not_atomic := by decide
  closing_mem := by decide
  backslash_mem := by decide
  closing_ne := by decide

def brackets : Enclosure where
  opening := '['
  closing := ']'
  reserved := ['\r', '[', '\\', ']']
  opening_not_atomic := by decide
  closing_mem := by decide
  backslash_mem := by decide
  closing_ne := by decide

/-- What stands for one character between delimiters. -/
inductive Item (e : Enclosure)
  | plain (c : Char) (h : e.Plain c)
  | escaped (c : Char) (h : c.toNat ≤ 0x7f)

def Item.written {e : Enclosure} : Item e → List Char
  | .plain c _ => [c]
  | .escaped c _ => ['\\', c]

/-- What stands between two dots. -/
inductive Part (e : Enclosure)
  | atom (cs : List Char) (nonempty : cs ≠ []) (atomic : ∀ c ∈ cs, Atomic c)
  | enclosed (items : List (Item e))

def Part.written {e : Enclosure} : Part e → List Char
  | .atom cs _ _ => cs
  | .enclosed items => e.opening :: (items.flatMap Item.written ++ [e.closing])

/-- One or more parts with dots between them. -/
structure Dotted (e : Enclosure) where
  first : Part e
  later : List (Part e)

def Dotted.written {e : Enclosure} (parts : Dotted e) : List Char :=
  parts.first.written ++ parts.later.flatMap fun part ↦ '.' :: part.written

structure Address where
  words : Dotted quotes
  domain : Dotted brackets

def Address.written (address : Address) : List Char :=
  address.words.written ++ '@' :: address.domain.written

def Address.text (address : Address) : String :=
  String.ofList address.written

variable {e : Enclosure} {c : Char} {cs : List Char}

/-! ## One way to read -/

section Injectivity

variable {r s : List Char}

/-- What may follow behind parts with dots between them. -/
def AtEnd (r : List Char) : Prop :=
  r = [] ∨ ∃ rest, r = '@' :: rest

theorem Enclosure.Plain.ne_closing (h : e.Plain c) : c ≠ e.closing := by
  rintro rfl
  exact h.1 e.closing_mem

theorem Enclosure.Plain.ne_backslash (h : e.Plain c) : c ≠ '\\' := by
  rintro rfl
  exact h.1 e.backslash_mem

theorem Item.ne_closing (item : Item e) : item.written ++ r ≠ e.closing :: s := by
  intro h
  cases item with
  | plain c hc => exact hc.ne_closing (List.cons.inj h).1
  | escaped c hc => exact e.closing_ne (List.cons.inj h).1.symm

theorem Item.eq_of_written {x y : Item e} (h : x.written ++ r = y.written ++ s) :
    x = y ∧ r = s := by
  cases x with
  | plain c hc =>
      cases y with
      | plain d hd =>
          obtain ⟨rfl, hrest⟩ := List.cons.inj h
          exact ⟨rfl, hrest⟩
      | escaped d hd => exact absurd (List.cons.inj h).1 hc.ne_backslash
  | escaped c hc =>
      cases y with
      | plain d hd => exact absurd (List.cons.inj h).1.symm hd.ne_backslash
      | escaped d hd =>
          obtain ⟨rfl, hrest⟩ := List.cons.inj (List.cons.inj h).2
          exact ⟨rfl, hrest⟩

theorem items_eq_of_written {xs ys : List (Item e)}
    (h : xs.flatMap Item.written ++ e.closing :: r = ys.flatMap Item.written ++ e.closing :: s) :
    xs = ys ∧ r = s := by
  induction xs generalizing ys with
  | nil =>
      cases ys with
      | nil => exact ⟨rfl, (List.cons.inj h).2⟩
      | cons y ys =>
          rw [List.flatMap_cons, List.append_assoc] at h
          exact absurd h.symm y.ne_closing
  | cons x xs ih =>
      rw [List.flatMap_cons, List.append_assoc] at h
      cases ys with
      | nil => exact absurd h x.ne_closing
      | cons y ys =>
          rw [List.flatMap_cons, List.append_assoc] at h
          obtain ⟨rfl, hitems⟩ := Item.eq_of_written h
          obtain ⟨rfl, hrest⟩ := ih hitems
          exact ⟨rfl, hrest⟩

theorem Part.written_enclosed_append (items : List (Item e)) (r : List Char) :
    (enclosed items).written ++ r =
      e.opening :: (items.flatMap Item.written ++ e.closing :: r) := by
  simp [written]

theorem Part.ne_of_atom {xs : List Char} (hne : xs ≠ []) (hatomic : ∀ c ∈ xs, Atomic c) :
    xs ++ r ≠ e.opening :: s := by
  cases xs with
  | nil => exact absurd rfl hne
  | cons c xs =>
      intro h
      rw [(List.cons.inj h).1] at hatomic
      exact e.opening_not_atomic (hatomic _ List.mem_cons_self)

theorem Part.eq_of_written {a b : Part e} (hr : ∀ c ∈ r.head?, ¬ Atomic c)
    (hs : ∀ c ∈ s.head?, ¬ Atomic c) (h : a.written ++ r = b.written ++ s) : a = b ∧ r = s := by
  cases a with
  | atom xs hxs hatomic =>
      cases b with
      | atom ys hys hatomic' =>
          obtain ⟨rfl, hrest⟩ := eq_of_append_eq_append hatomic hatomic' hr hs h
          exact ⟨rfl, hrest⟩
      | enclosed items => exact absurd h (ne_of_atom hxs hatomic)
  | enclosed items =>
      cases b with
      | atom ys hys hatomic => exact absurd h.symm (ne_of_atom hys hatomic)
      | enclosed items' =>
          rw [written_enclosed_append, written_enclosed_append] at h
          obtain ⟨rfl, hrest⟩ := items_eq_of_written (List.cons.inj h).2
          exact ⟨rfl, hrest⟩

theorem AtEnd.head_not_atomic (h : AtEnd r) : ∀ c ∈ r.head?, ¬ Atomic c := by
  rcases h with rfl | ⟨rest, rfl⟩
  · simp
  · rintro c ⟨⟩
    decide

theorem AtEnd.ne_dot (h : AtEnd r) : r ≠ '.' :: s := by
  rcases h with rfl | ⟨rest, rfl⟩ <;> simp

/-- Behind a part stands a dot, or what stands behind the last one. -/
theorem head_not_atomic (later : List (Part e)) (h : AtEnd r) :
    ∀ c ∈ (later.flatMap (fun part ↦ '.' :: part.written) ++ r).head?, ¬ Atomic c := by
  cases later with
  | nil => exact h.head_not_atomic
  | cons part later =>
      rintro c ⟨⟩
      decide

theorem later_eq_of_written {xs ys : List (Part e)} (hr : AtEnd r) (hs : AtEnd s)
    (h : xs.flatMap (fun part ↦ '.' :: part.written) ++ r =
      ys.flatMap (fun part ↦ '.' :: part.written) ++ s) : xs = ys ∧ r = s := by
  induction xs generalizing ys with
  | nil =>
      cases ys with
      | nil => exact ⟨rfl, h⟩
      | cons y ys => exact absurd h hr.ne_dot
  | cons x xs ih =>
      cases ys with
      | nil => exact absurd h.symm hs.ne_dot
      | cons y ys =>
          rw [List.flatMap_cons, List.flatMap_cons, List.append_assoc, List.append_assoc] at h
          obtain ⟨rfl, hlater⟩ :=
            Part.eq_of_written (head_not_atomic xs hr) (head_not_atomic ys hs) (List.cons.inj h).2
          obtain ⟨rfl, hrest⟩ := ih hlater
          exact ⟨rfl, hrest⟩

theorem Dotted.eq_of_written {a b : Dotted e} (hr : AtEnd r) (hs : AtEnd s)
    (h : a.written ++ r = b.written ++ s) : a = b ∧ r = s := by
  obtain ⟨first, later⟩ := a
  obtain ⟨first', later'⟩ := b
  simp only [written, List.append_assoc] at h
  obtain ⟨rfl, hlater⟩ :=
    Part.eq_of_written (head_not_atomic later hr) (head_not_atomic later' hs) h
  obtain ⟨rfl, hrest⟩ := later_eq_of_written hr hs hlater
  exact ⟨rfl, hrest⟩

theorem Address.written_injective {a b : Address} (h : a.written = b.written) : a = b := by
  obtain ⟨words, domain⟩ := a
  obtain ⟨words', domain'⟩ := b
  obtain ⟨rfl, hat⟩ := Dotted.eq_of_written (.inr ⟨_, rfl⟩) (.inr ⟨_, rfl⟩) h
  have hdomain : domain.written ++ [] = domain'.written ++ [] := by
    simpa using hat
  obtain ⟨rfl, -⟩ := Dotted.eq_of_written (.inl rfl) (.inl rfl) hdomain
  rfl

end Injectivity

/-! ## What the automaton accepts -/

theorem isUpperHalf_iff : isUpperHalf c ↔ 0x80 ≤ c.toNat ∧ c.toNat ≤ 0xff := by
  rw [isUpperHalf, Bool.and_eq_true, decide_eq_true_iff, decide_eq_true_iff]
  rfl

theorem Atomic.ne_of_not_atomic {d : Char} (h : Atomic c) (hd : ¬ Atomic d) : c ≠ d := by
  rintro rfl
  exact hd h

theorem Atomic.ne_dot (h : Atomic c) : c ≠ '.' :=
  h.ne_of_not_atomic (by decide)

theorem Atomic.ne_at (h : Atomic c) : c ≠ '@' :=
  h.ne_of_not_atomic (by decide)

theorem isAtomic_iff : isAtomic c ↔ Atomic c := by
  have hspace : c ≤ ' ' ↔ c.toNat ≤ 0x20 := Iff.rfl
  have hdelete : c = '\x7f' ↔ c.toNat = 0x7f := by
    rw [← Char.toNat_inj]
    rfl
  have hspecial : isSpecial c ↔
      c ∈ ['"', '(', ')', ',', '.', ':', ';', '<', '>', '@', '[', '\\', ']'] := by
    rw [isSpecial, List.contains_iff_mem]
    rfl
  rw [isAtomic, Bool.not_eq_true', ← Bool.not_eq_true, Atomic]
  simp only [Bool.or_eq_true, decide_eq_true_iff, beq_iff_eq, isUpperHalf_iff, hspace, hdelete,
    hspecial]
  grind

theorem isQuotable_iff : isQuotable c ↔ quotes.Plain c := by
  rw [isQuotable, Bool.not_eq_true', ← Bool.not_eq_true, Enclosure.Plain, quotes]
  simp [isUpperHalf_iff, and_assoc]

theorem isLiteral_iff : isLiteral c ↔ brackets.Plain c := by
  rw [isLiteral, Bool.not_eq_true', ← Bool.not_eq_true, Enclosure.Plain, brackets]
  simp [isUpperHalf_iff, and_assoc]

theorem isEscapable_iff : isEscapable c ↔ c.toNat ≤ 0x7f := by
  rw [isEscapable, decide_eq_true_iff]
  rfl

namespace State

theorem accepts_cons {state next : State} (h : state.next c = some next) (cs : List Char) :
    state.accepts (c :: cs) = next.accepts cs := by
  rw [accepts, h]

end State

/-- The states in which parts of one kind are read, with what they do at each character. -/
structure Places (e : Enclosure) where
  /-- A part is to begin. -/
  start : State
  atom : State
  inside : State
  /-- Behind a backslash. -/
  escape : State
  /-- Behind the closing delimiter. -/
  ending : State
  next_start : ∀ c, start.next c =
    if c = e.opening then some inside else if Atomic c then some atom else none
  next_atom : ∀ c, atom.next c = if Atomic c then some atom else ending.next c
  next_inside : ∀ c, inside.next c =
    if c = e.closing then some ending else if c = '\\' then some escape
    else if e.Plain c then some inside else none
  next_escape : ∀ c, escape.next c = if c.toNat ≤ 0x7f then some inside else none
  next_ending : ∀ c, Atomic c → ending.next c = none
  isFinal_start : start.isFinal = false
  isFinal_inside : inside.isFinal = false
  isFinal_escape : escape.isFinal = false
  isFinal_atom : atom.isFinal = ending.isFinal

def Places.words : Places quotes where
  start := .word
  atom := .wordAtom
  inside := .quoted
  escape := .quotedEscape
  ending := .quotedEnd
  next_start c := by
    simp only [State.next, beq_iff_eq, isAtomic_iff]
    rfl
  next_atom c := by simp only [State.next, isAtomic_iff]
  next_inside c := by
    simp only [State.next, beq_iff_eq, isQuotable_iff]
    rfl
  next_escape c := by simp only [State.next, isEscapable_iff]
  next_ending c h := by
    simp [State.next, State.afterWord, h.ne_dot, h.ne_at]
  isFinal_start := rfl
  isFinal_inside := rfl
  isFinal_escape := rfl
  isFinal_atom := rfl

def Places.domain : Places brackets where
  start := .domain
  atom := .domainAtom
  inside := .literal
  escape := .literalEscape
  ending := .literalEnd
  next_start c := by
    simp only [State.next, beq_iff_eq, isAtomic_iff]
    rfl
  next_atom c := by simp only [State.next, isAtomic_iff]
  next_inside c := by
    simp only [State.next, beq_iff_eq, isLiteral_iff]
    rfl
  next_escape c := by simp only [State.next, isEscapable_iff]
  next_ending c h := by
    simp [State.next, State.afterDomain, h.ne_dot]
  isFinal_start := rfl
  isFinal_inside := rfl
  isFinal_escape := rfl
  isFinal_atom := rfl

namespace Places

variable (p : Places e)

theorem accepts_atom_iff :
    p.atom.accepts cs ↔ ∃ chars rest, (∀ c ∈ chars, Atomic c) ∧ cs = chars ++ rest ∧
      p.ending.accepts rest := by
  constructor
  · intro h
    induction cs with
    | nil => exact ⟨[], [], by simp, rfl, by simpa [State.accepts, p.isFinal_atom] using h⟩
    | cons c cs ih =>
        by_cases hc : Atomic c
        · rw [State.accepts_cons (by rw [p.next_atom, if_pos hc])] at h
          obtain ⟨chars, rest, hchars, rfl, hrest⟩ := ih h
          exact ⟨c :: chars, rest, List.forall_mem_cons.mpr ⟨hc, hchars⟩, rfl, hrest⟩
        · refine ⟨[], c :: cs, by simp, rfl, ?_⟩
          rwa [State.accepts, p.next_atom, if_neg hc] at h
  · rintro ⟨chars, rest, hchars, rfl, hrest⟩
    induction chars with
    | nil =>
        cases rest with
        | nil => simpa [State.accepts, p.isFinal_atom] using hrest
        | cons c rest =>
            have hc : ¬ Atomic c := by
              intro hc
              simp [State.accepts, p.next_ending c hc] at hrest
            rwa [List.nil_append, State.accepts, p.next_atom, if_neg hc]
    | cons c chars ih =>
        obtain ⟨hc, hchars⟩ := List.forall_mem_cons.mp hchars
        rw [List.cons_append, State.accepts_cons (by rw [p.next_atom, if_pos hc])]
        exact ih hchars

theorem next_inside_plain (h : e.Plain c) : p.inside.next c = some p.inside := by
  rw [p.next_inside, if_neg h.ne_closing, if_neg h.ne_backslash, if_pos h]

theorem next_inside_backslash : p.inside.next '\\' = some p.escape := by
  rw [p.next_inside, if_neg e.closing_ne.symm, if_pos rfl]

theorem next_inside_closing : p.inside.next e.closing = some p.ending := by
  rw [p.next_inside, if_pos rfl]

/-- One item is read at a time, and a backslash takes the next character along. -/
theorem accepts_item (item : Item e) (cs : List Char) :
    p.inside.accepts (item.written ++ cs) = p.inside.accepts cs := by
  cases item with
  | plain c h => exact State.accepts_cons (p.next_inside_plain h) cs
  | escaped c h =>
      change p.inside.accepts ('\\' :: c :: cs) = _
      rw [State.accepts_cons p.next_inside_backslash,
        State.accepts_cons (by rw [p.next_escape, if_pos h])]

/-- What is accepted between delimiters ends there, or begins with an item. -/
theorem exists_item_of_accepts (h : p.inside.accepts cs) :
    (∃ rest, cs = e.closing :: rest ∧ p.ending.accepts rest) ∨
      ∃ (item : Item e) (rest : List Char), cs = item.written ++ rest ∧ p.inside.accepts rest := by
  cases cs with
  | nil => simp [State.accepts, p.isFinal_inside] at h
  | cons c cs =>
      by_cases hclosing : c = e.closing
      · subst hclosing
        rw [State.accepts_cons p.next_inside_closing] at h
        exact .inl ⟨cs, rfl, h⟩
      by_cases hbackslash : c = '\\'
      · subst hbackslash
        rw [State.accepts_cons p.next_inside_backslash] at h
        cases cs with
        | nil => simp [State.accepts, p.isFinal_escape] at h
        | cons d cs =>
            by_cases hd : d.toNat ≤ 0x7f
            · rw [State.accepts_cons (by rw [p.next_escape, if_pos hd])] at h
              exact .inr ⟨.escaped d hd, cs, rfl, h⟩
            · simp [State.accepts, p.next_escape, hd] at h
      by_cases hplain : e.Plain c
      · rw [State.accepts_cons (p.next_inside_plain hplain)] at h
        exact .inr ⟨.plain c hplain, cs, rfl, h⟩
      · simp [State.accepts, p.next_inside, hclosing, hbackslash, hplain] at h

theorem length_item_pos (item : Item e) : 0 < item.written.length := by
  cases item <;> simp [Item.written]

theorem accepts_inside_iff :
    p.inside.accepts cs ↔ ∃ (items : List (Item e)) (rest : List Char),
      cs = items.flatMap Item.written ++ e.closing :: rest ∧ p.ending.accepts rest := by
  constructor
  · intro h
    induction hlength : cs.length using Nat.strongRecOn generalizing cs with
    | _ n ih =>
        rcases p.exists_item_of_accepts h with ⟨rest, rfl, hrest⟩ | ⟨item, later, rfl, hlater⟩
        · exact ⟨[], rest, rfl, hrest⟩
        · have hpos := length_item_pos item
          rw [List.length_append] at hlength
          obtain ⟨items, rest, rfl, hrest⟩ := ih later.length (by omega) hlater rfl
          exact ⟨item :: items, rest, by simp, hrest⟩
  · rintro ⟨items, rest, rfl, hrest⟩
    induction items with
    | nil => rwa [List.flatMap_nil, List.nil_append, State.accepts_cons p.next_inside_closing]
    | cons item items ih => rwa [List.flatMap_cons, List.append_assoc, p.accepts_item]

theorem accepts_start_iff :
    p.start.accepts cs ↔ ∃ (part : Part e) (rest : List Char), cs = part.written ++ rest ∧
      p.ending.accepts rest := by
  have hopening : p.start.next e.opening = some p.inside := by
    rw [p.next_start, if_pos rfl]
  have hatom {c : Char} (hc : Atomic c) : p.start.next c = some p.atom := by
    rw [p.next_start, if_neg (hc.ne_of_not_atomic e.opening_not_atomic), if_pos hc]
  constructor
  · intro h
    cases cs with
    | nil => simp [State.accepts, p.isFinal_start] at h
    | cons c cs =>
        by_cases hc : c = e.opening
        · subst hc
          rw [State.accepts_cons hopening, p.accepts_inside_iff] at h
          obtain ⟨items, rest, rfl, hrest⟩ := h
          exact ⟨.enclosed items, rest, (Part.written_enclosed_append items rest).symm, hrest⟩
        by_cases hatomic : Atomic c
        · rw [State.accepts_cons (hatom hatomic), p.accepts_atom_iff] at h
          obtain ⟨chars, rest, hchars, rfl, hrest⟩ := h
          exact ⟨.atom (c :: chars) (by simp) (List.forall_mem_cons.mpr ⟨hatomic, hchars⟩), rest,
            rfl, hrest⟩
        · simp [State.accepts, p.next_start, hc, hatomic] at h
  · rintro ⟨part, rest, rfl, hrest⟩
    cases part with
    | atom chars hne hchars =>
        cases chars with
        | nil => exact absurd rfl hne
        | cons c chars =>
            obtain ⟨hc, hchars⟩ := List.forall_mem_cons.mp hchars
            rw [Part.written, List.cons_append, State.accepts_cons (hatom hc), p.accepts_atom_iff]
            exact ⟨chars, rest, hchars, rfl, hrest⟩
    | enclosed items =>
        rw [Part.written_enclosed_append, State.accepts_cons hopening, p.accepts_inside_iff]
        exact ⟨items, rest, rfl, hrest⟩

/-- If a part is followed by a dot and another one, or by what stands behind the last, then parts
with dots between them are read up to there. -/
theorem accepts_dotted_iff {After : List Char → Prop}
    (hending : ∀ cs, p.ending.accepts cs ↔
      (∃ rest, cs = '.' :: rest ∧ p.start.accepts rest) ∨ After cs) :
    p.start.accepts cs ↔ ∃ (parts : Dotted e) (rest : List Char), cs = parts.written ++ rest ∧
      After rest := by
  constructor
  · intro h
    induction hlength : cs.length using Nat.strongRecOn generalizing cs with
    | _ n ih =>
        obtain ⟨part, rest, rfl, hrest⟩ := p.accepts_start_iff.mp h
        rcases (hending rest).mp hrest with ⟨later, rfl, hlater⟩ | hafter
        · rw [List.length_append, List.length_cons] at hlength
          obtain ⟨⟨next, parts⟩, rest, rfl, hafter⟩ := ih later.length (by omega) hlater rfl
          exact ⟨⟨part, next :: parts⟩, rest, by simp [Dotted.written], hafter⟩
        · exact ⟨⟨part, []⟩, rest, by simp [Dotted.written], hafter⟩
  · rintro ⟨⟨first, later⟩, rest, rfl, hrest⟩
    rw [p.accepts_start_iff]
    induction later generalizing first with
    | nil => exact ⟨first, rest, by simp [Dotted.written], (hending rest).mpr (.inr hrest)⟩
    | cons next later ih =>
        have hnext := p.accepts_start_iff.mpr (ih next)
        exact ⟨first, _, by simp [Dotted.written], (hending _).mpr (.inl ⟨_, rfl, hnext⟩)⟩

end Places

theorem accepts_domain_iff :
    State.domain.accepts cs ↔ ∃ parts : Dotted brackets, cs = parts.written := by
  have hending (cs : List Char) : State.literalEnd.accepts cs ↔
      (∃ rest, cs = '.' :: rest ∧ State.domain.accepts rest) ∨ cs = [] := by
    cases cs with
    | nil => simp [State.accepts, State.isFinal]
    | cons c cs =>
        by_cases hdot : c = '.'
        · simp [State.accepts, State.next, State.afterDomain, hdot]
        · simp [State.accepts, State.next, State.afterDomain, hdot]
  have hdomain : State.domain.accepts cs ↔ ∃ (parts : Dotted brackets) (rest : List Char),
      cs = parts.written ++ rest ∧ rest = [] := Places.domain.accepts_dotted_iff hending
  simpa using hdomain

theorem accepts_word_iff :
    State.word.accepts cs ↔ ∃ address : Address, cs = address.written := by
  have hending (cs : List Char) : State.quotedEnd.accepts cs ↔
      (∃ rest, cs = '.' :: rest ∧ State.word.accepts rest) ∨
        ∃ parts : Dotted brackets, cs = '@' :: parts.written := by
    cases cs with
    | nil => simp [State.accepts, State.isFinal]
    | cons c cs =>
        by_cases hdot : c = '.'
        · simp [State.accepts, State.next, State.afterWord, hdot]
        by_cases hat : c = '@'
        · simp [State.accepts, State.next, State.afterWord, hat, accepts_domain_iff]
        · simp [State.accepts, State.next, State.afterWord, hdot, hat]
  have hwords : State.word.accepts cs ↔ ∃ (words : Dotted quotes) (rest : List Char),
      cs = words.written ++ rest ∧ ∃ parts : Dotted brackets, rest = '@' :: parts.written :=
    Places.words.accepts_dotted_iff hending
  rw [hwords]
  constructor
  · rintro ⟨words, rest, rfl, domain, rfl⟩
    exact ⟨⟨words, domain⟩, rfl⟩
  · rintro ⟨⟨words, domain⟩, rfl⟩
    exact ⟨words, _, rfl, domain, rfl⟩

theorem isAddress_iff {text : String} :
    isAddress text ↔ ∃ address : Address, text = address.text := by
  simp only [isAddress, accepts_word_iff, Address.text, String.ext_iff, String.toList_ofList]

end Email

/-- The values that pass as addresses are the texts of addresses, so no value but a text does, and
an address can be read from its text in exactly one way. -/
theorem Check.email_iff_address (fields : Fields Value) (value : Value) (params : List String) :
    (Check.email fields value params ↔ ∃ address : Email.Address, value = .string address.text) ∧
      (Check.email fields value params ↔
        ∃! address : Email.Address, value = .string address.text) := by
  have hiff : Check.email fields value params ↔
      ∃ address : Email.Address, value = .string address.text := by
    cases value with
    | string text => simp [Check.email, Email.isAddress_iff]
    | _ => simp [Check.email]
  refine ⟨hiff, hiff.trans ⟨?_, ExistsUnique.exists⟩⟩
  rintro ⟨address, rfl⟩
  refine ⟨address, rfl, fun other hother ↦ ?_⟩
  have htext : address.text = other.text := Value.string.inj hother
  exact (Email.Address.written_injective (String.ofList_injective htext)).symm

-- An `@`, a dot, a line feed and an escaped quote between quotes; a bracket inside brackets.
example : Check.email ∅ (.string "\"@.\n\\\"\".word@[\\]]") [] ∧
    ¬ Check.email ∅ (.string "\"@.\n\\\"word@[]]") [] := by
  decide

end FieldRules
