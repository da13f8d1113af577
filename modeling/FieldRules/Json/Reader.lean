import FieldRules.Json.Number
import FieldRules.Json.Text

/-!
# Reading JSON

The text is read from left to right, and the arrays and objects that are still open stand on a stack,
of at most 127. A key that comes again keeps its first place and takes the last value.
-/

namespace FieldRules.Json

def skipSpace (cs : List Char) : List Char :=
  cs.dropWhile fun c ↦ c == ' ' || c == '\t' || c == '\n' || c == '\r'

/-- Reads the rest of a word that stands for a value. -/
def readWord (value : Json) : List Char → List Char → Except Fault (Json × List Char)
  | [], cs => .ok (value, cs)
  | _ :: _, [] => .error .endOfText
  | w :: word, c :: cs => if w = c then readWord value word cs else .error .malformed

/-- Reads a value that is neither an array nor an object. -/
def readScalar : List Char → Except Fault (Json × List Char)
  | [] => .error .endOfText
  | 'n' :: rest => readWord .null ['u', 'l', 'l'] rest
  | 't' :: rest => readWord (.boolean true) ['r', 'u', 'e'] rest
  | 'f' :: rest => readWord (.boolean false) ['a', 'l', 's', 'e'] rest
  | '"' :: rest => (readString [] rest).map fun (text, rest) ↦ (Json.string text, rest)
  | c :: rest => if c.isDigit || c == '-' then readNumber (c :: rest) else .error .malformed

/-- An array or object that is still open: what it holds so far, last first for an array, and the key
whose value is to come. -/
inductive Open
  | array (items : List Json)
  | object (members : List (String × Json)) (key : String)

/-- Gives a key a value, in its first place if it came before. -/
def setMember (key : String) (value : Json) : List (String × Json) → List (String × Json)
  | [] => [(key, value)]
  | (k, old) :: rest => if k = key then (k, value) :: rest else (k, old) :: setMember key value rest

/-- The largest number of arrays and objects around a value. -/
def maxDepth : Nat := 127

/-- A place between the parts of a text: what is open there, and the value that has just ended, if
one has. -/
structure Place where
  stack : List Open
  value : Option Json
  rest : List Char

/-- Reads a key and its colon. -/
def readKey (cs : List Char) : Except Fault (String × List Char) :=
  match cs with
  | '"' :: rest =>
    match readString [] rest with
    | .error e => .error e
    | .ok (key, rest) =>
      match skipSpace rest with
      | ':' :: rest => .ok (key, rest)
      | rest => .error (.ofRest rest)
  | _ => .error (.ofRest cs)

/-- Goes on where a value must stand. -/
def Place.begin (stack : List Open) (cs : List Char) : Except Fault Place :=
  match skipSpace cs with
  | '[' :: rest =>
    if maxDepth ≤ stack.length then .error .malformed
    else
      match skipSpace rest with
      | ']' :: rest => .ok ⟨stack, some (.array []), rest⟩
      | [] => .error .endOfText
      | rest => .ok ⟨.array [] :: stack, none, rest⟩
  | '\x7b' :: rest =>
    if maxDepth ≤ stack.length then .error .malformed
    else
      match skipSpace rest with
      | '\x7d' :: rest => .ok ⟨stack, some (.object []), rest⟩
      | rest => (readKey rest).map fun (key, rest) ↦ ⟨.object [] key :: stack, none, rest⟩
  | cs => (readScalar cs).map fun (value, rest) ↦ ⟨stack, some value, rest⟩

/-- Goes on behind a value in an open array or object. -/
def Place.goOn (value : Json) (outer : List Open) (cs : List Char) : Open → Except Fault Place
  | .array items =>
    match skipSpace cs with
    | ']' :: rest => .ok ⟨outer, some (.array (value :: items).reverse), rest⟩
    | ',' :: rest =>
      match skipSpace rest with
      | ']' :: _ => .error .malformed
      | [] => .error .endOfText
      | rest => .ok ⟨.array (value :: items) :: outer, none, rest⟩
    | rest => .error (.ofRest rest)
  | .object members key =>
    match skipSpace cs with
    | '\x7d' :: rest => .ok ⟨outer, some (.object (setMember key value members)), rest⟩
    | ',' :: rest =>
      (readKey (skipSpace rest)).map fun (next, rest) ↦
        ⟨.object (setMember key value members) next :: outer, none, rest⟩
    | rest => .error (.ofRest rest)

theorem length_skipSpace (cs : List Char) : (skipSpace cs).length ≤ cs.length :=
  (List.dropWhile_suffix _).length_le

theorem length_of_skipSpace_eq {cs rest : List Char} {c : Char} (h : skipSpace cs = c :: rest) :
    rest.length < cs.length := by
  have := length_skipSpace cs
  rw [h] at this
  exact this

theorem length_readWord {value found : Json} {word cs rest : List Char}
    (h : readWord value word cs = .ok (found, rest)) : rest.length ≤ cs.length := by
  induction word generalizing cs with
  | nil =>
    cases h
    exact Nat.le_refl _
  | cons w word ih =>
    cases cs with
    | nil => cases h
    | cons c cs =>
      unfold readWord at h
      split at h
      · have := ih h
        simp only [List.length_cons]
        omega
      · cases h

theorem length_map {α β : Type} {x : Except Fault (α × List Char)} {f : α → β} {b : β}
    {cs rest : List Char} (hx : ∀ a after, x = .ok (a, after) → after.length < cs.length)
    (h : (x.map fun (a, rest) ↦ (f a, rest)) = .ok (b, rest)) : rest.length < cs.length := by
  cases x with
  | error e => cases h
  | ok found =>
    obtain ⟨a, after⟩ := found
    cases h
    exact hx a _ rfl

theorem length_readScalar {cs rest : List Char} {value : Json}
    (h : readScalar cs = .ok (value, rest)) : rest.length < cs.length := by
  unfold readScalar at h
  split at h
  · cases h
  · exact Nat.lt_succ_of_le (length_readWord h)
  · exact Nat.lt_succ_of_le (length_readWord h)
  · exact Nat.lt_succ_of_le (length_readWord h)
  · next tail =>
    have : rest.length < tail.length := length_map (fun _ _ hs ↦ length_readString hs) h
    exact Nat.lt_succ_of_lt this
  · split at h
    · exact length_readNumber h
    · cases h

theorem length_readKey {cs rest : List Char} {key : String} (h : readKey cs = .ok (key, rest)) :
    rest.length < cs.length := by
  unfold readKey at h
  split at h
  · split at h
    · cases h
    · next hstring =>
      have := length_readString hstring
      split at h
      · next hcolon =>
        have := length_of_skipSpace_eq hcolon
        cases h
        simp only [List.length_cons]
        omega
      · cases h
  · cases h

theorem length_begin {stack : List Open} {cs : List Char} {next : Place}
    (h : Place.begin stack cs = .ok next) : next.rest.length < cs.length := by
  unfold Place.begin at h
  split at h
  · next rest hopen =>
    have := length_of_skipSpace_eq hopen
    split at h
    · cases h
    · split at h
      · next hclose =>
        have := length_of_skipSpace_eq hclose
        cases h
        dsimp only
        omega
      · cases h
      · have := length_skipSpace rest
        cases h
        dsimp only
        omega
  · next rest hopen =>
    have := length_of_skipSpace_eq hopen
    split at h
    · cases h
    · split at h
      · next hclose =>
        have := length_of_skipSpace_eq hclose
        cases h
        dsimp only
        omega
      · have := length_skipSpace rest
        cases hkey : readKey (skipSpace rest) with
        | error e => simp [hkey, Except.map] at h
        | ok found =>
          have := length_readKey hkey
          simp only [hkey, Except.map, Except.ok.injEq] at h
          subst h
          dsimp only
          omega
  · have := length_skipSpace cs
    cases hscalar : readScalar (skipSpace cs) with
    | error e => simp [hscalar, Except.map] at h
    | ok found =>
      have := length_readScalar hscalar
      simp only [hscalar, Except.map, Except.ok.injEq] at h
      subst h
      dsimp only
      omega

theorem length_goOn {value : Json} {outer : List Open} {cs : List Char} {innermost : Open}
    {next : Place} (h : Place.goOn value outer cs innermost = .ok next) :
    next.rest.length < cs.length := by
  unfold Place.goOn at h
  split at h
  · split at h
    · next hclose =>
      have := length_of_skipSpace_eq hclose
      cases h
      omega
    · next rest hcomma =>
      have := length_of_skipSpace_eq hcomma
      split at h
      · cases h
      · cases h
      · have := length_skipSpace rest
        cases h
        dsimp only
        omega
    · cases h
  · split at h
    · next hclose =>
      have := length_of_skipSpace_eq hclose
      cases h
      omega
    · next rest hcomma =>
      have := length_of_skipSpace_eq hcomma
      have := length_skipSpace rest
      cases hkey : readKey (skipSpace rest) with
      | error e => simp [hkey, Except.map] at h
      | ok found =>
        have := length_readKey hkey
        simp only [hkey, Except.map, Except.ok.injEq] at h
        subst h
        dsimp only
        omega
    · cases h

/-- Reads on from a place to the end of the text. -/
def Place.finish (place : Place) : Except Fault Json :=
  match place.value, place.stack with
  | none, stack =>
    match _h : Place.begin stack place.rest with
    | .error e => .error e
    | .ok next => next.finish
  | some value, innermost :: outer =>
    match _h : Place.goOn value outer place.rest innermost with
    | .error e => .error e
    | .ok next => next.finish
  | some value, [] => if (skipSpace place.rest).isEmpty then .ok value else .error .malformed
termination_by place.rest.length
decreasing_by
  · exact length_begin (by assumption)
  · exact length_goOn (by assumption)

/-- Reads the JSON value that a text consists of. -/
def read (text : String) : Except Fault Json :=
  Place.finish ⟨[], none, text.toList⟩

end FieldRules.Json
