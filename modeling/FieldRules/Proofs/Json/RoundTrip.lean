import FieldRules.Json.Printer
import FieldRules.Proofs.Fields
import FieldRules.Proofs.Json.Places
import FieldRules.Proofs.Json.Quoting
import Mathlib.Data.List.Forall2
import Mathlib.Data.List.TakeWhile

/-!
# JSON values read back

A value that is printed on one line or on several is read back as it was, if it holds no numbers,
gives no key twice in one object, and has no more arrays and objects inside each other than can be
open. The steps through the text of a value lead behind it, where it has just ended, so a text can
be read part by part, whatever is open around a part and whatever follows it.
-/

namespace FieldRules.Json

/-- No number is in the value, no key comes twice in an object, and at most `room` arrays and
objects stand inside each other. -/
inductive Fits : (room : Nat) → Json → Prop
  | null {room} : Fits room .null
  | boolean {room b} : Fits room (.boolean b)
  | string {room text} : Fits room (.string text)
  | array {room items} (hitems : ∀ item ∈ items, Fits room item) : Fits (room + 1) (.array items)
  | object {room members} (hkeys : (members.map Prod.fst).Nodup)
      (hvalues : ∀ member ∈ members, Fits room member.2) : Fits (room + 1) (.object members)

/-! ## White space -/

/-- Nothing but white space. -/
def Gap (cs : List Char) : Prop :=
  skipSpace cs = []

instance (cs : List Char) : Decidable (Gap cs) :=
  inferInstanceAs (Decidable (skipSpace cs = []))

theorem gap_nil : Gap [] := rfl

theorem skipSpace_append {gap : List Char} (h : Gap gap) (cs : List Char) :
    skipSpace (gap ++ cs) = skipSpace cs := by
  unfold Gap at h
  unfold skipSpace at h ⊢
  rw [List.dropWhile_append, h]
  rfl

theorem skipSpace_cons {c : Char} (h : ¬ Gap [c]) (rest : List Char) :
    skipSpace (c :: rest) = c :: rest := by
  simp only [Gap, skipSpace, List.dropWhile_cons, List.dropWhile_nil] at h ⊢
  split
  · next hc => exact absurd (if_pos hc) h
  · rfl

theorem gap_newline (level : Nat) : Gap (newline level).toList := by
  have hnewline : (newline level).toList = '\n' :: List.replicate (2 * level) ' ' := by
    simp [newline]
  rw [Gap, skipSpace, hnewline]
  apply List.dropWhile_eq_nil_iff.mpr
  intro c hc
  rcases List.mem_cons.mp hc with rfl | hc
  · rfl
  · rw [List.eq_of_mem_replicate hc]
    rfl

theorem readKey_quoted (key : String) (rest : List Char) :
    readKey ((quoted key).toList ++ ':' :: rest) = .ok (key, rest) := by
  rw [toList_quoted_append, readKey]
  simp only [readString_quoted]
  rw [skipSpace_cons (by decide)]
  rfl

/-! ## Parts of a text -/

open Place (Leads)

/-- Wherever a value may stand with `room` levels left, the characters are read as `json`. -/
structure Reads (room : Nat) (json : Json) (cs : List Char) : Prop where
  begins : ∃ c rest, cs = c :: rest ∧ ¬ Gap [c] ∧ c ≠ ']'
  leads : ∀ stack rest, stack.length + room ≤ maxDepth →
    Leads stack ⟨stack, none, cs ++ rest⟩ ⟨stack, some json, rest⟩

theorem Reads.skipSpace_append {room : Nat} {json : Json} {cs : List Char}
    (h : Reads room json cs) (rest : List Char) :
    ∃ c later, c ≠ ']' ∧ skipSpace (cs ++ rest) = c :: later ∧ cs ++ rest = c :: later := by
  obtain ⟨c, later, rfl, hgap, hc⟩ := h.begins
  exact ⟨c, later ++ rest, hc, skipSpace_cons hgap _, rfl⟩

theorem reads_of_readScalar {room : Nat} {json : Json} {c : Char} {cs : List Char}
    (hc : ¬ Gap [c] ∧ c ≠ ']' ∧ c ≠ '[' ∧ c ≠ '\x7b')
    (h : ∀ rest, readScalar (c :: (cs ++ rest)) = .ok (json, rest)) :
    Reads room json (c :: cs) where
  begins := ⟨c, cs, rfl, hc.1, hc.2.1⟩
  leads := by
    intro stack rest _
    apply Leads.of_begin _ .refl
    rw [List.cons_append, Place.begin]
    rw [skipSpace_cons hc.1]
    split
    · next heq =>
        cases heq
        exact absurd rfl hc.2.2.1
    · next heq =>
        cases heq
        exact absurd rfl hc.2.2.2
    · rw [h]
      rfl

theorem reads_string (room : Nat) (text : String) :
    Reads room (.string text) (quoted text).toList := by
  have hquoted : (quoted text).toList = '"' :: (text.toList.flatMap escape ++ ['"']) := by
    simpa using toList_quoted_append text []
  rw [hquoted]
  apply reads_of_readScalar (by decide)
  intro rest
  rw [List.append_assoc, List.singleton_append, readScalar, readString_quoted]
  rfl

theorem reads_null (room : Nat) : Reads room .null "null".toList :=
  reads_of_readScalar (by decide) fun _ ↦ rfl

theorem reads_boolean (room : Nat) (b : Bool) :
    Reads room (.boolean b) (if b then "true" else "false").toList := by
  cases b
  · exact reads_of_readScalar (by decide) fun _ ↦ rfl
  · exact reads_of_readScalar (by decide) fun _ ↦ rfl

/-- The characters are a key, a colon, perhaps white space, and a value. -/
def ReadsMember (room : Nat) (member : String × Json) (cs : List Char) : Prop :=
  ∃ gap text, Gap gap ∧ Reads room member.2 text ∧
    cs = (quoted member.1).toList ++ ':' :: (gap ++ text)

/-- Parts between brackets with commas between them, white space before each and behind the last. -/
def laidOut (gap ending : List Char) (opening closing : Char) : List (List Char) → List Char
  | [] => [opening, closing]
  | part :: parts =>
      opening :: (gap ++ (part ++
        (parts.flatMap (fun part ↦ ',' :: (gap ++ part)) ++ (ending ++ [closing]))))

/-! ## Arrays and objects -/

section

variable {room : Nat} {stack : List Open} {gap ending : List Char}

theorem begin_bracket (hlength : stack.length < maxDepth) (cs : List Char) :
    Place.begin stack ('[' :: cs) =
      match skipSpace cs with
      | ']' :: rest => .ok ⟨stack, some (.array []), rest⟩
      | [] => .error .endOfText
      | rest => .ok ⟨.array [] :: stack, none, rest⟩ :=
  if_neg (Nat.not_le.mpr hlength)

theorem begin_brace (hlength : stack.length < maxDepth) (cs : List Char) :
    Place.begin stack ('\x7b' :: cs) =
      match skipSpace cs with
      | '\x7d' :: rest => .ok ⟨stack, some (.object []), rest⟩
      | rest => (readKey rest).map fun (key, rest) ↦ ⟨.object [] key :: stack, none, rest⟩ :=
  if_neg (Nat.not_le.mpr hlength)

theorem goOn_array_comma (value : Json) (outer : List Open) (cs : List Char) (items : List Json) :
    Place.goOn value outer (',' :: cs) (.array items) =
      match skipSpace cs with
      | ']' :: _ => .error .malformed
      | [] => .error .endOfText
      | rest => .ok ⟨.array (value :: items) :: outer, none, rest⟩ := rfl

theorem goOn_object_comma (value : Json) (outer : List Open) (cs : List Char)
    (members : List (String × Json)) (key : String) :
    Place.goOn value outer (',' :: cs) (.object members key) =
      (readKey (skipSpace cs)).map fun (next, rest) ↦
        ⟨.object (setMember key value members) next :: outer, none, rest⟩ := rfl

theorem leads_append_gap (hgap : Gap gap) {opened later : List Open} {value : Json}
    {cs rest : List Char} (h : Leads stack ⟨opened, none, cs⟩ ⟨later, some value, rest⟩) :
    Leads stack ⟨opened, none, gap ++ cs⟩ ⟨later, some value, rest⟩ := by
  cases h with
  | step _ hstep h =>
      refine .step (.inl rfl) ?_ h
      rw [← hstep, Place.step?, Place.step?, Place.begin, Place.begin, skipSpace_append hgap]

theorem leads_openArray {item : Json} {part : List Char}
    (hroom : stack.length + 1 + room ≤ maxDepth) (hgap : Gap gap) (h : Reads room item part)
    (rest : List Char) :
    Leads stack ⟨stack, none, '[' :: (gap ++ (part ++ rest))⟩
      ⟨.array [] :: stack, some item, rest⟩ := by
  refine Leads.of_begin ?_ (h.leads (.array [] :: stack) rest hroom).outside
  obtain ⟨c, later, hc, hskip, hpart⟩ := h.skipSpace_append rest
  rw [begin_bracket (by omega), skipSpace_append hgap, hskip, hpart]
  split
  · next heq =>
      cases heq
      exact absurd rfl hc
  · next heq => cases heq
  · rfl

theorem leads_nextItem {read : List Json} {value item : Json} {part : List Char}
    (hroom : stack.length + 1 + room ≤ maxDepth) (hgap : Gap gap) (h : Reads room item part)
    (rest : List Char) :
    Leads stack ⟨.array read :: stack, some value, ',' :: (gap ++ (part ++ rest))⟩
      ⟨.array (value :: read) :: stack, some item, rest⟩ := by
  refine Leads.of_goOn ?_ (h.leads (.array (value :: read) :: stack) rest hroom).outside
  obtain ⟨c, later, hc, hskip, hpart⟩ := h.skipSpace_append rest
  rw [goOn_array_comma, skipSpace_append hgap, hskip, hpart]
  split
  · next heq =>
      cases heq
      exact absurd rfl hc
  · next heq => cases heq
  · rfl

theorem leads_closeArray (read : List Json) (value : Json) (hending : Gap ending)
    (rest : List Char) :
    Leads stack ⟨.array read :: stack, some value, ending ++ ']' :: rest⟩
      ⟨stack, some (.array (value :: read).reverse), rest⟩ := by
  apply Leads.of_goOn _ .refl
  rw [Place.goOn, skipSpace_append hending, skipSpace_cons (by decide)]
  rfl

theorem leads_items {items : List Json} {parts : List (List Char)}
    (h : List.Forall₂ (Reads room) items parts) (hroom : stack.length + 1 + room ≤ maxDepth)
    (hgap : Gap gap) (hending : Gap ending) (read : List Json) (value : Json) (rest : List Char) :
    Leads stack
      ⟨.array read :: stack, some value,
        parts.flatMap (fun part ↦ ',' :: (gap ++ part)) ++ (ending ++ ']' :: rest)⟩
      ⟨stack, some (.array ((value :: read).reverse ++ items)), rest⟩ := by
  -- The items that have been read are kept last first, and those still to come follow them.
  induction h generalizing read value with
  | nil =>
      rw [List.flatMap_nil, List.nil_append, List.append_nil]
      exact leads_closeArray read value hending rest
  | @cons item part items parts hitem _ ih =>
      rw [List.flatMap_cons, List.append_assoc, List.cons_append, List.append_assoc]
      apply (leads_nextItem hroom hgap hitem _).trans
      simpa using ih (value :: read) item

theorem begin_member {member : String × Json} {part : List Char}
    (hroom : stack.length + 1 + room ≤ maxDepth) (hgap : Gap gap)
    (h : ReadsMember room member part) (rest : List Char) :
    ∃ next, Place.begin stack ('\x7b' :: (gap ++ (part ++ rest))) = .ok next ∧
      Leads (.object [] member.1 :: stack) next
        ⟨.object [] member.1 :: stack, some member.2, rest⟩ := by
  obtain ⟨colonGap, text, hcolon, hvalue, rfl⟩ := h
  refine ⟨_, ?_, leads_append_gap hcolon (hvalue.leads (.object [] member.1 :: stack) rest hroom)⟩
  have hkey := readKey_quoted member.1 (colonGap ++ (text ++ rest))
  rw [begin_brace (by omega), skipSpace_append hgap]
  simp only [List.append_assoc, List.cons_append]
  rw [toList_quoted_append] at hkey ⊢
  rw [skipSpace_cons (by decide)]
  split
  · next heq => cases heq
  · rw [hkey]
    rfl

theorem goOn_member {members : List (String × Json)} {key : String} {value : Json}
    {member : String × Json} {part : List Char}
    (hroom : stack.length + 1 + room ≤ maxDepth) (hgap : Gap gap)
    (h : ReadsMember room member part) (rest : List Char) :
    let opened := Open.object (setMember key value members) member.1
    ∃ next, Place.goOn value stack (',' :: (gap ++ (part ++ rest))) (.object members key) =
        .ok next ∧
      Leads (opened :: stack) next ⟨opened :: stack, some member.2, rest⟩ := by
  intro opened
  obtain ⟨colonGap, text, hcolon, hvalue, rfl⟩ := h
  refine ⟨_, ?_, leads_append_gap hcolon (hvalue.leads (opened :: stack) rest hroom)⟩
  have hkey := readKey_quoted member.1 (colonGap ++ (text ++ rest))
  rw [goOn_object_comma, skipSpace_append hgap]
  simp only [List.append_assoc, List.cons_append]
  rw [toList_quoted_append] at hkey ⊢
  rw [skipSpace_cons (by decide), hkey]
  rfl

theorem goOn_brace (members : List (String × Json)) (key : String) (value : Json)
    (hending : Gap ending) (rest : List Char) :
    Place.goOn value stack (ending ++ '\x7d' :: rest) (.object members key) =
      .ok ⟨stack, some (.object (setMember key value members)), rest⟩ := by
  rw [Place.goOn, skipSpace_append hending, skipSpace_cons (by decide)]
  rfl

theorem setMember_entries (fields : Fields Json) (key : String) (value : Json) :
    setMember key value fields.entries = (fields.insert key value).entries := by
  have hput (members : List (String × Json)) :
      setMember key value members = (Fields.put key value members).2 := by
    induction members with
    | nil => rfl
    | cons member members ih =>
        rw [setMember, Fields.put, ih]
        split <;> rfl
  exact hput fields.entries

theorem leads_members {members : List (String × Json)} {parts : List (List Char)}
    (h : List.Forall₂ (ReadsMember room) members parts)
    (hroom : stack.length + 1 + room ≤ maxDepth) (hgap : Gap gap) (hending : Gap ending)
    (fields : Fields Json) (key : String) (value : Json) (rest : List Char) :
    Leads stack
      ⟨.object fields.entries key :: stack, some value,
        parts.flatMap (fun part ↦ ',' :: (gap ++ part)) ++ (ending ++ '\x7d' :: rest)⟩
      ⟨stack, some (.object ((fields.insert key value).insertAll members).entries), rest⟩ := by
  induction h generalizing fields key value with
  | nil =>
      rw [List.flatMap_nil, List.nil_append, Fields.insertAll, List.foldl_nil, ← setMember_entries]
      exact Leads.of_goOn (goOn_brace fields.entries key value hending rest) .refl
  | @cons member part members parts hmember _ ih =>
      rw [List.flatMap_cons, List.append_assoc, List.cons_append, List.append_assoc]
      obtain ⟨next, hnext, hleads⟩ := goOn_member hroom hgap hmember _
      apply (Leads.of_goOn hnext hleads.outside).trans
      rw [setMember_entries]
      exact ih (fields.insert key value) member.1 member.2

theorem reads_laidOut_array {items : List Json} {parts : List (List Char)}
    (h : List.Forall₂ (Reads room) items parts) (hgap : Gap gap) (hending : Gap ending) :
    Reads (room + 1) (.array items) (laidOut gap ending '[' ']' parts) := by
  cases h with
  | nil =>
      refine ⟨⟨'[', [']'], rfl, by decide, by decide⟩, fun stack rest hroom ↦ ?_⟩
      apply Leads.of_begin _ .refl
      change Place.begin stack ('[' :: ']' :: rest) = _
      rw [begin_bracket (by omega), skipSpace_cons (by decide)]
      rfl
  | cons hitem hitems =>
      refine ⟨⟨'[', _, rfl, by decide, by decide⟩, fun stack rest hroom ↦ ?_⟩
      have hroom : stack.length + 1 + room ≤ maxDepth := by omega
      simp only [laidOut, List.cons_append, List.append_assoc, List.nil_append]
      apply (leads_openArray hroom hgap hitem _).trans
      exact leads_items hitems hroom hgap hending [] _ rest

theorem reads_laidOut_object {members : List (String × Json)} {parts : List (List Char)}
    (h : List.Forall₂ (ReadsMember room) members parts) (hgap : Gap gap) (hending : Gap ending) :
    Reads (room + 1) (.object (Fields.ofList members).entries)
      (laidOut gap ending '\x7b' '\x7d' parts) := by
  cases h with
  | nil =>
      refine ⟨⟨'\x7b', ['\x7d'], rfl, by decide, by decide⟩, fun stack rest hroom ↦ ?_⟩
      apply Leads.of_begin _ .refl
      change Place.begin stack ('\x7b' :: '\x7d' :: rest) = _
      rw [begin_brace (by omega), skipSpace_cons (by decide)]
      rfl
  | @cons member _ _ _ hmember hmembers =>
      refine ⟨⟨'\x7b', _, rfl, by decide, by decide⟩, fun stack rest hroom ↦ ?_⟩
      have hroom : stack.length + 1 + room ≤ maxDepth := by omega
      simp only [laidOut, List.cons_append, List.append_assoc, List.nil_append]
      obtain ⟨next, hnext, hleads⟩ := begin_member hroom hgap hmember _
      apply (Leads.of_begin hnext hleads.outside).trans
      exact leads_members hmembers hroom hgap hending ∅ member.1 member.2 rest

end

/-! ## What is printed -/

theorem intercalate_cons (separator part : List Char) (parts : List (List Char)) :
    separator.intercalate (part :: parts) = part ++ parts.flatMap (separator ++ ·) := by
  induction parts generalizing part with
  | nil => simp
  | cons next parts ih => rw [List.intercalate_cons_cons, ih, List.flatMap_cons, List.append_assoc,
      List.append_assoc]

theorem toList_joined (opening closing : Char) (parts : List String) :
    (String.singleton opening ++ ",".intercalate parts ++ String.singleton closing).toList =
      laidOut [] [] opening closing (parts.map String.toList) := by
  cases parts with
  | nil => simp [laidOut]
  | cons part parts =>
      simp [laidOut, String.toList_intercalate, intercalate_cons, List.flatMap_map]

theorem toList_block (level : Nat) (opening closing : Char) (parts : List String) :
    (block level (String.singleton opening) (String.singleton closing) parts).toList =
      laidOut (newline (level + 1)).toList (newline level).toList opening closing
        (parts.map String.toList) := by
  cases parts with
  | nil => simp [block, laidOut]
  | cons part parts =>
      simp [block, laidOut, String.toList_intercalate, intercalate_cons, List.flatMap_map]

theorem compactItems_eq_map (items : List Json) : compactItems items = items.map compact := by
  induction items with
  | nil => rw [compactItems, List.map_nil]
  | cons item items ih => rw [compactItems, ih, List.map_cons]

theorem prettyItems_eq_map (level : Nat) (items : List Json) :
    prettyItems level items = items.map (prettyAt level) := by
  induction items with
  | nil => rw [prettyItems, List.map_nil]
  | cons item items ih => rw [prettyItems, ih, List.map_cons]

theorem compactMembers_eq_map (members : List (String × Json)) :
    compactMembers members =
      members.map fun member ↦ quoted member.1 ++ ":" ++ member.2.compact := by
  induction members with
  | nil => rw [compactMembers, List.map_nil]
  | cons member members ih => rw [compactMembers, ih, List.map_cons]

theorem prettyMembers_eq_map (level : Nat) (members : List (String × Json)) :
    prettyMembers level members =
      members.map fun member ↦ quoted member.1 ++ ": " ++ member.2.prettyAt level := by
  induction members with
  | nil => rw [prettyMembers, List.map_nil]
  | cons member members ih => rw [prettyMembers, ih, List.map_cons]

section

variable {room : Nat}

theorem forall₂_reads {text : Json → String} {items : List Json}
    (h : ∀ item ∈ items, Reads room item (text item).toList) :
    List.Forall₂ (Reads room) items ((items.map text).map String.toList) := by
  rw [List.map_map]
  exact List.forall₂_map_right_iff.mpr (List.forall₂_same.mpr h)

theorem forall₂_readsMember (text : Json → String) (colon : String)
    {members : List (String × Json)} {gap : List Char} (hcolon : colon.toList = ':' :: gap)
    (hgap : Gap gap)
    (h : ∀ member ∈ members, Reads room member.2 (text member.2).toList) :
    List.Forall₂ (ReadsMember room) members
      ((members.map fun member ↦ quoted member.1 ++ colon ++ text member.2).map
        String.toList) := by
  rw [List.map_map]
  apply List.forall₂_map_right_iff.mpr
  apply List.forall₂_same.mpr
  intro member hmember
  exact ⟨gap, _, hgap, h member hmember, by simp [hcolon]⟩

end

theorem toList_compact_object (members : List (String × Json)) :
    (compact (.object members)).toList = laidOut [] [] '\x7b' '\x7d'
      ((members.map fun member ↦ quoted member.1 ++ ":" ++ member.2.compact).map
        String.toList) := by
  rw [compact, compactMembers_eq_map]
  exact toList_joined '\x7b' '\x7d' _

theorem toList_prettyAt_object (level : Nat) (members : List (String × Json)) :
    (prettyAt level (.object members)).toList =
      laidOut (newline (level + 1)).toList (newline level).toList '\x7b' '\x7d'
        ((members.map fun member ↦
          quoted member.1 ++ ": " ++ member.2.prettyAt (level + 1)).map String.toList) := by
  rw [prettyAt, prettyMembers_eq_map]
  exact toList_block level '\x7b' '\x7d' _

theorem gap_space : Gap [' '] := rfl

theorem reads_compact {room : Nat} {json : Json} (h : Fits room json) :
    Reads room json json.compact.toList := by
  induction h with
  | null => exact reads_null _
  | boolean => exact reads_boolean _ _
  | string => exact reads_string _ _
  | @array room items hitems ih =>
      have htext : (compact (.array items)).toList =
          laidOut [] [] '[' ']' ((items.map compact).map String.toList) := by
        rw [compact, compactItems_eq_map]
        exact toList_joined '[' ']' _
      rw [htext]
      exact reads_laidOut_array (forall₂_reads ih) gap_nil gap_nil
  | @object room members hkeys hvalues ih =>
      have hparts := forall₂_readsMember compact ":" rfl gap_nil ih
      have hreads := reads_laidOut_object hparts gap_nil gap_nil
      rwa [Fields.entries_ofList hkeys, ← toList_compact_object] at hreads

theorem reads_prettyAt {room : Nat} {json : Json} (h : Fits room json) (level : Nat) :
    Reads room json (json.prettyAt level).toList := by
  induction h generalizing level with
  | null => exact reads_null _
  | boolean => exact reads_boolean _ _
  | string => exact reads_string _ _
  | @array room items hitems ih =>
      have htext : (prettyAt level (.array items)).toList =
          laidOut (newline (level + 1)).toList (newline level).toList '[' ']'
            ((items.map (prettyAt (level + 1))).map String.toList) := by
        rw [prettyAt, prettyItems_eq_map]
        exact toList_block level '[' ']' _
      rw [htext]
      have hparts := forall₂_reads fun item hitem ↦ ih item hitem (level + 1)
      exact reads_laidOut_array hparts (gap_newline _) (gap_newline _)
  | @object room members hkeys hvalues ih =>
      have hparts := forall₂_readsMember (prettyAt (level + 1)) ": " rfl gap_space
        fun member hmember ↦ ih member hmember (level + 1)
      have hreads := reads_laidOut_object hparts (gap_newline (level + 1)) (gap_newline level)
      rwa [Fields.entries_ofList hkeys, ← toList_prettyAt_object] at hreads

theorem read_of_reads {json : Json} {text : String} (h : Reads maxDepth json text.toList) :
    Json.read text = .ok json := by
  have hfinish := (h.leads [] [] (Nat.le_refl _)).finish_eq
  rw [List.append_nil] at hfinish
  rw [Json.read, hfinish, Place.finish]
  rfl

/-- What is printed is read back as it was, on one line and on several. -/
theorem read_print {json : Json} (h : Fits maxDepth json) (onLines : Bool) :
    Json.read (json.print onLines) = .ok json := by
  rw [print]
  split
  · exact read_of_reads (reads_prettyAt h 0)
  · exact read_of_reads (reads_compact h)

theorem exists_laidOut_print {room : Nat} {members : List (String × Json)}
    (h : ∀ member ∈ members, Fits room member.2) (onLines : Bool) :
    ∃ gap ending parts, Gap gap ∧ Gap ending ∧ List.Forall₂ (ReadsMember room) members parts ∧
      ((Json.object members).print onLines).toList = laidOut gap ending '\x7b' '\x7d' parts := by
  rw [print]
  split
  · have hvalues := fun member hmember ↦ reads_prettyAt (h member hmember) 1
    exact ⟨_, _, _, gap_newline _, gap_newline _,
      forall₂_readsMember (prettyAt 1) ": " rfl gap_space hvalues,
      toList_prettyAt_object 0 members⟩
  · have hvalues := fun member hmember ↦ reads_compact (h member hmember)
    exact ⟨_, _, _, gap_nil, gap_nil, forall₂_readsMember compact ":" rfl gap_nil hvalues,
      toList_compact_object members⟩

end FieldRules.Json
