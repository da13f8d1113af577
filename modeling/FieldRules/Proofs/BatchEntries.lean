import FieldRules.Proofs.BatchAnswers

/-!
# Entries of batches in JSON

The forms in which tokens, values and rules are written in JSON are listed here, apart from the
functions that read them. An object is a batch exactly if each of its entries is a pair in these
forms, and the batch has what is written, in place. Otherwise the first bad entry decides: its shape
comes before its rule, and its rule before its value.
-/

namespace FieldRules

theorem Combinator.ofName?_eq_some_iff {name : String} {c : Combinator} :
    ofName? name = some c ↔ name = c.name := by
  rw [ofName?]
  cases c <;> split_ifs <;> simp_all [Combinator.name]

/-! ## Tokens -/

namespace Token

/-- The name of a variant stands by itself, or as the only key of an object, in front of a null. -/
inductive Names : Json → String → Prop
  | string (name : String) : Names (.string name) name
  | key (name : String) : Names (.object [(name, .null)]) name

/-- There is no payload, or a null in its place. -/
def Bare (payload : Option Json) : Prop :=
  payload = none ∨ payload = some .null

/-- The payload belongs to the token under the name of its variant. The object that names a
combinator may hold an empty object for the null if the payload stands early. -/
inductive Carries (early : Prop) : String → Option Json → Token → Prop
  | groupOpen {payload} (h : Bare payload) : Carries early "group_open" payload .groupOpen
  | groupClose {payload} (h : Bare payload) : Carries early "group_close" payload .groupClose
  | negation {payload} (h : Bare payload) : Carries early "negation" payload .negation
  | identifier (text : String) :
      Carries early "identifier" (some (.string text)) (.identifier text)
  | combinator {payload} {c : Combinator} (h : Names payload c.name) :
      Carries early "combinator" (some payload) (.combinator c)
  | emptied {c : Combinator} (h : early) :
      Carries early "combinator" (some (.object [(c.name, .object [])])) (.combinator c)

/-- The `value` of an object stands before its `type`. -/
def ValueFirst (members : List (String × Json)) : Prop :=
  ∃ before value after, members = before ++ ("value", value) :: after ∧
    ∀ member ∈ before, member.1 ≠ "type"

/-- The forms of a token: a pair, or an object with a `type` and perhaps a `value`. -/
inductive IsWrittenAs : Token → Json → Prop
  | pair {token name payload} (h : Carries False name (some payload) token) :
      IsWrittenAs token (.array [.string name, payload])
  | object {token members type name} (htype : members.lookup "type" = some type)
      (hname : Names type name)
      (h : Carries (ValueFirst members) name (members.lookup "value") token) :
      IsWrittenAs token (.object members)

variable {json : Json} {name : String} {payload : Option Json} {token : Token}
  {valueFirst : Bool} {members : List (String × Json)}

theorem variant?_eq_some_iff : variant? json = some name ↔ Names json name := by
  constructor
  · intro h
    unfold variant? at h
    split at h
    · cases h
      exact .string name
    · cases h
      exact .key name
    · cases h
  · rintro (_ | _) <;> rfl

theorem combinator?_eq_some_iff {c : Combinator} :
    combinator? valueFirst json = some c ↔
      Names json c.name ∨ valueFirst ∧ json = .object [(c.name, .object [])] := by
  unfold combinator?
  split
  · next key =>
    have hnames : ¬ Names (.object [(key, .object [])]) c.name := by
      rintro (_ | _)
    split_ifs with hfirst <;> simp [hnames, hfirst, Combinator.ofName?_eq_some_iff]
  · next hjson =>
    have hne : json ≠ .object [(c.name, .object [])] := hjson c.name
    simp [hne, Option.bind_eq_some_iff, variant?_eq_some_iff, Combinator.ofName?_eq_some_iff]

theorem carries_of_plain? {early : Prop} (h : plain? name = some token) (hbare : Bare payload) :
    Carries early name payload token := by
  unfold plain? at h
  split_ifs at h with hopen hclose hnegation <;> cases h
  · rw [hopen]
    exact .groupOpen hbare
  · rw [hclose]
    exact .groupClose hbare
  · rw [hnegation]
    exact .negation hbare

theorem ofParts?_of_bare (h : Bare payload) : ofParts? valueFirst name payload = plain? name := by
  rcases h with rfl | rfl <;> rfl

theorem carries_of_ofParts? (h : ofParts? valueFirst name payload = some token) :
    Carries (valueFirst = true) name payload token := by
  by_cases hbare : Bare payload
  · rw [ofParts?_of_bare hbare] at h
    exact carries_of_plain? h hbare
  · unfold ofParts? at h
    split at h
    · exact absurd (.inl rfl) hbare
    · exact absurd (.inr rfl) hbare
    · split_ifs at h with hcombinator hidentifier
      · obtain ⟨c, hc, rfl⟩ := Option.map_eq_some_iff.mp h
        rw [hcombinator]
        rcases combinator?_eq_some_iff.mp hc with hnames | ⟨hfirst, rfl⟩
        · exact .combinator hnames
        · exact .emptied hfirst
      · split at h
        · cases h
          rw [hidentifier]
          exact .identifier _
        · cases h

theorem ofParts?_eq_some_iff :
    ofParts? valueFirst name payload = some token ↔
      Carries (valueFirst = true) name payload token := by
  refine ⟨carries_of_ofParts?, fun h ↦ ?_⟩
  cases h with
  | groupOpen hbare => rw [ofParts?_of_bare hbare]; rfl
  | groupClose hbare => rw [ofParts?_of_bare hbare]; rfl
  | negation hbare => rw [ofParts?_of_bare hbare]; rfl
  | identifier text => rfl
  | @combinator payload c hnames =>
      have hread : combinator? valueFirst payload = some c :=
        combinator?_eq_some_iff.mpr (.inl hnames)
      cases hnames <;> simp [ofParts?, hread]
  | @emptied c hfirst =>
      have hread : combinator? valueFirst (.object [(c.name, .object [])]) = some c :=
        combinator?_eq_some_iff.mpr (.inr ⟨hfirst, rfl⟩)
      simp [ofParts?, hread]

theorem valueFirst_iff :
    (members.find? fun (key, _) ↦ key == "type" || key == "value").any (·.1 == "value") ↔
      ValueFirst members := by
  constructor
  · intro h
    obtain ⟨⟨key, value⟩, hfind, hkey⟩ := Option.any_eq_true _ _ |>.mp h
    obtain ⟨-, before, after, hsplit, hbefore⟩ := List.find?_eq_some_iff_append.mp hfind
    have hvalue : key = "value" := by simpa using hkey
    subst hvalue
    refine ⟨before, value, after, hsplit, fun member hmember ↦ ?_⟩
    have hneither : member.1 ≠ "type" ∧ member.1 ≠ "value" := by
      simpa using hbefore member hmember
    exact hneither.1
  · rintro ⟨before, value, after, rfl, hbefore⟩
    rw [List.find?_append]
    cases hfind : before.find? fun (key, _) ↦ key == "type" || key == "value" with
    | none => simp
    | some member =>
        -- Nothing in front is a type, so what is found there is a value too.
        have hkey := List.find?_some hfind
        have hne := hbefore member (List.mem_of_find?_eq_some hfind)
        simpa [hne] using hkey

theorem ofJson?_eq_some_iff : ofJson? json = some token ↔ token.IsWrittenAs json := by
  constructor
  · intro h
    unfold ofJson? at h
    split at h
    · exact .pair (by simpa using ofParts?_eq_some_iff.mp h)
    · next members =>
      simp only [bind, Option.bind_eq_some_iff] at h
      obtain ⟨name, ⟨type, htype, hname⟩, hparts⟩ := h
      rw [ofParts?_eq_some_iff, valueFirst_iff] at hparts
      exact .object htype (variant?_eq_some_iff.mp hname) hparts
    · cases h
  · rintro (h | ⟨htype, hname, h⟩)
    · exact ofParts?_eq_some_iff.mpr (by simpa using h)
    · rw [← variant?_eq_some_iff] at hname
      rw [← valueFirst_iff] at h
      simp [ofJson?, htype, hname, ofParts?_eq_some_iff.mpr h]

theorem mapM_ofJson?_eq_some_iff {items : List Json} {given : List Token} :
    items.mapM ofJson? = some given ↔ List.Forall₂ IsWrittenAs given items := by
  induction items generalizing given with
  | nil => cases given <;> simp
  | cons item items ih =>
      cases given with
      | nil => simp [List.mapM_cons, Option.bind_eq_some_iff]
      | cons token given =>
          simp [List.mapM_cons, Option.bind_eq_some_iff, ih, ofJson?_eq_some_iff]

theorem mapM_ofJson?_eq_none_iff {items : List Json} :
    items.mapM ofJson? = none ↔ ∃ item ∈ items, ∀ token : Token, ¬ token.IsWrittenAs item := by
  induction items with
  | nil => simp
  | cons item items ih =>
      simp only [← ofJson?_eq_some_iff, ← Option.eq_none_iff_forall_ne_some] at ih ⊢
      cases hitem : ofJson? item with
      | none => simp [List.mapM_cons, hitem]
      | some token =>
          rw [List.exists_mem_cons_iff, hitem, ← ih, List.mapM_cons, hitem]
          cases items.mapM ofJson? <;> simp

end Token

/-! ## Values and rules -/

/-- The forms of a value. A number that is no integer of 64 bits becomes a float. -/
inductive Value.IsWrittenAs : Value → Json → Prop
  | null : IsWrittenAs .null .null
  | boolean (b : Bool) : IsWrittenAs (.boolean b) (.boolean b)
  | integer (n : Int64) : IsWrittenAs (.integer n) (.integer n.toInt)
  | large {n : ℤ} (h : ∀ small : Int64, small.toInt ≠ n) :
      IsWrittenAs (.float (Float.ofInt n)) (.integer n)
  | float (x : Float) : IsWrittenAs (.float x) (.float x)
  | string (text : String) : IsWrittenAs (.string text) (.string text)

/-- Arrays and objects are not written for any value. -/
def Json.IsNested (json : Json) : Prop :=
  (∃ items, json = .array items) ∨ ∃ members, json = .object members

theorem Value.ofJson_of_toInt (n : Int64) : ofJson (.integer n.toInt) = .ok (.integer n) := by
  have hrange : -Int.pow 2 63 ≤ n.toInt ∧ n.toInt < Int.pow 2 63 := ⟨n.le_toInt, n.toInt_lt⟩
  rw [ofJson, if_pos hrange, Int64.ofInt_toInt]

theorem Value.ofJson_of_large {n : ℤ} (h : ∀ small : Int64, small.toInt ≠ n) :
    ofJson (.integer n) = .ok (.float (Float.ofInt n)) := by
  refine if_neg fun hrange ↦ h (Int64.ofInt n) ?_
  exact Int64.toInt_ofInt_of_le hrange.1 hrange.2

/-- Every JSON value but an array or an object is written for one value. -/
theorem Value.ofJson_cases (json : Json) :
    (∃ value, ofJson json = .ok value ∧ value.IsWrittenAs json) ∨
      json.IsNested ∧ ofJson json = .error (.unsupportedValue json) := by
  cases json with
  | null => exact .inl ⟨_, rfl, .null⟩
  | boolean b => exact .inl ⟨_, rfl, .boolean b⟩
  | float x => exact .inl ⟨_, rfl, .float x⟩
  | string text => exact .inl ⟨_, rfl, .string text⟩
  | array items => exact .inr ⟨.inl ⟨items, rfl⟩, rfl⟩
  | object members => exact .inr ⟨.inr ⟨members, rfl⟩, rfl⟩
  | integer n =>
      by_cases h : ∀ small : Int64, small.toInt ≠ n
      · exact .inl ⟨_, ofJson_of_large h, .large h⟩
      · obtain ⟨small, rfl⟩ := not_forall_not.mp h
        exact .inl ⟨_, ofJson_of_toInt small, .integer small⟩

theorem Value.IsWrittenAs.ofJson_eq {json : Json} {value : Value} (h : value.IsWrittenAs json) :
    ofJson json = .ok value := by
  cases h with
  | integer n => exact ofJson_of_toInt n
  | large hlarge => exact ofJson_of_large hlarge
  | null | boolean | float | string => rfl

theorem Value.ofJson_eq_ok_iff {json : Json} {value : Value} :
    ofJson json = .ok value ↔ value.IsWrittenAs json := by
  refine ⟨fun h ↦ ?_, IsWrittenAs.ofJson_eq⟩
  rcases ofJson_cases json with ⟨found, hfound, hwritten⟩ | ⟨-, hnested⟩
  · rw [h] at hfound
    cases hfound
    exact hwritten
  · rw [h] at hnested
    cases hnested

theorem Value.ofJson_eq_error_iff {json : Json} {e : BatchError} :
    ofJson json = .error e ↔ json.IsNested ∧ e = .unsupportedValue json := by
  constructor
  · intro h
    rcases ofJson_cases json with ⟨found, hfound, -⟩ | ⟨hnested, herror⟩
    · rw [h] at hfound
      cases hfound
    · rw [h] at herror
      cases herror
      exact ⟨hnested, rfl⟩
  · rintro ⟨⟨items, rfl⟩ | ⟨members, rfl⟩, rfl⟩ <;> rfl

/-- The forms of a rule: its text, or its tokens in an array. -/
inductive Rule.IsWrittenAs : Rule → Json → Prop
  | text (written : String) : IsWrittenAs (.text written) (.string written)
  | tokens {given items} (h : List.Forall₂ Token.IsWrittenAs given items) :
      IsWrittenAs (.tokens given) (.array items)

/-- What is wrong with a rule: its kind, or one of its tokens. -/
inductive Rule.Refused : Json → ParseError → Prop
  | kind {json} (hstring : ∀ written, json ≠ .string written)
      (harray : ∀ items, json ≠ .array items) : Refused json (.notARule json.kind)
  | token {items item} (hitem : item ∈ items) (h : ∀ token : Token, ¬ token.IsWrittenAs item) :
      Refused (.array items) .malformedTokens

theorem Rule.ofJson_eq_ok_iff {json : Json} {rule : Rule} :
    ofJson json = .ok rule ↔ rule.IsWrittenAs json := by
  constructor
  · intro h
    unfold ofJson at h
    split at h
    · cases h
      exact .text _
    · split at h
      · next hitems =>
        cases h
        exact .tokens (Token.mapM_ofJson?_eq_some_iff.mp hitems)
      · cases h
    · cases h
  · rintro (_ | h)
    · rfl
    · simp [ofJson, Token.mapM_ofJson?_eq_some_iff.mpr h]

theorem Rule.exists_isWrittenAs_iff {json : Json} :
    (∃ rule : Rule, rule.IsWrittenAs json) ↔
      (∃ written, json = .string written) ∨
        ∃ items, json = .array items ∧ ∀ item ∈ items, ∃ token : Token, token.IsWrittenAs item := by
  constructor
  · rintro ⟨rule, written | @⟨given, items, hgiven⟩⟩
    · exact .inl ⟨written, rfl⟩
    · refine .inr ⟨items, rfl, fun item hitem ↦ ?_⟩
      by_contra hforms
      have hnone : items.mapM Token.ofJson? = none :=
        Token.mapM_ofJson?_eq_none_iff.mpr ⟨item, hitem, not_exists.mp hforms⟩
      rw [Token.mapM_ofJson?_eq_some_iff.mpr hgiven] at hnone
      cases hnone
  · rintro (⟨written, rfl⟩ | ⟨items, rfl, hitems⟩)
    · exact ⟨_, .text written⟩
    · cases hgiven : items.mapM Token.ofJson? with
      | some given => exact ⟨_, .tokens (Token.mapM_ofJson?_eq_some_iff.mp hgiven)⟩
      | none =>
          obtain ⟨item, hitem, hforms⟩ := Token.mapM_ofJson?_eq_none_iff.mp hgiven
          obtain ⟨token, htoken⟩ := hitems item hitem
          exact absurd htoken (hforms token)

theorem Rule.ofJson_eq_error_iff {json : Json} {e : ParseError} :
    ofJson json = .error e ↔ Refused json e := by
  constructor
  · intro h
    unfold ofJson at h
    split at h
    · cases h
    · split at h
      · cases h
      · next hitems =>
        cases h
        obtain ⟨item, hitem, hforms⟩ := Token.mapM_ofJson?_eq_none_iff.mp hitems
        exact .token hitem hforms
    · next hstring harray =>
      cases h
      exact .kind hstring harray
  · rintro (⟨hstring, harray⟩ | ⟨hitem, hforms⟩)
    · exact ofJson.eq_3 json hstring harray
    · simp [ofJson, Token.mapM_ofJson?_eq_none_iff.mpr ⟨_, hitem, hforms⟩]

/-! ## Entries -/

/-- An entry is a pair, of the value and of the rule. -/
def Field.IsWrittenAs (field : Field) (json : Json) : Prop :=
  ∃ value rule, json = .array [value, rule] ∧ field.value.IsWrittenAs value ∧
    field.rule.IsWrittenAs rule

namespace Batch

/-- What is wrong with the entry of a field: its shape, or else its rule, or else its value. -/
inductive Faulty (name : String) : Json → BatchError → Prop
  | shape {json} (h : ∀ value rule, json ≠ .array [value, rule]) : Faulty name json (.notAPair name)
  | rule {value rule e} (h : Rule.Refused rule e) :
      Faulty name (.array [value, rule]) (.badRule e)
  | value {value json} {rule : Rule} (hrule : rule.IsWrittenAs json) (h : value.IsNested) :
      Faulty name (.array [value, json]) (.unsupportedValue value)

variable {name : String} {json : Json} {members : List (String × Json)}

theorem fieldOfJson_eq_ok_iff {field : Field} :
    fieldOfJson name json = .ok field ↔ field.IsWrittenAs json := by
  constructor
  · intro h
    unfold fieldOfJson at h
    split at h
    · next value rule =>
      split at h
      · cases h
      · next hrule =>
        obtain ⟨found, hvalue, rfl⟩ := Json.exists_of_map_eq_ok h
        exact ⟨value, rule, rfl, Value.ofJson_eq_ok_iff.mp hvalue, Rule.ofJson_eq_ok_iff.mp hrule⟩
    · cases h
  · rintro ⟨value, rule, rfl, hvalue, hrule⟩
    simp only [fieldOfJson, Rule.ofJson_eq_ok_iff.mpr hrule, hvalue.ofJson_eq]
    rfl

theorem fieldOfJson_eq_error_iff {e : BatchError} :
    fieldOfJson name json = .error e ↔ Faulty name json e := by
  constructor
  · intro h
    unfold fieldOfJson at h
    split at h
    · split at h
      · next hrule =>
        cases h
        exact .rule (Rule.ofJson_eq_error_iff.mp hrule)
      · next value _ _ _ hrule =>
        rcases Value.ofJson_cases value with ⟨found, hfound, -⟩ | ⟨hnested, hfound⟩
        · rw [hfound] at h
          cases h
        · rw [hfound] at h
          cases h
          exact .value (Rule.ofJson_eq_ok_iff.mp hrule) hnested
    · next hshape =>
      cases h
      exact .shape hshape
  · rintro (hshape | hrule | ⟨hrule, hnested⟩)
    · exact fieldOfJson.eq_2 name json hshape
    · simp only [fieldOfJson, Rule.ofJson_eq_error_iff.mpr hrule]
    · simp only [fieldOfJson, Rule.ofJson_eq_ok_iff.mpr hrule,
        Value.ofJson_eq_error_iff.mpr ⟨hnested, rfl⟩]
      rfl

/-- An entry is written for a field exactly if it is a pair of a rule and of what is no array or
object. -/
theorem exists_isWrittenAs_iff :
    (∃ field : Field, field.IsWrittenAs json) ↔
      ∃ value rule, json = .array [value, rule] ∧ ¬ value.IsNested ∧
        ∃ given : Rule, given.IsWrittenAs rule := by
  constructor
  · rintro ⟨field, value, rule, rfl, hvalue, hrule⟩
    refine ⟨value, rule, rfl, fun hnested ↦ ?_, field.rule, hrule⟩
    rw [← Value.ofJson_eq_ok_iff, Value.ofJson_eq_error_iff.mpr ⟨hnested, rfl⟩] at hvalue
    cases hvalue
  · rintro ⟨value, rule, rfl, hvalue, given, hrule⟩
    rcases Value.ofJson_cases value with ⟨found, -, hfound⟩ | ⟨hnested, -⟩
    · exact ⟨⟨found, given⟩, value, rule, rfl, hfound, hrule⟩
    · exact absurd hnested hvalue

theorem converts_iff {entries : List (String × Field)} :
    Converts members entries ↔
      List.Forall₂ (fun member entry ↦ entry.1 = member.1 ∧ entry.2.IsWrittenAs member.2)
        members entries := by
  simp only [Converts, fieldOfJson_eq_ok_iff]

theorem Converts.exists_isWrittenAs {entries : List (String × Field)}
    (h : Converts members entries) :
    ∀ member ∈ members, ∃ field : Field, field.IsWrittenAs member.2 := by
  induction h with
  | nil => simp
  | cons hfirst _ ih =>
      exact List.forall_mem_cons.mpr ⟨⟨_, fieldOfJson_eq_ok_iff.mp hfirst.2⟩, ih⟩

theorem ofJson_eq_ok_iff (hkeys : (members.map Prod.fst).Nodup) {batch : Batch} :
    ofJson (.object members) = .ok batch ↔ Converts members batch.entries := by
  constructor
  · intro h
    rcases converts_or_stopsFirst members with ⟨entries, hentries⟩ | ⟨before, member, e, hstops⟩
    · obtain ⟨found, hfound, rfl⟩ := hentries.exists_ofJson_eq_ok hkeys
      rw [h] at hfound
      cases hfound
      exact hentries
    · have herror := addMembers_of_stopsFirst hstops ∅
      rw [ofJson, herror] at h
      cases h
  · intro h
    obtain ⟨found, hfound, hentries⟩ := h.exists_ofJson_eq_ok hkeys
    rw [hfound, Fields.ext hentries]

theorem exists_ofJson_eq_ok_iff (hkeys : (members.map Prod.fst).Nodup) :
    (∃ batch, ofJson (.object members) = .ok batch) ↔
      ∀ member ∈ members, ∃ field : Field, field.IsWrittenAs member.2 := by
  simp only [ofJson_eq_ok_iff hkeys]
  constructor
  · rintro ⟨batch, hbatch⟩
    exact hbatch.exists_isWrittenAs
  · intro h
    have hfields : ∀ member ∈ members, ∃ field, fieldOfJson member.1 member.2 = .ok field := by
      simpa only [fieldOfJson_eq_ok_iff] using h
    obtain ⟨entries, hentries⟩ := exists_converts hfields
    obtain ⟨batch, -, rfl⟩ := hentries.exists_ofJson_eq_ok hkeys
    exact ⟨batch, hentries⟩

theorem ofJson_eq_error_iff {e : BatchError} :
    ofJson (.object members) = .error e ↔ ∃ before member, StopsFirst members before member e := by
  constructor
  · intro h
    rcases converts_or_stopsFirst members with
      ⟨entries, hentries⟩ | ⟨before, member, cause, hstops⟩
    · rw [ofJson, addMembers_of_converts hentries] at h
      cases h
    · rw [ofJson, addMembers_of_stopsFirst hstops] at h
      cases h
      exact ⟨before, member, hstops⟩
  · rintro ⟨before, member, hstops⟩
    exact addMembers_of_stopsFirst hstops ∅

theorem stopsFirst_iff {before : List (String × Json)} {member : String × Json} {e : BatchError} :
    StopsFirst members before member e ↔
      (∃ after, members = before ++ member :: after) ∧
        (∀ earlier ∈ before, ∃ field : Field, field.IsWrittenAs earlier.2) ∧
        Faulty member.1 member.2 e := by
  constructor
  · rintro ⟨hafter, hbefore, hstops⟩
    exact ⟨hafter, by simpa only [fieldOfJson_eq_ok_iff] using hbefore,
      fieldOfJson_eq_error_iff.mp hstops⟩
  · rintro ⟨hafter, hbefore, hfaulty⟩
    exact ⟨hafter, by simpa only [fieldOfJson_eq_ok_iff] using hbefore,
      fieldOfJson_eq_error_iff.mpr hfaulty⟩

/-- All entries of an object become fields, or none do. Every entry has to be a pair of what is no
array or object and of a rule; the batch then has the names of the object in its order, each with
what is written there. Otherwise the error is that of the first entry that is no field. -/
theorem ofJson_all_or_nothing :
    (∀ json, (∀ members, json ≠ .object members) → ofJson json = .error .notAnObject) ∧
      ∀ members, (members.map Prod.fst).Nodup →
        ((∃ batch, ofJson (.object members) = .ok batch) ↔
          ∀ member ∈ members, ∃ value rule, member.2 = .array [value, rule] ∧ ¬ value.IsNested ∧
            ((∃ written, rule = .string written) ∨ ∃ items, rule = .array items ∧
              ∀ item ∈ items, ∃ token : Token, token.IsWrittenAs item)) ∧
        (∀ batch, ofJson (.object members) = .ok batch ↔
          List.Forall₂ (fun member entry ↦ entry.1 = member.1 ∧ entry.2.IsWrittenAs member.2)
            members batch.entries) ∧
        ∀ e, ofJson (.object members) = .error e ↔
          ∃ before member after, members = before ++ member :: after ∧
            (∀ earlier ∈ before, ∃ field : Field, field.IsWrittenAs earlier.2) ∧
            Faulty member.1 member.2 e := by
  refine ⟨fun json hjson ↦ ?_, fun members hkeys ↦ ⟨?_, fun batch ↦ ?_, fun e ↦ ?_⟩⟩
  · cases json with
    | object members => exact absurd rfl (hjson members)
    | _ => rfl
  · simp only [exists_ofJson_eq_ok_iff hkeys, exists_isWrittenAs_iff, Rule.exists_isWrittenAs_iff]
  · rw [ofJson_eq_ok_iff hkeys, converts_iff]
  · simp only [ofJson_eq_error_iff, stopsFirst_iff]
    exact ⟨fun ⟨before, member, ⟨after, h⟩, hrest⟩ ↦ ⟨before, member, after, h, hrest⟩,
      fun ⟨before, member, after, h, hrest⟩ ↦ ⟨before, member, ⟨after, h⟩, hrest⟩⟩

/-- The second entry has a token of no known type for its rule and an array for its value, and the
third entry is no pair. -/
theorem ofJson_all_or_nothing_ruleFirst :
    let members := [("a", .array [.null, .array [.array [.string "negation", .null]]]),
      ("b", .array [.array [], .array [.object [("type", .string "bogus")]]]), ("c", Json.null)]
    (members.map Prod.fst).Nodup ∧
      ofJson (.object members) = .error (.badRule .malformedTokens) := by
  intro members
  have hkeys : (members.map Prod.fst).Nodup := by decide
  have hfirst : Field.IsWrittenAs ⟨.null, .tokens [.negation]⟩
      (.array [.null, .array [.array [.string "negation", .null]]]) :=
    ⟨_, _, rfl, .null, .tokens (.cons (.pair (.negation (.inr rfl))) .nil)⟩
  have hforms : ∀ token : Token, ¬ token.IsWrittenAs (.object [("type", .string "bogus")]) := by
    intro token htoken
    cases Token.ofJson?_eq_some_iff.mpr htoken
  refine ⟨hkeys, ((ofJson_all_or_nothing.2 members hkeys).2.2 _).mpr ⟨[_], _, _, rfl, ?_, ?_⟩⟩
  · exact List.forall_mem_singleton.mpr ⟨_, hfirst⟩
  · exact .rule (.token List.mem_cons_self hforms)

end Batch

end FieldRules
