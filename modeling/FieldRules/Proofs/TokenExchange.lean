import FieldRules.Commands
import FieldRules.Proofs.Batches
import FieldRules.Proofs.Json.RoundTrip

/-!
# Tokens in exchange for a text

The tokens of a rule are printed in JSON and read back as they were. A rule counts only by its
tokens, so what is printed for the text of a rule can stand in its place, in every field of a batch.
-/

namespace FieldRules

/-! ## Tokens read back -/

theorem Combinator.ofName?_name (c : Combinator) : ofName? c.name = some c := by
  cases c <;> rfl

namespace Token

theorem ofJson?_toJson (token : Token) : ofJson? token.toJson = some token := by
  cases token with
  | groupOpen => rfl
  | groupClose => rfl
  | combinator c =>
      change (Combinator.ofName? c.name).map combinator = some (combinator c)
      rw [c.ofName?_name, Option.map_some]
  | identifier text => rfl
  | negation => rfl

theorem mapM_ofJson? (tokens : List Token) : (tokens.map toJson).mapM ofJson? = some tokens := by
  induction tokens with
  | nil => rfl
  | cons token tokens ih =>
      rw [List.map_cons, List.mapM_cons, ofJson?_toJson, ih]
      rfl

theorem fits_toJson (room : Nat) (token : Token) : Json.Fits (room + 1) token.toJson := by
  have hplain (name : String) : Json.Fits (room + 1) (.object [("type", .string name)]) :=
    .object (by simp) (List.forall_mem_singleton.mpr .string)
  have hvalued (name text : String) :
      Json.Fits (room + 1) (.object [("type", .string name), ("value", .string text)]) :=
    .object (by simp) (List.forall_mem_cons.mpr ⟨.string, List.forall_mem_singleton.mpr .string⟩)
  cases token with
  | groupOpen => exact hplain _
  | groupClose => exact hplain _
  | combinator c => exact hvalued _ _
  | identifier text => exact hvalued _ _
  | negation => exact hplain _

theorem fits_listToJson (room : Nat) (tokens : List Token) :
    Json.Fits (room + 2) (listToJson tokens) := by
  apply Json.Fits.array
  intro item hitem
  obtain ⟨token, -, rfl⟩ := List.mem_map.mp hitem
  exact token.fits_toJson room

end Token

theorem Rule.ofJson_listToJson (tokens : List Token) :
    ofJson (Token.listToJson tokens) = .ok (.tokens tokens) := by
  rw [Token.listToJson, ofJson, Token.mapM_ofJson?]

theorem Command.read_tokens (written : String) (onLines : Bool) :
    Json.read (tokens written onLines) = .ok (Token.listToJson (tokenize written)) :=
  Json.read_print (Token.fits_listToJson _ _) onLines

/-! ## Rules by their tokens -/

/-- The field with the tokens of its rule for the rule. -/
def Field.tokenized (field : Field) : Field :=
  ⟨field.value, .tokens field.rule.toTokens⟩

namespace Registry

variable (registry : Registry)

theorem validateFields_tokenized (table : Fields Value) (results : Fields Bool)
    (entries : List (String × Field)) :
    registry.validateFields table results (entries.map fun entry ↦ (entry.1, entry.2.tokenized)) =
      registry.validateFields table results entries := by
  induction entries generalizing results with
  | nil => rfl
  | cons entry entries ih =>
      have hjudge : registry.judge table entry.2.tokenized.value entry.2.tokenized.rule =
          registry.judge table entry.2.value entry.2.rule := rfl
      simp only [List.map_cons, validateFields, hjudge, ih]

theorem validate_tokenized (batch : Batch) :
    registry.validate (batch.map Field.tokenized) = registry.validate batch := by
  have htable : table (batch.map Field.tokenized) = table batch := by
    apply Fields.ext
    simp [table, Fields.map, Field.tokenized]
  rw [validate_eq, validate_eq, htable]
  exact congrArg Logged.value (registry.validateFields_tokenized _ _ _)

end Registry

theorem cases_of_map_eq {ε α β : Type} {f : α → β} {x y : Except ε α} (h : x.map f = y.map f) :
    (∃ e, x = .error e ∧ y = .error e) ∨ ∃ a b, x = .ok a ∧ y = .ok b ∧ f a = f b := by
  cases x <;> cases y <;> simp_all [Except.map]

namespace Batch

/-- Both members are read as the same field, but for the form of its rule. -/
def SameField (member other : String × Json) : Prop :=
  member.1 = other.1 ∧
    (fieldOfJson member.1 member.2).map Field.tokenized =
      (fieldOfJson other.1 other.2).map Field.tokenized

theorem sameField_of_toTokens {json given : Json} {rule other : Rule}
    (hjson : Rule.ofJson json = .ok rule) (hgiven : Rule.ofJson given = .ok other)
    (h : rule.toTokens = other.toTokens) (name : String) (value : Json) :
    SameField (name, .array [value, json]) (name, .array [value, given]) := by
  refine ⟨rfl, ?_⟩
  simp only [fieldOfJson, hjson, hgiven]
  cases Value.ofJson value with
  | error e => rfl
  | ok value => exact congrArg (fun tokens ↦ Except.ok (Field.mk value (.tokens tokens))) h

theorem addMembers_tokenized {members others : List (String × Json)}
    (h : List.Forall₂ SameField members others) {batch other : Batch}
    (hbatch : batch.map Field.tokenized = other.map Field.tokenized) :
    (addMembers batch members).map (Fields.map Field.tokenized) =
      (addMembers other others).map (Fields.map Field.tokenized) := by
  induction h generalizing batch other with
  | nil => exact congrArg Except.ok hbatch
  | @cons member changed members others hfirst _ ih =>
      obtain ⟨name, json⟩ := member
      obtain ⟨_, given⟩ := changed
      obtain ⟨rfl, hfield⟩ := hfirst
      rcases cases_of_map_eq hfield with ⟨e, hleft, hright⟩ | ⟨field, found, hleft, hright, hrule⟩
      · simp only [addMembers, hleft, hright]
      · simp only [addMembers, hleft, hright]
        apply ih
        rw [Fields.map_insert, Fields.map_insert, hbatch, hrule]

end Batch

theorem Command.batch_eq_of_sameField {given replaced : String}
    {members others : List (String × Json)} (h : List.Forall₂ Batch.SameField members others)
    (hgiven : Json.read given = .ok (.object members))
    (hreplaced : Json.read replaced = .ok (.object others)) (onLines : Bool) :
    batch (some replaced) onLines = batch (some given) onLines := by
  rw [batch, batch, hgiven, hreplaced]
  simp only [Batch.ofJson]
  have hread := Batch.addMembers_tokenized h (Eq.refl ((∅ : Batch).map Field.tokenized))
  rcases cases_of_map_eq hread with ⟨e, hleft, hright⟩ | ⟨batch, other, hleft, hright, hsame⟩
  · rw [hleft, hright]
  · have hvalidate : Registry.standard.validate other = Registry.standard.validate batch := by
      rw [← Registry.validate_tokenized, ← hsame, Registry.validate_tokenized]
    simp only [hleft, hright, hvalidate]

namespace Rule

/-- Tokens in JSON are read back as they are, whatever they are. What is printed for the text of a
rule is read as its tokens, and a batch that has this in the place of the text, in any field, has
the same answer. -/
theorem tokens_exchange :
    (∀ tokens : List Token, ofJson (Token.listToJson tokens) = .ok (.tokens tokens)) ∧
      ∀ (written : String) (onLines : Bool), ∃ json,
        Json.read (Command.tokens written onLines) = .ok json ∧
        ofJson json = .ok (.tokens (tokenize written)) ∧
        ∀ (given replaced : String) (before after : List (String × Json)) (name : String)
          (value : Json) (pretty : Bool),
          Json.read given =
              .ok (.object (before ++ (name, .array [value, .string written]) :: after)) →
            Json.read replaced = .ok (.object (before ++ (name, .array [value, json]) :: after)) →
              Command.batch (some replaced) pretty = Command.batch (some given) pretty := by
  refine ⟨ofJson_listToJson, fun written onLines ↦ ?_⟩
  refine ⟨_, Command.read_tokens written onLines, ofJson_listToJson _, ?_⟩
  intro given replaced before after name value pretty hgiven hreplaced
  have hsame := Batch.sameField_of_toTokens (Rule.ofJson.eq_1 written)
    (ofJson_listToJson (tokenize written)) rfl name value
  have hrefl (members : List (String × Json)) : List.Forall₂ Batch.SameField members members :=
    List.forall₂_same.mpr fun _ _ ↦ ⟨rfl, rfl⟩
  have hmembers := List.rel_append (hrefl before) (.cons hsame (hrefl after))
  exact Command.batch_eq_of_sameField hmembers hgiven hreplaced pretty

/-- The rule of the first field is not closed, and its tokens are not either. -/
theorem tokens_exchange_unclosed :
    let batchOf (rule : Json) : Json :=
      .object [("a", .array [.string "x", rule]), ("b", .array [.null, .string "required"])]
    let given := (batchOf (.string "( min:3")).print false
    ∃ json, Json.read (Command.tokens "( min:3" true) = .ok json ∧
      let replaced := (batchOf json).print true
      Command.batch (some replaced) true = Command.batch (some given) true ∧
      Command.batch (some given) true = .error (.validation (.parse (.unclosedBlocks 1))) := by
  intro batchOf given
  have hread (rule : Json) (h : Json.Fits 125 rule) (onLines : Bool) :
      Json.read ((batchOf rule).print onLines) = .ok (batchOf rule) := by
    apply Json.read_print (.object (by simp) _)
    refine List.forall_mem_cons.mpr ⟨?_, List.forall_mem_singleton.mpr ?_⟩
    · exact .array (List.forall_mem_cons.mpr ⟨.string, List.forall_mem_singleton.mpr h⟩)
    · exact .array (List.forall_mem_cons.mpr ⟨.null, List.forall_mem_singleton.mpr .string⟩)
  obtain ⟨json, hjson, -, hbatch⟩ := tokens_exchange.2 "( min:3" true
  have htokens := hjson
  rw [Command.read_tokens] at htokens
  cases htokens
  have hgiven := hread (.string "( min:3") .string false
  have hreplaced := hread _ (Token.fits_listToJson 123 (tokenize "( min:3")) true
  refine ⟨_, hjson, hbatch given _ [] [_] "a" (.string "x") true hgiven hreplaced, ?_⟩
  rw [Command.batch, hgiven]
  rfl

end Rule

end FieldRules
