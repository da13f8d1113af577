import FieldRules.Proofs.Batches

/-!
# The log of a validation

The events of a validation tell the whole of it. Every identifier that is reached has one report, in
the order of the tokens whatever groups they stand in, every field that is finished has one behind
those of its identifiers, and the batch has one at the end. A failure cuts the log off where it
happens, so the last report is on the identifier before the unknown check.
-/

namespace FieldRules

/-- The texts of the identifiers among some tokens, in their order. -/
def Token.identifiers (tokens : List Token) : List String :=
  tokens.filterMap fun
    | .identifier text => some text
    | _ => none

/-- The event is logged at this level, with this message and these details. -/
structure Event.Shows (event : Event) (level : Level) (message : String)
    (details : List (String × Detail)) : Prop where
  level_eq : event.level = level
  message_eq : event.message = message
  details_eq : event.details = details

theorem Event.shows_validatedField (name : String) (outcome : Bool) :
    (Event.validatedField name outcome).Shows .debug "validated field"
      [("field", .text name), ("outcome", .flag outcome)] :=
  ⟨rfl, rfl, rfl⟩

namespace Setting

variable {setting : Setting} {tokens more : List Token} {events later : List Event}

/-- The event reports on the check that an identifier names: with what parameters it was invoked,
for what type of value, and what its outcome is. -/
def Reports (setting : Setting) (text : String) (event : Event) : Prop :=
  ∃ check, setting.registry.get? (Token.checkName text) = some check ∧
    let params := (Invocation.ofIdentifier text).params
    event.Shows .trace "invoked check"
      [("check", .text (Token.checkName text)),
        ("outcome", .flag (check setting.fields setting.value params)),
        ("params", .text (Text.quotedList params)),
        ("value", .text setting.value.typeName)]

/-- The events are reports on the identifiers among the tokens, one for each and in their order. -/
def Narrates (setting : Setting) (tokens : List Token) (events : List Event) : Prop :=
  List.Forall₂ setting.Reports (Token.identifiers tokens) events

/-- The events are reports on the identifiers in front of one that names an unknown check. -/
def NarratesUntil (setting : Setting) (tokens : List Token) (name : String)
    (events : List Event) : Prop :=
  ∃ before text after, tokens = before ++ .identifier text :: after ∧
    Token.checkName text = name ∧ setting.registry.get? name = none ∧
    setting.Narrates before events

theorem Narrates.append (h : setting.Narrates tokens events) (h' : setting.Narrates more later) :
    setting.Narrates (tokens ++ more) (events ++ later) := by
  rw [Narrates, Token.identifiers, List.filterMap_append]
  exact List.rel_append h h'

theorem NarratesUntil.append {name : String} (h : setting.NarratesUntil tokens name events)
    (more : List Token) : setting.NarratesUntil (tokens ++ more) name events := by
  obtain ⟨before, text, after, rfl, hname, hget, hbefore⟩ := h
  exact ⟨before, text, after ++ more, by simp, hname, hget, hbefore⟩

theorem Narrates.append_until {name : String} (h : setting.Narrates tokens events)
    (h' : setting.NarratesUntil more name later) :
    setting.NarratesUntil (tokens ++ more) name (events ++ later) := by
  obtain ⟨before, text, after, rfl, hname, hget, hbefore⟩ := h'
  exact ⟨tokens ++ before, text, after, by simp, hname, hget, h.append hbefore⟩

theorem narrates_singleton {token : Token} (h : ∀ text, token ≠ .identifier text) :
    setting.Narrates [token] [] := by
  cases token with
  | identifier text => exact absurd rfl (h text)
  | _ => exact .nil

theorem reports_of_invoke {text : String} {outcome : Bool} {event : Event}
    (h : setting.invoke text = .ok (outcome, event)) : setting.Reports text event := by
  rw [invoke, Token.name_ofIdentifier] at h
  cases hget : setting.registry.get? (Token.checkName text) with
  | none =>
      rw [hget] at h
      cases h
  | some check =>
      rw [hget] at h
      cases h
      exact ⟨check, hget, rfl, rfl, rfl⟩

/-- What the reports on a body are, by the outcome of the evaluation. -/
def Narration (setting : Setting) (tokens : List Token) (events : List Event) :
    Except EvalError Bool → Prop
  | .ok _ => setting.Narrates tokens events
  | .error e => ∃ name, setting.NarratesUntil tokens name events ∧ e = .unknownCheck name

theorem Narrates.append_narration {outcome : Except EvalError Bool}
    (h : setting.Narrates tokens events) (h' : setting.Narration more later outcome) :
    setting.Narration (tokens ++ more) (events ++ later) outcome := by
  cases outcome with
  | ok result => exact h.append h'
  | error e =>
      obtain ⟨name, huntil, he⟩ := h'
      exact ⟨name, h.append_until huntil, he⟩

/-- The reports on a body do not depend on the running state in which it is evaluated. -/
theorem narration_reports (accumulator : Bool) (combinator : Combinator) (negation : Bool)
    (body : Body) :
    setting.Narration body.tokens (setting.reports body)
      (setting.resultFrom accumulator combinator negation body) := by
  induction body generalizing accumulator combinator negation with
  | empty => exact .nil
  | leaf l rest ih =>
      cases l with
      | combinator c =>
          have hfirst : setting.Narrates [.combinator c] [] := narrates_singleton (by simp)
          exact hfirst.append_narration (ih accumulator c negation)
      | negation =>
          have hfirst : setting.Narrates [.negation] [] := narrates_singleton (by simp)
          exact hfirst.append_narration (ih accumulator combinator true)
      | identifier text =>
          cases hinvoke : setting.invoke text with
          | error e =>
              obtain ⟨name, hname, rfl⟩ := unknown?_of_invoke_error hinvoke
              obtain ⟨_, htext, rfl, hget⟩ := Registry.unknown?_eq_some_iff.mp hname
              cases htext
              simp only [resultFrom, reports, hinvoke]
              exact ⟨_, ⟨[], text, rest.tokens, rfl, rfl, hget, .nil⟩, rfl⟩
          | ok call =>
              have hfirst : setting.Narrates [.identifier text] [call.2] :=
                .cons (reports_of_invoke hinvoke) .nil
              simp only [resultFrom, reports, hinvoke]
              exact hfirst.append_narration (ih _ combinator false)
  | group inside rest ihInside ihRest =>
      have hopen : setting.Narrates [.groupOpen] [] := narrates_singleton (by simp)
      have hclose : setting.Narrates [.groupClose] [] := narrates_singleton (by simp)
      have hinside := ihInside false .or false
      cases hresult : setting.resultFrom false .or false inside with
      | error e =>
          rw [hresult] at hinside
          obtain ⟨name, huntil, rfl⟩ := hopen.append_narration hinside
          simp only [resultFrom, reports, result, hresult]
          exact ⟨name, by simpa [Body.tokens] using huntil.append (.groupClose :: rest.tokens), rfl⟩
      | ok outcome =>
          rw [hresult] at hinside
          simp only [resultFrom, reports, result, hresult]
          have hfirst := (hopen.append hinside).append hclose
          have hall := hfirst.append_narration
            (ihRest (accumulate combinator accumulator (outcome != negation)) combinator false)
          simpa [Body.tokens] using hall

end Setting

namespace Field

variable {registry : Registry} {table : Fields Value} {field : Field}

/-- What is logged of a field whose rule fails: nothing if the rule does not parse, and else the
reports on the identifiers in front of the unknown check. -/
def LogsFailure (registry : Registry) (table : Fields Value) (field : Field) (e : ValidationError)
    (events : List Event) : Prop :=
  (∃ cause, field.rule.parse = .error cause ∧ e = .parse cause ∧ events = []) ∨
    ∃ tree name, field.rule.parse = .ok tree ∧ e = .eval (.unknownCheck name) ∧
      Setting.NarratesUntil ⟨registry, table, field.value⟩ field.rule.toTokens name events

variable (registry table) in
theorem narration_judge {tree : Tree} (h : field.rule.parse = .ok tree) :
    Setting.Narration ⟨registry, table, field.value⟩ field.rule.toTokens
      (registry.judge table field.value field.rule).events.toList
      (Setting.evaluate ⟨registry, table, field.value⟩ tree) := by
  obtain ⟨body, hbody, rfl⟩ := Tree.exists_body_of_ofTokens h
  have hevaluation : Setting.evaluation ⟨registry, table, field.value⟩ (Tree.ofBody body) = _ :=
    Setting.evaluation_eq (Tree.sound_ofBody body)
  rw [Tree.body_ofBody] at hevaluation
  simp only [Registry.judge, h, Setting.evaluate, hevaluation, ← hbody]
  exact Setting.narration_reports false .or false body

theorem Gives.narrates {outcome : Bool} (h : field.Gives registry table outcome) :
    Setting.Narrates ⟨registry, table, field.value⟩ field.rule.toTokens
      (registry.judge table field.value field.rule).events.toList := by
  obtain ⟨tree, hparse, houtcome⟩ := h
  have hnarration := narration_judge registry table hparse
  rwa [houtcome] at hnarration

theorem Fails.logsFailure {e : ValidationError} (h : field.Fails registry table e) :
    field.LogsFailure registry table e
      (registry.judge table field.value field.rule).events.toList := by
  rcases h with ⟨cause, hparse, rfl⟩ | ⟨tree, name, hparse, hfails, rfl⟩
  · exact .inl ⟨cause, hparse, rfl, by simp [Registry.judge, hparse]⟩
  · have hnarration := narration_judge registry table hparse
    rw [hfails] at hnarration
    obtain ⟨_, huntil, hname⟩ := hnarration
    cases hname
    exact .inr ⟨tree, name, hparse, rfl, huntil⟩

end Field

namespace Registry

variable {registry : Registry} {table : Fields Value} {entries : List (String × Field)}

/-- What is logged of fields whose rules succeed with these results: for one field after the other,
the reports on the identifiers of its rule and then one on its result. -/
inductive Logs (registry : Registry) (table : Fields Value) :
    List (String × Field) → List (String × Bool) → List Event → Prop
  | nil : Logs registry table [] [] []
  | cons {name : String} {field : Field} {outcome : Bool} {reports later : List Event}
      {last : Event} {rest : List (String × Field)} {results : List (String × Bool)}
      (hgives : field.Gives registry table outcome)
      (hreports : Setting.Narrates ⟨registry, table, field.value⟩ field.rule.toTokens reports)
      (hlast : last.Shows .debug "validated field"
        [("field", .text name), ("outcome", .flag outcome)])
      (hlater : Logs registry table rest results later) :
      Logs registry table ((name, field) :: rest) ((name, outcome) :: results)
        (reports ++ last :: later)

/-- What is logged of a whole batch, by its outcome. -/
def LogsBatch (registry : Registry) (batch : Batch) (events : List Event) :
    Except ValidationError (Fields Bool) → Prop
  | .ok results =>
    ∃ earlier last, events = earlier ++ [last] ∧
      registry.Logs (Registry.table batch) batch.entries results.entries earlier ∧
      last.Shows .info "validated batch"
        [("fields", .number batch.entries.length),
          ("passed", .number (results.entries.countP fun result ↦ result.2))]
  | .error e =>
    ∃ before entry after outcomes earlier last, events = earlier ++ last ∧
      batch.entries = before ++ entry :: after ∧
      registry.Logs (Registry.table batch) before outcomes earlier ∧
      entry.2.LogsFailure registry (Registry.table batch) e last

/-- A field that succeeds adds its reports and its result to the log, in front of the others. -/
theorem events_validateFields_cons {name : String} {field : Field} {outcome : Bool}
    (h : field.Gives registry table outcome) (results : Fields Bool) :
    (registry.validateFields table results ((name, field) :: entries)).events.toList =
      (registry.judge table field.value field.rule).events.toList ++
        .validatedField name outcome ::
          (registry.validateFields table (results.insert name outcome) entries).events.toList := by
  simp [validateFields, Field.judge_eq_ok_iff.mpr h]

theorem logs_of_pointwise {added : List (String × Bool)}
    (h : registry.Pointwise table entries added) (results : Fields Bool) :
    registry.Logs table entries added
      (registry.validateFields table results entries).events.toList := by
  induction h generalizing results with
  | nil => exact .nil
  | @cons entry result entries added hfirst _ ih =>
      obtain ⟨name, field⟩ := entry
      obtain ⟨_, outcome⟩ := result
      obtain ⟨rfl, hgives⟩ := hfirst
      rw [events_validateFields_cons hgives]
      exact .cons hgives hgives.narrates (Event.shows_validatedField _ outcome) (ih _)

theorem logs_of_failsFirst {before : List (String × Field)} {entry : String × Field}
    {e : ValidationError} (h : registry.FailsFirst table entries before entry e)
    (results : Fields Bool) :
    ∃ outcomes earlier last,
      (registry.validateFields table results entries).events.toList = earlier ++ last ∧
        registry.Logs table before outcomes earlier ∧
        entry.2.LogsFailure registry table e last := by
  obtain ⟨⟨after, rfl⟩, hbefore, hfails⟩ := h
  induction before generalizing results with
  | nil =>
      refine ⟨[], [], _, ?_, .nil, hfails.logsFailure⟩
      simp [validateFields, Field.judge_eq_error_iff.mpr hfails]
  | cons first before ih =>
      obtain ⟨name, field⟩ := first
      obtain ⟨⟨outcome, hgives⟩, hbefore⟩ := List.forall_mem_cons.mp hbefore
      obtain ⟨outcomes, earlier, last, hevents, hlogs, hfailure⟩ :=
        ih (results.insert name outcome) hbefore
      have hfirst := Event.shows_validatedField name outcome
      refine ⟨(name, outcome) :: outcomes, _, last, ?_,
        .cons hgives hgives.narrates hfirst hlogs, hfailure⟩
      rw [List.cons_append, events_validateFields_cons hgives, hevents, List.append_assoc,
        List.cons_append]

/-- The log tells the whole validation. Field by field in the order of the batch, there is one
report for each identifier in the order of the tokens, whatever groups they stand in and whichever
field their checks look at, and then one for the field; the last is for the batch, with the number
of its fields and of those that passed. If the validation fails, the log has exactly what comes
before the failure. -/
theorem validation_log (registry : Registry) (batch : Batch) :
    registry.LogsBatch batch (registry.validation batch).events.toList
      (registry.validate batch) := by
  have hvalue := registry.validate_eq batch
  cases hvalidate : registry.validate batch with
  | ok results =>
      have hlogs := logs_of_pointwise ((registry.validate_eq_ok_iff batch results).mp hvalidate) ∅
      rw [hvalidate] at hvalue
      refine ⟨_, .validatedBatch batch.size (results.entries.filter (·.2)).length, ?_, hlogs,
        rfl, rfl, ?_⟩
      · simp [validation, ← hvalue]
      · rw [List.countP_eq_length_filter]
        rfl
  | error e =>
      obtain ⟨before, entry, hfirst⟩ := (registry.validate_eq_error_iff batch e).mp hvalidate
      obtain ⟨after, hentries⟩ := hfirst.exists_after
      obtain ⟨outcomes, earlier, last, hevents, hlogs, hfailure⟩ := logs_of_failsFirst hfirst ∅
      rw [hvalidate] at hvalue
      refine ⟨before, entry, after, outcomes, earlier, last, ?_, hentries, hlogs, hfailure⟩
      rw [← hevents]
      simp [validation, ← hvalue]

end Registry

end FieldRules
