import FieldRules.Json.Reader

/-!
# From place to place

Reading goes on step by step. What a step does depends only on what is open, on the value that has
just ended and on the characters that are left, so the steps through a part of a text can be told
apart from those before and behind it: they never end a value in what was open before.
-/

namespace FieldRules.Json

/-! ## What a step does to the stack -/

/-- What an array or object is when a value ends it. -/
def Open.closed (value : Json) : Open → Json
  | .array items => .array (value :: items).reverse
  | .object members key => .object (setMember key value members)

/-- The array or object goes on behind the value. -/
inductive Open.GoesOn (value : Json) : Open → Open → Prop
  | array {items} : GoesOn value (.array items) (.array (value :: items))
  | object {members key next} :
      GoesOn value (.object members key) (.object (setMember key value members) next)

theorem exists_of_map_eq_ok {ε α β : Type} {x : Except ε α} {f : α → β} {b : β}
    (h : x.map f = .ok b) : ∃ a, x = .ok a ∧ f a = b := by
  cases x with
  | error e => cases h
  | ok a => exact ⟨a, rfl, Except.ok.inj h⟩

theorem exists_of_bind_eq_ok {α β : Type} {x : Except Fault α} {f : α → Except Fault β} {b : β}
    (h : x >>= f = .ok b) : ∃ a, x = .ok a ∧ f a = .ok b := by
  cases x with
  | error e => cases h
  | ok a => exact ⟨a, rfl, h⟩

theorem readWord_value {value found : Json} {word cs rest : List Char}
    (h : readWord value word cs = .ok (found, rest)) : found = value := by
  induction word generalizing cs with
  | nil =>
      cases h
      rfl
  | cons w word ih =>
      cases cs with
      | nil => cases h
      | cons c cs =>
          rw [readWord] at h
          split at h
          · exact ih h
          · cases h

theorem ofLiteral?_ne_object {l : Literal} {number : Json} (h : ofLiteral? l = some number)
    (members : List (String × Json)) : number ≠ .object members := by
  rintro rfl
  simp only [ofLiteral?] at h
  split at h
  · cases h
  · split at h
    · cases h
    · obtain ⟨x, -, hx⟩ := Option.map_eq_some_iff.mp h
      cases hx

theorem readUnsigned_ne_object {negative : Bool} {cs rest : List Char} {number : Json}
    (h : readUnsigned negative cs = .ok (number, rest)) (members : List (String × Json)) :
    number ≠ .object members := by
  unfold readUnsigned at h
  obtain ⟨whole, -, h⟩ := exists_of_bind_eq_ok h
  dsimp only at h
  split at h
  · cases h
  · obtain ⟨fraction, -, h⟩ := exists_of_bind_eq_ok h
    obtain ⟨exponent, -, h⟩ := exists_of_bind_eq_ok h
    split at h
    · next hliteral =>
        cases h
        exact ofLiteral?_ne_object hliteral members
    · cases h

theorem readScalar_ne_object {cs rest : List Char} {value : Json}
    (h : readScalar cs = .ok (value, rest)) (members : List (String × Json)) :
    value ≠ .object members := by
  rintro rfl
  unfold readScalar at h
  split at h
  · cases h
  · cases readWord_value h
  · cases readWord_value h
  · cases readWord_value h
  · obtain ⟨found, -, hfound⟩ := exists_of_map_eq_ok h
    cases hfound
  · split at h
    · unfold readNumber at h
      split at h
      · exact readUnsigned_ne_object h members rfl
      · exact readUnsigned_ne_object h members rfl
    · cases h

theorem begin_cases {stack : List Open} {cs : List Char} {next : Place}
    (h : Place.begin stack cs = .ok next) :
    (∃ value, (∀ members, value = .object members → members = []) ∧
        next.stack = stack ∧ next.value = some value) ∨
      ∃ opened, (opened = .array [] ∨ ∃ key, opened = .object [] key) ∧
        next.stack = opened :: stack ∧ next.value = none := by
  unfold Place.begin at h
  split at h
  · split at h
    · cases h
    · split at h
      · cases h
        exact .inl ⟨.array [], by simp, rfl, rfl⟩
      · cases h
      · cases h
        exact .inr ⟨.array [], .inl rfl, rfl, rfl⟩
  · split at h
    · cases h
    · split at h
      · cases h
        exact .inl ⟨.object [], by simp, rfl, rfl⟩
      · obtain ⟨found, -, rfl⟩ := exists_of_map_eq_ok h
        exact .inr ⟨.object [] found.1, .inr ⟨_, rfl⟩, rfl, rfl⟩
  · obtain ⟨found, hscalar, rfl⟩ := exists_of_map_eq_ok h
    refine .inl ⟨found.1, ?_, rfl, rfl⟩
    intro members hmembers
    exact absurd hmembers (readScalar_ne_object hscalar members)

theorem goOn_cases {value : Json} {outer : List Open} {cs : List Char} {innermost : Open}
    {next : Place} (h : Place.goOn value outer cs innermost = .ok next) :
    (next.stack = outer ∧ next.value = some (innermost.closed value)) ∨
      ∃ later, innermost.GoesOn value later ∧ next.stack = later :: outer ∧ next.value = none := by
  cases innermost with
  | array items =>
      rw [Place.goOn] at h
      split at h
      · cases h
        exact .inl ⟨rfl, rfl⟩
      · split at h
        · cases h
        · cases h
        · cases h
          exact .inr ⟨_, .array, rfl, rfl⟩
      · cases h
  | object members key =>
      rw [Place.goOn] at h
      split at h
      · cases h
        exact .inl ⟨rfl, rfl⟩
      · obtain ⟨found, -, rfl⟩ := exists_of_map_eq_ok h
        exact .inr ⟨_, .object, rfl, rfl⟩
      · cases h

namespace Place

/-! ## One step after the other -/

/-- The next place, unless the text ends or goes wrong here. -/
def step? : Place → Option Place
  | ⟨stack, none, cs⟩ => (Place.begin stack cs).toOption
  | ⟨innermost :: outer, some value, cs⟩ => (goOn value outer cs innermost).toOption
  | ⟨[], some _, _⟩ => none

theorem toOption_eq_some {x : Except Fault Place} {next : Place} (h : x.toOption = some next) :
    x = .ok next := by
  cases x with
  | error e => cases h
  | ok found => exact congrArg Except.ok (Option.some.inj h)

theorem step?_of_begin {stack : List Open} {cs : List Char} {next : Place}
    (h : Place.begin stack cs = .ok next) : step? ⟨stack, none, cs⟩ = some next :=
  congrArg Except.toOption h

theorem step?_of_goOn {innermost : Open} {outer : List Open} {value : Json} {cs : List Char}
    {next : Place} (h : goOn value outer cs innermost = .ok next) :
    step? ⟨innermost :: outer, some value, cs⟩ = some next :=
  congrArg Except.toOption h

theorem length_step? {place next : Place} (h : place.step? = some next) :
    next.rest.length < place.rest.length := by
  unfold step? at h
  split at h
  · exact length_begin (toOption_eq_some h)
  · exact length_goOn (toOption_eq_some h)
  · cases h

theorem finish_none (stack : List Open) (cs : List Char) :
    finish ⟨stack, none, cs⟩ = (Place.begin stack cs).bind finish := by
  rw [finish]
  dsimp only
  split <;> next h => rw [h]; rfl

theorem finish_some (innermost : Open) (outer : List Open) (value : Json) (cs : List Char) :
    finish ⟨innermost :: outer, some value, cs⟩ = (goOn value outer cs innermost).bind finish := by
  rw [finish]
  dsimp only
  split <;> next h => rw [h]; rfl

theorem finish_of_step? {place next : Place} (h : place.step? = some next) :
    place.finish = next.finish := by
  unfold step? at h
  split at h
  · rw [finish_none, toOption_eq_some h]
    rfl
  · rw [finish_some, toOption_eq_some h]
    rfl
  · cases h

theorem eq_of_finish_ended {value json : Json} {rest : List Char}
    (h : finish ⟨[], some value, rest⟩ = .ok json) : json = value := by
  rw [finish] at h
  dsimp only at h
  split at h
  · cases h
    rfl
  · cases h

theorem step?_or_ended {place : Place} {json : Json} (h : place.finish = .ok json) :
    (∃ next, place.step? = some next) ∨ ∃ value rest, place = ⟨[], some value, rest⟩ := by
  obtain ⟨stack, value, cs⟩ := place
  cases value with
  | none =>
      rw [finish_none] at h
      cases hbegin : Place.begin stack cs with
      | error e =>
          rw [hbegin] at h
          cases h
      | ok next => exact .inl ⟨next, step?_of_begin hbegin⟩
  | some value =>
      cases stack with
      | nil => exact .inr ⟨value, cs, rfl⟩
      | cons innermost outer =>
          rw [finish_some] at h
          cases hgoOn : goOn value outer cs innermost with
          | error e =>
              rw [hgoOn] at h
              cases h
          | ok next => exact .inl ⟨next, step?_of_goOn hgoOn⟩

/-- Steps lead from the one place to the other, and between the two no value ends directly in what
is open in `stack`. -/
inductive Leads (stack : List Open) : Place → Place → Prop
  | refl {place} : Leads stack place place
  | step {place next last} (hinside : place.value = none ∨ stack.length < place.stack.length)
      (hstep : place.step? = some next) (h : Leads stack next last) : Leads stack place last

section

variable {stack outer : List Open} {opened : Open} {place middle last : Place} {cs : List Char}

theorem Leads.trans (h : Leads stack place middle) (hlast : Leads stack middle last) :
    Leads stack place last := by
  induction h with
  | refl => exact hlast
  | step hinside hstep _ ih => exact .step hinside hstep (ih hlast)

theorem Leads.outside (h : Leads (opened :: stack) place last) : Leads stack place last := by
  induction h with
  | refl => exact .refl
  | step hinside hstep _ ih =>
      exact .step (hinside.imp_right Nat.lt_of_succ_lt) hstep ih

theorem Leads.finish_eq (h : Leads stack place last) : place.finish = last.finish := by
  induction h with
  | refl => rfl
  | step _ hstep _ ih => rw [finish_of_step? hstep, ih]

theorem Leads.of_begin (h : Place.begin stack cs = .ok middle) (hlast : Leads stack middle last) :
    Leads stack ⟨stack, none, cs⟩ last :=
  .step (.inl rfl) (step?_of_begin h) hlast

theorem Leads.of_goOn {value : Json} (h : goOn value outer cs opened = .ok middle)
    (hlast : Leads outer middle last) : Leads outer ⟨opened :: outer, some value, cs⟩ last :=
  .step (.inr (Nat.lt_succ_self _)) (step?_of_goOn h) hlast

end

end Place

end FieldRules.Json
