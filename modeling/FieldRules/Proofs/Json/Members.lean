import FieldRules.Proofs.Fields
import FieldRules.Proofs.Json.RoundTrip

/-!
# Members as they are written

The outermost object of a text has a member at every place where a value ends directly in it. Some
of these members may have the same key: the object that is read has each key once, where it came
first, with the value that came last.
-/

namespace FieldRules.Json

/-- The value is what the array or object becomes, behind these members in the second case. -/
def Open.Completes (added : List (String × Json)) (json : Json) : Open → Prop
  | .array _ => ∃ items, json = .array items
  | .object before _ =>
      ∀ fields : Fields Json, fields.entries = before →
        json = .object (fields.insertAll added).entries

namespace Place

/-! ## Members as they end -/

/-- The member that ends here, if the value here stands directly in the outermost object. -/
def member? : Place → Option (String × Json)
  | ⟨[.object _ key], some value, _⟩ => some (key, value)
  | _ => none

/-- The members of the outermost object that end at a place or behind it, as they are written. -/
def members (place : Place) : List (String × Json) :=
  match _h : place.step? with
  | none => place.member?.toList
  | some next => place.member?.toList ++ next.members
termination_by place.rest.length
decreasing_by exact length_step? (by assumption)

theorem members_of_step? {place next : Place} (h : place.step? = some next) :
    place.members = place.member?.toList ++ next.members := by
  rw [members]
  split
  · next hnone =>
      rw [h] at hnone
      cases hnone
  · next hsome =>
      rw [h] at hsome
      cases hsome
      rfl

theorem members_ended (value : Json) (rest : List Char) : members ⟨[], some value, rest⟩ = [] := by
  rw [members]
  rfl

theorem member?_eq_none {place : Place} (h : place.value = none ∨ 1 < place.stack.length) :
    place.member? = none := by
  unfold member?
  split
  · rcases h with h | h
    · cases h
    · exact absurd h (Nat.lt_irrefl 1)
  · rfl

theorem Leads.members_eq {stack : List Open} {place last : Place} (h : Leads stack place last)
    (hstack : stack ≠ []) : place.members = last.members := by
  induction h with
  | refl => rfl
  | step hinside hstep _ ih =>
      have hlength := List.length_pos_iff.mpr hstack
      have hmember := member?_eq_none (hinside.imp_right fun hdeeper ↦ by omega)
      rw [members_of_step? hstep, hmember, ih]
      rfl

/-! ## The outermost object -/

theorem completes_closed (bottom : Open) (value : Json) (cs : List Char) :
    bottom.Completes (member? ⟨[bottom], some value, cs⟩).toList (bottom.closed value) := by
  cases bottom with
  | array items => exact ⟨_, rfl⟩
  | object before key =>
      rintro fields rfl
      exact congrArg Json.object (setMember_entries fields key value)

theorem completes_of_goesOn {bottom later : Open} {value json : Json}
    {added : List (String × Json)} (hlater : bottom.GoesOn value later)
    (h : later.Completes added json) (cs : List Char) :
    bottom.Completes ((member? ⟨[bottom], some value, cs⟩).toList ++ added) json := by
  cases hlater with
  | array => exact h
  | object =>
      rintro fields rfl
      exact h _ (setMember_entries fields _ value).symm

theorem completes_of_finish {place : Place} {json : Json} (h : place.finish = .ok json)
    {inner : List Open} {bottom : Open} (hstack : place.stack = inner ++ [bottom]) :
    bottom.Completes place.members json := by
  -- The steps above the outermost array or object leave it as it is, and give no member.
  induction place using Place.members.induct generalizing inner bottom with
  | case1 place hnone =>
      rcases step?_or_ended h with ⟨next, hnext⟩ | ⟨value, rest, rfl⟩
      · rw [hnone] at hnext
        cases hnext
      · cases inner <;> cases hstack
  | case2 place next hnext ih =>
      rw [finish_of_step? hnext] at h
      rw [members_of_step? hnext]
      obtain ⟨stack, value, cs⟩ := place
      dsimp only at hstack
      subst hstack
      cases value with
      | none =>
          rw [member?_eq_none (.inl rfl)]
          rcases begin_cases (toOption_eq_some hnext) with
            ⟨value, -, hstack, -⟩ | ⟨opened, -, hstack, -⟩
          · exact ih h hstack
          · exact ih h (show next.stack = (opened :: inner) ++ [bottom] from hstack)
      | some value =>
          cases inner with
          | cons innermost inner =>
              rw [member?_eq_none (.inr (by simp))]
              rcases goOn_cases (toOption_eq_some hnext) with
                ⟨hstack, -⟩ | ⟨later, -, hstack, -⟩
              · exact ih h hstack
              · exact ih h (show next.stack = (later :: inner) ++ [bottom] from hstack)
          | nil =>
              obtain ⟨stack, ended, rest⟩ := next
              rcases goOn_cases (toOption_eq_some hnext) with
                ⟨rfl, rfl⟩ | ⟨later, hlater, hstack, -⟩
              · rw [eq_of_finish_ended h, members_ended, List.append_nil]
                exact completes_closed bottom value cs
              · have hcompletes := ih h (show stack = [] ++ [later] from hstack)
                exact completes_of_goesOn hlater hcompletes cs

end Place

/-- The members of the object that a text consists of, as they are written. -/
def written (text : String) : List (String × Json) :=
  Place.members ⟨[], none, text.toList⟩

/-- The object that is read gives each key the place where it is written first and the value with
which it is written last. -/
theorem eq_ofList_written {text : String} {members : List (String × Json)}
    (h : Json.read text = .ok (.object members)) :
    members = (Fields.ofList (written text)).entries := by
  rcases Place.step?_or_ended h with ⟨next, hnext⟩ | ⟨value, rest, hended⟩
  · have hfinish := (Place.finish_of_step? hnext).symm.trans h
    have hwritten : written text = next.members := Place.members_of_step? hnext
    obtain ⟨stack, value, rest⟩ := next
    rcases begin_cases (Place.toOption_eq_some hnext) with
      ⟨value, hempty, rfl, rfl⟩ | ⟨opened, hopened, rfl, rfl⟩
    · rw [hempty members (Place.eq_of_finish_ended hfinish).symm, hwritten, Place.members_ended]
      rfl
    · have hcompletes := Place.completes_of_finish hfinish
        (show [opened] = [] ++ [opened] from rfl)
      rcases hopened with rfl | ⟨key, rfl⟩
      · obtain ⟨items, hitems⟩ := hcompletes
        cases hitems
      · rw [hwritten]
        exact Json.object.inj (hcompletes ∅ rfl)
  · cases hended

/-! ## Printed objects -/

section

variable {room : Nat} {gap ending : List Char}

theorem members_of_parts {members : List (String × Json)} {parts : List (List Char)}
    (h : List.Forall₂ (ReadsMember room) members parts)
    (hroom : ([] : List Open).length + 1 + room ≤ maxDepth) (hgap : Gap gap) (hending : Gap ending)
    (before : List (String × Json)) (key : String) (value : Json) :
    Place.members ⟨[.object before key], some value,
        parts.flatMap (fun part ↦ ',' :: (gap ++ part)) ++ (ending ++ ['\x7d'])⟩ =
      (key, value) :: members := by
  induction h generalizing before key value with
  | nil =>
      have hgoOn : Place.goOn value [] (ending ++ ['\x7d']) (.object before key) = _ :=
        goOn_brace before key value hending []
      rw [List.flatMap_nil, List.nil_append,
        Place.members_of_step? (Place.step?_of_goOn hgoOn), Place.members_ended]
      rfl
  | @cons member part members parts hmember _ ih =>
      rw [List.flatMap_cons, List.append_assoc, List.cons_append, List.append_assoc]
      obtain ⟨next, hnext, hleads⟩ := goOn_member hroom hgap hmember _
      rw [Place.members_of_step? (Place.step?_of_goOn hnext),
        hleads.members_eq (List.cons_ne_nil _ _), ih]
      rfl

theorem members_laidOut {members : List (String × Json)} {parts : List (List Char)}
    (h : List.Forall₂ (ReadsMember room) members parts)
    (hroom : ([] : List Open).length + 1 + room ≤ maxDepth) (hgap : Gap gap)
    (hending : Gap ending) :
    Place.members ⟨[], none, laidOut gap ending '\x7b' '\x7d' parts⟩ = members := by
  cases h with
  | nil =>
      have hbegin : Place.begin [] ['\x7b', '\x7d'] = .ok ⟨[], some (.object []), []⟩ := rfl
      rw [laidOut, Place.members_of_step? (Place.step?_of_begin hbegin), Place.members_ended]
      rfl
  | @cons member part members parts hmember hmembers =>
      obtain ⟨next, hnext, hleads⟩ := begin_member hroom hgap hmember
        (parts.flatMap (fun part ↦ ',' :: (gap ++ part)) ++ (ending ++ ['\x7d']))
      rw [laidOut, Place.members_of_step? (Place.step?_of_begin hnext),
        hleads.members_eq (List.cons_ne_nil _ _),
        members_of_parts hmembers hroom hgap hending]
      rfl

end

/-- The members of a printed object are written one for one, also if some have the same key. -/
theorem written_print {members : List (String × Json)} (h : ∀ member ∈ members, Fits 126 member.2)
    (onLines : Bool) : written ((Json.object members).print onLines) = members := by
  obtain ⟨gap, ending, parts, hgap, hending, hparts, htext⟩ := exists_laidOut_print h onLines
  rw [written, htext]
  exact members_laidOut hparts (Nat.le_refl _) hgap hending

/-- A printed object is read back with each key once, with the last of its values. -/
theorem read_print_object {members : List (String × Json)}
    (h : ∀ member ∈ members, Fits 126 member.2) (onLines : Bool) :
    Json.read ((Json.object members).print onLines) =
      .ok (.object (Fields.ofList members).entries) := by
  obtain ⟨gap, ending, parts, hgap, hending, hparts, htext⟩ := exists_laidOut_print h onLines
  apply read_of_reads
  rw [htext]
  exact reads_laidOut_object hparts hgap hending

end FieldRules.Json
