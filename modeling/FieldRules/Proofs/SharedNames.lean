import FieldRules.Checks
import FieldRules.Proofs.Registrations

/-!
# Registrations that share a name

Two calls for different names can install something under the same name: one of the names may be a
derived name of the other, and the names that are derived from both can coincide, since they only
keep the capitalized form. Exactly then the later call takes entries of the earlier one over.
-/

namespace FieldRules

/-- The two names differ too little: checks that are registered under them have a name in common. -/
def Clash (a b : String) : Prop :=
  a ∈ [otherName b, notName b, notName (otherName b)] ∨
    b ∈ [otherName a, notName a, notName (otherName a)] ∨
    Text.capitalize a = Text.capitalize b ∨
    Text.capitalize a = "Other" ++ Text.capitalize b ∨
    Text.capitalize b = "Other" ++ Text.capitalize a

instance (a b : String) : Decidable (Clash a b) :=
  inferInstanceAs (Decidable (_ ∨ _))

variable {a b : String}

/-! ## Derived names that coincide -/

theorem otherName_eq_otherName_iff :
    otherName a = otherName b ↔ Text.capitalize a = Text.capitalize b :=
  String.append_right_inj "other"

theorem notName_eq_notName_iff :
    notName a = notName b ↔ Text.capitalize a = Text.capitalize b :=
  String.append_right_inj "not"

theorem notName_otherName_eq_notName_iff :
    notName (otherName a) = notName b ↔ "Other" ++ Text.capitalize a = Text.capitalize b := by
  rw [notName_eq_notName_iff, capitalize_otherName]

theorem notName_otherName_eq_notName_otherName_iff :
    notName (otherName a) = notName (otherName b) ↔ Text.capitalize a = Text.capitalize b := by
  rw [notName_otherName_eq_notName_iff, capitalize_otherName, String.append_right_inj]

/-- The first letter tells a redirection and a negation apart. -/
theorem otherName_ne_notName (a b : String) : otherName a ≠ notName b := by
  intro h
  have hfirst := congrArg (fun name : String ↦ name.toList.head?) h
  simp [otherName, notName, derivedName] at hfirst

theorem exists_name_eq_name_iff :
    (∃ variant another : Variant, variant.name a = another.name b) ↔ Clash a b := by
  constructor
  · rintro ⟨variant, another, h⟩
    cases variant <;> cases another <;> simp only [Variant.name] at h
    case base.base => exact .inr (.inr (.inl (congrArg Text.capitalize h)))
    case base.other | base.not | base.notOther => exact .inl (by simp [h])
    case other.base | not.base | notOther.base => exact .inr (.inl (by simp [h]))
    case other.other => exact .inr (.inr (.inl (otherName_eq_otherName_iff.mp h)))
    case not.not => exact .inr (.inr (.inl (notName_eq_notName_iff.mp h)))
    case notOther.notOther =>
      exact .inr (.inr (.inl (notName_otherName_eq_notName_otherName_iff.mp h)))
    case not.notOther =>
      exact .inr (.inr (.inr (.inl (notName_otherName_eq_notName_iff.mp h.symm).symm)))
    case notOther.not =>
      exact .inr (.inr (.inr (.inr (notName_otherName_eq_notName_iff.mp h).symm)))
    case other.not | other.notOther => exact absurd h (otherName_ne_notName _ _)
    case not.other | notOther.other => exact absurd h.symm (otherName_ne_notName _ _)
  · simp only [Clash, List.mem_cons, List.not_mem_nil, or_false]
    rintro ((rfl | rfl | rfl) | (rfl | rfl | rfl) | h | h | h)
    · exact ⟨.base, .other, rfl⟩
    · exact ⟨.base, .not, rfl⟩
    · exact ⟨.base, .notOther, rfl⟩
    · exact ⟨.other, .base, rfl⟩
    · exact ⟨.not, .base, rfl⟩
    · exact ⟨.notOther, .base, rfl⟩
    · exact ⟨.not, .not, notName_eq_notName_iff.mpr h⟩
    · exact ⟨.not, .notOther, (notName_otherName_eq_notName_iff.mpr h.symm).symm⟩
    · exact ⟨.notOther, .not, notName_otherName_eq_notName_iff.mpr h.symm⟩

namespace Registry

/-- The four names of a call for `name` stand for the variants of its check. -/
def Holds (registry : Registry) (name : String) (check : Check) : Prop :=
  ∀ variant : Variant, registry.get? (variant.name name) = some (variant.check check)

theorem holds_register (registry : Registry) (name : String) (check : Check) :
    (registry.register name check).Holds name check :=
  registry.get?_register_name name check

/-- Two names share one of their four names exactly if they clash. After a call for `a`, one for a
name that does not clash with it leaves its four entries alone, and one for a name that does takes at
least one of them over; no call changes an entry beyond its own four names. -/
theorem register_disturbs_iff_clash (a b : String) :
    ((∃ variant another : Variant, variant.name a = another.name b) ↔ Clash a b) ∧
      ∀ (registry : Registry) (own check : Check), registry.Holds a own →
        (¬ Clash a b → (registry.register b check).Holds a own) ∧
        (Clash a b → ∃ variant another : Variant, variant.name a = another.name b ∧
          (registry.register b check).get? (variant.name a) = some (another.check check)) ∧
        ∀ key, (∀ variant : Variant, variant.name b ≠ key) →
          (registry.register b check).get? key = registry.get? key := by
  refine ⟨exists_name_eq_name_iff, fun registry own check h ↦ ⟨fun hclash variant ↦ ?_,
    fun hclash ↦ ?_, fun key hkey ↦ registry.get?_register_of_ne check hkey⟩⟩
  · have hapart : ∀ another : Variant, another.name b ≠ variant.name a :=
      fun another heq ↦ hclash (exists_name_eq_name_iff.mp ⟨variant, another, heq.symm⟩)
    rw [registry.get?_register_of_ne check hapart]
    exact h variant
  · obtain ⟨variant, another, heq⟩ := exists_name_eq_name_iff.mpr hclash
    refine ⟨variant, another, heq, ?_⟩
    rw [heq]
    exact registry.get?_register_name b check another

/-- `ß` becomes two letters in upper case, so this call takes an entry of a check over whose name
has another length. -/
theorem register_disturbs_iff_clash_expanded :
    (empty.register "ßa" Check.required).Holds "ßa" Check.required ∧ Clash "ßa" "SSa" ∧
      ∃ variant another : Variant, variant.name "ßa" = another.name "SSa" ∧
        ((empty.register "ßa" Check.required).register "SSa" Check.email).get?
          (variant.name "ßa") = some (another.check Check.email) := by
  have hholds := empty.holds_register "ßa" Check.required
  have hclash : Clash "ßa" "SSa" := by decide
  obtain ⟨-, hregistry⟩ := register_disturbs_iff_clash "ßa" "SSa"
  obtain ⟨-, hreplaced, -⟩ := hregistry _ _ Check.email hholds
  exact ⟨hholds, hclash, hreplaced hclash⟩

end Registry

end FieldRules
