import OptionSchema.Proofs.Schema.Likeness
/-!
# Schemas without their defaults

Defaults are deleted at every level that stands in place. How deep such levels nest is counted
likewise, so that a limit on the depth can be compared with it.
-/
namespace OptionSchema

mutual

def Ty.withoutDefaults : Ty → Ty
  | .mapOf key value => .mapOf (Ty.withoutDefaults key) (Ty.withoutDefaults value)
  | .union alternatives => .union (Ty.allWithoutDefaults alternatives)
  | .listOf item => .listOf (Ty.withoutDefaults item)
  | .tuple items => .tuple (Ty.allWithoutDefaults items)
  | .keyed container nested => .keyed (Ty.withoutDefaults container) (Nested.withoutDefaults nested)
  | ty => ty
termination_by structural ty => ty

def Ty.allWithoutDefaults : List Ty → List Ty
  | [] => []
  | ty :: types => Ty.withoutDefaults ty :: Ty.allWithoutDefaults types
termination_by structural types => types

def Nested.withoutDefaults : Nested → Nested
  | .inline schema => .inline (Schema.withoutDefaults schema)
  | nested => nested
termination_by structural nested => nested

def Nested.optionWithoutDefaults : Option Nested → Option Nested
  | some nested => some (Nested.withoutDefaults nested)
  | none => none
termination_by structural nested => nested

def KeySpec.withoutDefaults : KeySpec → KeySpec
  | ⟨ty, required, _, nested, deprecated, doc, subsection, typeDoc⟩ =>
    ⟨Ty.withoutDefaults ty, required, none, Nested.optionWithoutDefaults nested, deprecated, doc,
      subsection, typeDoc⟩
termination_by structural spec => spec

def Schema.withoutDefaults : Schema → Schema
  | ⟨keys⟩ => ⟨Schema.keysWithoutDefaults keys⟩
termination_by structural schema => schema

def Schema.keysWithoutDefaults : List (String × KeySpec) → List (String × KeySpec)
  | [] => []
  | (name, spec) :: keys => (name, KeySpec.withoutDefaults spec) :: Schema.keysWithoutDefaults keys
termination_by structural keys => keys

end

mutual

def Ty.nesting : Ty → Nat
  | .mapOf key value => max (Ty.nesting key) (Ty.nesting value)
  | .union alternatives => Ty.nestingOfAll alternatives
  | .listOf item => Ty.nesting item
  | .tuple items => Ty.nestingOfAll items
  | .keyed container nested => max (Ty.nesting container) (Nested.nesting nested)
  | _ => 0
termination_by structural ty => ty

def Ty.nestingOfAll : List Ty → Nat
  | [] => 0
  | ty :: types => max (Ty.nesting ty) (Ty.nestingOfAll types)
termination_by structural types => types

def Nested.nesting : Nested → Nat
  | .inline schema => Schema.nesting schema + 1
  | _ => 0
termination_by structural nested => nested

def Nested.nestingOfOption : Option Nested → Nat
  | some nested => Nested.nesting nested
  | none => 0
termination_by structural nested => nested

def KeySpec.nesting : KeySpec → Nat
  | ⟨ty, _, _, nested, _, _, _, _⟩ => max (Ty.nesting ty) (Nested.nestingOfOption nested)
termination_by structural spec => spec

def Schema.nesting : Schema → Nat
  | ⟨keys⟩ => Schema.nestingOfKeys keys
termination_by structural schema => schema

def Schema.nestingOfKeys : List (String × KeySpec) → Nat
  | [] => 0
  | (_, spec) :: keys => max (KeySpec.nesting spec) (Schema.nestingOfKeys keys)
termination_by structural keys => keys

end

section Deletion

variable {R : Nested → Nested → Prop}

theorem Ty.forall₂_allWithoutDefaults {P : Ty → Ty → Prop} {types : List Ty}
    (h : ∀ ty ∈ types, P ty ty.withoutDefaults) :
    List.Forall₂ P types (Ty.allWithoutDefaults types) := by
  induction types with
  | nil => exact .nil
  | cons ty types ih =>
    rw [List.forall_mem_cons] at h
    exact .cons h.1 (ih h.2)

theorem Ty.sameUpTo_withoutDefaults {ty : Ty}
    (h : ∀ container nested, .keyed container nested ∈ ty.subterms →
      R nested nested.withoutDefaults) : ty.SameUpTo R ty.withoutDefaults := by
  induction ty using parts_induction with
  | step ty ih =>
    have part : ∀ sub ∈ ty.parts, sub.SameUpTo R sub.withoutDefaults := fun sub hsub =>
      ih sub hsub fun container nested hmem => h container nested (subterms_of_part hsub hmem)
    cases ty with
    | mapOf key value => exact .mapOf (part key (by simp [parts])) (part value (by simp [parts]))
    | custom validator => exact .custom validator
    | union types => exact .union (forall₂_allWithoutDefaults part)
    | listOf item => exact .listOf (part item (by simp [parts]))
    | tuple types => exact .tuple (forall₂_allWithoutDefaults part)
    | keyed container nested =>
      exact .keyed (part container (by simp [parts])) (h container nested (self_mem_subterms _))
    | _ => exact .plain rfl

theorem KeySpec.sameShape_withoutDefaults {spec : KeySpec}
    (types : ∀ container nested, .keyed container nested ∈ spec.ty.subterms →
      R nested nested.withoutDefaults)
    (keys : ∀ nested, spec.nested = some nested → R nested nested.withoutDefaults) :
    spec.SameShape R spec.withoutDefaults := by
  obtain ⟨ty, required, default, nested, deprecated, doc, subsection, typeDoc⟩ := spec
  refine ⟨Ty.sameUpTo_withoutDefaults types, ?_⟩
  cases nested with
  | none => exact .none
  | some nested => exact .some (keys nested rfl)

theorem KeySpec.required_withoutDefaults (spec : KeySpec) :
    spec.withoutDefaults.required = spec.required := by
  cases spec; rfl

theorem KeySpec.default_withoutDefaults (spec : KeySpec) :
    spec.withoutDefaults.default = none := by
  cases spec; rfl

theorem Schema.keywise_withoutDefaults {Q : KeySpec → KeySpec → Prop} {schema : Schema}
    (h : ∀ name spec, (name, spec) ∈ schema.keys → Q spec spec.withoutDefaults) :
    schema.Keywise Q schema.withoutDefaults := by
  obtain ⟨keys⟩ := schema
  change List.Forall₂ _ keys (keysWithoutDefaults keys)
  induction keys with
  | nil => exact .nil
  | cons entry keys ih =>
    refine .cons ⟨rfl, h entry.1 entry.2 List.mem_cons_self⟩ (ih fun name spec hmem => ?_)
    exact h name spec (List.mem_cons_of_mem entry hmem)

end Deletion

section Nesting

theorem Ty.nesting_le_nestingOfAll {ty : Ty} {types : List Ty} (h : ty ∈ types) :
    ty.nesting ≤ Ty.nestingOfAll types := by
  induction types with
  | nil => cases h
  | cons head types ih =>
    rw [Ty.nestingOfAll]
    rcases List.mem_cons.mp h with rfl | h
    · omega
    · have tail := ih h
      omega

theorem Ty.nesting_le_of_part {ty part : Ty} (h : part ∈ ty.parts) : part.nesting ≤ ty.nesting := by
  cases ty with
  | mapOf key value =>
    simp only [parts, List.mem_cons, List.not_mem_nil, or_false] at h
    rcases h with rfl | rfl
    · exact Nat.le_max_left _ _
    · exact Nat.le_max_right _ _
  | union types => exact nesting_le_nestingOfAll h
  | listOf item => exact (List.mem_singleton.mp h).symm ▸ Nat.le_refl _
  | tuple types => exact nesting_le_nestingOfAll h
  | keyed container nested =>
    obtain rfl := List.mem_singleton.mp h
    exact Nat.le_max_left _ _
  | _ => cases h

theorem Ty.nesting_le_of_subterm {ty sub : Ty} (h : sub ∈ ty.subterms) :
    sub.nesting ≤ ty.nesting := by
  induction ty using parts_induction with
  | step ty ih =>
    rcases mem_subterms_iff.mp h with rfl | ⟨part, hpart, h⟩
    · exact Nat.le_refl _
    · exact Nat.le_trans (ih part hpart h) (nesting_le_of_part hpart)

theorem KeySpec.ty_nesting_le (spec : KeySpec) : spec.ty.nesting ≤ spec.nesting := by
  cases spec
  exact Nat.le_max_left _ _

theorem KeySpec.nested_nesting_le {spec : KeySpec} {nested : Nested}
    (h : spec.nested = some nested) : nested.nesting ≤ spec.nesting := by
  obtain ⟨ty, required, default, own, deprecated, doc, subsection, typeDoc⟩ := spec
  obtain rfl : own = some nested := h
  exact Nat.le_max_right _ _

namespace Schema

theorem nesting_le_of_mem {schema : Schema} {name : String} {spec : KeySpec}
    (h : (name, spec) ∈ schema.keys) : spec.nesting ≤ schema.nesting := by
  obtain ⟨keys⟩ := schema
  change spec.nesting ≤ nestingOfKeys keys
  induction keys with
  | nil => cases h
  | cons entry keys ih =>
    obtain ⟨other, held⟩ := entry
    rw [nestingOfKeys]
    rcases List.mem_cons.mp h with same | h
    · obtain ⟨rfl, rfl⟩ := Prod.mk.inj same
      omega
    · have tail := ih h
      omega

/-- A nested schema in place is one level deeper. -/
theorem nesting_lt_of_mentions {schema next : Schema} (h : schema.Mentions (.inline next)) :
    next.nesting < schema.nesting := by
  suffices Nested.nesting (.inline next) ≤ schema.nesting from this
  cases h with
  | key hentry hnested =>
    exact Nat.le_trans (KeySpec.nested_nesting_le hnested) (nesting_le_of_mem hentry)
  | type htype =>
    obtain ⟨⟨name, spec⟩, hentry, hsub⟩ := List.mem_flatMap.mp htype
    calc Nested.nesting (.inline next)
        ≤ (Ty.keyed _ (.inline next)).nesting := Nat.le_max_right _ _
      _ ≤ spec.ty.nesting := Ty.nesting_le_of_subterm hsub
      _ ≤ spec.nesting := spec.ty_nesting_le
      _ ≤ schema.nesting := nesting_le_of_mem hentry

end Schema

end Nesting

end OptionSchema
