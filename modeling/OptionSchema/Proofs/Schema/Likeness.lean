import OptionSchema.Proofs.Entries
import OptionSchema.Proofs.Schema.Levels
import OptionSchema.Schema.Basic
/-!
# Schemas that differ in what is nested in them only

Nested schemas are compared by a relation. Expanding the wildcard keeps the likeness of levels, and
messages name types without what is nested in them.
-/
namespace OptionSchema

/-- The types are the same up to nested schemas, which `R` compares. -/
inductive Ty.SameUpTo (R : Nested → Nested → Prop) : Ty → Ty → Prop where
  | plain {ty : Ty} (h : ty.isPlain = true) : SameUpTo R ty ty
  | custom (validator : Validator) : SameUpTo R (.custom validator) (.custom validator)
  | mapOf {key key' value value' : Ty} (hkey : SameUpTo R key key')
      (hvalue : SameUpTo R value value') : SameUpTo R (.mapOf key value) (.mapOf key' value')
  | union {as bs : List Ty} (h : List.Forall₂ (SameUpTo R) as bs) :
      SameUpTo R (.union as) (.union bs)
  | listOf {item item' : Ty} (h : SameUpTo R item item') : SameUpTo R (.listOf item) (.listOf item')
  | tuple {as bs : List Ty} (h : List.Forall₂ (SameUpTo R) as bs) :
      SameUpTo R (.tuple as) (.tuple bs)
  | keyed {container container' : Ty} {nested nested' : Nested}
      (h : SameUpTo R container container') (hnested : R nested nested') :
      SameUpTo R (.keyed container nested) (.keyed container' nested')

/-- The specifications ask the same of a value that is given, up to nested schemas. -/
structure KeySpec.SameShape (R : Nested → Nested → Prop) (spec other : KeySpec) : Prop where
  ty : spec.ty.SameUpTo R other.ty
  nested : Option.Rel R spec.nested other.nested

structure KeySpec.SameUpTo (R : Nested → Nested → Prop) (spec other : KeySpec) : Prop
    extends spec.SameShape R other where
  required : spec.required = other.required
  default : spec.default = other.default
  deprecated : spec.deprecated = other.deprecated

def Schema.Keywise (Q : KeySpec → KeySpec → Prop) (schema other : Schema) : Prop :=
  List.Forall₂ (fun a b => a.1 = b.1 ∧ Q a.2 b.2) schema.keys other.keys

variable {R S : Nested → Nested → Prop}

namespace Ty

namespace SameUpTo

variable {ty other : Ty}

theorem refl_of_keyed (h : ∀ container nested, .keyed container nested ∈ ty.subterms →
    R nested nested) : ty.SameUpTo R ty := by
  induction ty using parts_induction with
  | step ty ih =>
    have part : ∀ sub ∈ ty.parts, sub.SameUpTo R sub := fun sub hsub =>
      ih sub hsub fun container nested hmem => h container nested (subterms_of_part hsub hmem)
    cases ty with
    | mapOf key value => exact .mapOf (part key (by simp [parts])) (part value (by simp [parts]))
    | custom validator => exact .custom validator
    | union types => exact .union (List.forall₂_same.mpr part)
    | listOf item => exact .listOf (part item (by simp [parts]))
    | tuple types => exact .tuple (List.forall₂_same.mpr part)
    | keyed container nested =>
      exact .keyed (part container (by simp [parts])) (h container nested (self_mem_subterms _))
    | _ => exact .plain rfl

theorem refl (h : ∀ nested, R nested nested) (ty : Ty) : ty.SameUpTo R ty :=
  refl_of_keyed fun _ nested _ => h nested

theorem parts_rel (h : ty.SameUpTo R other) : List.Forall₂ (SameUpTo R) ty.parts other.parts := by
  cases h with
  | plain h => rw [parts_of_isPlain h]; exact .nil
  | custom validator => exact .nil
  | mapOf hkey hvalue => exact .cons hkey (.cons hvalue .nil)
  | union h => exact h
  | listOf h => exact .cons h .nil
  | tuple h => exact h
  | keyed h hnested => exact .cons h .nil

theorem exists_subterm (h : ty.SameUpTo R other) {sub' : Ty} (hsub' : sub' ∈ other.subterms) :
    ∃ sub ∈ ty.subterms, sub.SameUpTo R sub' := by
  induction ty using parts_induction generalizing other with
  | step ty ih =>
    rcases mem_subterms_iff.mp hsub' with rfl | ⟨part', hpart', hsub'⟩
    · exact ⟨ty, self_mem_subterms ty, h⟩
    · obtain ⟨part, hpart, same⟩ := (Rearranged.of_forall₂ h.parts_rel).back hpart'
      obtain ⟨sub, hsub, same⟩ := ih part hpart same hsub'
      exact ⟨sub, subterms_of_part hpart hsub, same⟩

theorem mono (h : ty.SameUpTo R other)
    (himp : ∀ nested nested', R nested nested' → S nested nested') : ty.SameUpTo S other := by
  induction ty using parts_induction generalizing other with
  | step ty ih =>
    cases h with
    | plain h => exact .plain h
    | custom validator => exact .custom validator
    | @mapOf key _ value _ hkey hvalue =>
      exact .mapOf (ih key (by simp [parts]) hkey) (ih value (by simp [parts]) hvalue)
    | union h => exact .union (forall₂_imp_mem h fun ty hty _ _ => ih ty hty)
    | @listOf item _ h => exact .listOf (ih item (by simp [parts]) h)
    | tuple h => exact .tuple (forall₂_imp_mem h fun ty hty _ _ => ih ty hty)
    | @keyed container _ _ _ h hnested =>
      exact .keyed (ih container (by simp [parts]) h) (himp _ _ hnested)

theorem symm (h : ty.SameUpTo R other) :
    other.SameUpTo (fun nested nested' => R nested' nested) ty := by
  induction ty using parts_induction generalizing other with
  | step ty ih =>
    cases h with
    | plain h => exact .plain h
    | custom validator => exact .custom validator
    | @mapOf key _ value _ hkey hvalue =>
      exact .mapOf (ih key (by simp [parts]) hkey) (ih value (by simp [parts]) hvalue)
    | union h => exact .union (forall₂_imp_mem h fun ty hty _ _ => ih ty hty).flip
    | @listOf item _ h => exact .listOf (ih item (by simp [parts]) h)
    | tuple h => exact .tuple (forall₂_imp_mem h fun ty hty _ _ => ih ty hty).flip
    | @keyed container _ _ _ h hnested => exact .keyed (ih container (by simp [parts]) h) hnested

theorem eq_of_isPlain (h : ty.SameUpTo R other) (plain : ty.isPlain = true) : other = ty := by
  cases h <;> first | rfl | cases plain

theorem isContainer_eq (h : ty.SameUpTo R other) : ty.isContainer = other.isContainer := by
  cases h <;> rfl

theorem acceptsKeys_eq (h : ty.SameUpTo R other) : ty.acceptsKeys = other.acceptsKeys := by
  cases h with
  | listOf h => exact h.isContainer_eq
  | @union as bs items =>
    have empty : as.isEmpty = bs.isEmpty := by cases items <;> rfl
    have all : as.all isContainer = bs.all isContainer := by
      clear empty
      induction items with
      | nil => rfl
      | cons head _ ih => rw [List.all_cons, List.all_cons, head.isContainer_eq, ih]
    rw [acceptsKeys, acceptsKeys, empty, all]
  | _ => rfl

theorem expectation_eq (h : ty.SameUpTo R other) : ty.expectation = other.expectation := by
  induction ty using parts_induction generalizing other with
  | step ty ih =>
    cases h with
    | plain | custom | mapOf | union | listOf => rfl
    | @tuple as bs items =>
      change "tuple with " ++ toString as.length ++ " elements" =
        "tuple with " ++ toString bs.length ++ " elements"
      rw [items.length_eq]
    | @keyed container container' _ _ h =>
      have inner : container.expectation = container'.expectation :=
        ih container (by simp [parts]) h
      exact inner

end SameUpTo

end Ty

namespace KeySpec

variable {spec other : KeySpec}

theorem SameShape.symm (h : spec.SameShape R other) :
    other.SameShape (fun nested nested' => R nested' nested) spec :=
  ⟨h.ty.symm, rel_flip h.nested⟩

theorem SameShape.refl (keyed : ∀ container nested, .keyed container nested ∈ spec.ty.subterms →
    R nested nested) (keys : ∀ nested, spec.nested = some nested → R nested nested) :
    spec.SameShape R spec := by
  refine ⟨.refl_of_keyed keyed, ?_⟩
  cases hnested : spec.nested with
  | none => exact .none
  | some nested => exact .some (keys nested hnested)

theorem SameUpTo.refl (h : ∀ nested, R nested nested) (spec : KeySpec) : spec.SameUpTo R spec :=
  ⟨.refl (fun _ nested _ => h nested) fun nested _ => h nested, rfl, rfl, rfl⟩

theorem SameUpTo.mono (h : spec.SameUpTo R other)
    (himp : ∀ nested nested', R nested nested' → S nested nested') : spec.SameUpTo S other :=
  { h with ty := h.ty.mono himp, nested := rel_imp h.nested himp }

end KeySpec

namespace Schema

variable {schema other : Schema} {Q T : KeySpec → KeySpec → Prop}

abbrev SameUpTo (R : Nested → Nested → Prop) (schema other : Schema) : Prop :=
  schema.Keywise (KeySpec.SameUpTo R) other

/-- A specification is like itself where the nested schemas of its level are. -/
theorem sameShape_of_mentions (h : ∀ nested, schema.Mentions nested → R nested nested)
    {own : String} {spec : KeySpec} (hentry : (own, spec) ∈ schema.keys) : spec.SameShape R spec :=
  .refl (fun _ nested hsub => h nested (.type (mem_types hentry hsub)))
    fun nested hnested => h nested (.key hentry hnested)

theorem SameUpTo.refl_of_mentions (h : ∀ nested, schema.Mentions nested → R nested nested) :
    schema.SameUpTo R schema :=
  List.forall₂_same.mpr fun _ hentry => ⟨rfl, sameShape_of_mentions h hentry, rfl, rfl, rfl⟩

theorem SameUpTo.refl (h : ∀ nested, R nested nested) (schema : Schema) :
    schema.SameUpTo R schema := .refl_of_mentions fun nested _ => h nested

namespace Keywise

theorem imp (h : schema.Keywise Q other) (himp : ∀ spec spec', Q spec spec' → T spec spec') :
    schema.Keywise T other :=
  List.Forall₂.imp (fun _ _ hentry => ⟨hentry.1, himp _ _ hentry.2⟩) h

theorem symm (h : schema.Keywise Q other) : other.Keywise (fun spec spec' => Q spec' spec) schema :=
  List.Forall₂.flip (List.Forall₂.imp (fun _ _ hentry => ⟨hentry.1.symm, hentry.2⟩) h)

theorem find? (h : schema.Keywise Q other) (name : String) :
    Option.Rel Q (schema.find? name) (other.find? name) := Entries.lookup_forall₂ h name

theorem isNone_find? (h : schema.Keywise Q other) (name : String) :
    (schema.find? name).isNone = (other.find? name).isNone := by
  rw [← Option.not_isSome, ← Option.not_isSome, isSome_eq_of_rel (h.find? name)]

theorem names_eq (h : schema.Keywise Q other) : schema.names = other.names :=
  Entries.names_eq_of_forall₂ (List.Forall₂.imp (fun _ _ hab => hab.1) h)

theorem undeclared_eq (h : schema.Keywise Q other) (names : List String) :
    schema.undeclared names = other.undeclared names :=
  List.filter_congr fun name _ => h.isNone_find? name

theorem unnamed_eq (h : schema.Keywise Q other) (observed : List String) :
    schema.unnamed observed = other.unnamed observed :=
  List.filter_congr fun name _ => by rw [h.isNone_find? name]

theorem expand (h : schema.Keywise Q other) (observed : List String) :
    (schema.expand observed).Keywise Q (other.expand observed) := by
  have wild : Option.Rel Q schema.wildcard? other.wildcard? := h.find? wildcardName
  rw [Schema.expand, Schema.expand]
  generalize schema.wildcard? = x at wild
  generalize other.wildcard? = y at wild
  cases wild with
  | none => exact h
  | some hspec =>
    refine Entries.ofList_forall₂ (List.rel_append ?_ ?_)
    · refine List.rel_filter (fun a b hab => ?_) h
      simp only [hab.1]
    · rw [h.unnamed_eq observed, List.forall₂_map_left_iff, List.forall₂_map_right_iff]
      exact List.forall₂_same.mpr fun name _ => ⟨rfl, hspec⟩

end Keywise

theorem SameUpTo.mono (h : schema.SameUpTo R other)
    (himp : ∀ nested nested', R nested nested' → S nested nested') : schema.SameUpTo S other :=
  h.imp fun _ _ hspec => hspec.mono himp

end Schema

end OptionSchema
