import OptionSchema.Proofs.Schema.Levels
import OptionSchema.Proofs.Value.Equality
import OptionSchema.Schema.Equality
/-!
# Equality of schemas, seen level by level

Equal schemas have the same keys in some order, with specifications that differ in the order of
mappings inside only. Nested schemas are compared by a relation, so that one level does not depend
on those below it.
-/
namespace OptionSchema

namespace Value

theorem list_beq_iff {as bs : List Value} :
    (as == bs) = true ↔ List.Forall₂ (fun a b => (a == b) = true) as bs := by
  induction as generalizing bs with
  | nil => cases bs <;> simp
  | cons a as ih => cases bs <;> simp [ih]

theorem rel_of_option_beq {a b : Option Value} (h : (a == b) = true) :
    Option.Rel (fun x y => (x == y) = true) a b := by
  cases a <;> cases b <;> first
    | exact absurd h Bool.false_ne_true
    | exact .none
    | exact .some h

end Value

/-- The types differ in the order of mappings inside only; `R` compares nested schemas. -/
inductive Ty.Matches (R : Nested → Nested → Prop) : Ty → Ty → Prop where
  | plain {ty : Ty} (h : ty.isPlain = true) (values : ∀ allowed, ty ≠ .choice (.values allowed)) :
      Matches R ty ty
  | values {as bs : List Value} (h : List.Forall₂ (fun a b => (a == b) = true) as bs) :
      Matches R (.choice (.values as)) (.choice (.values bs))
  | mapOf {key key' value value' : Ty} (hkey : Matches R key key')
      (hvalue : Matches R value value') :
      Matches R (.mapOf key value) (.mapOf key' value')
  | custom {validator validator' : Validator} (h : (validator == validator') = true) :
      Matches R (.custom validator) (.custom validator')
  | union {as bs : List Ty} (h : List.Forall₂ (Matches R) as bs) : Matches R (.union as) (.union bs)
  | listOf {item item' : Ty} (h : Matches R item item') : Matches R (.listOf item) (.listOf item')
  | tuple {as bs : List Ty} (h : List.Forall₂ (Matches R) as bs) : Matches R (.tuple as) (.tuple bs)
  | keyed {container container' : Ty} {nested nested' : Nested} (h : Matches R container container')
      (hnested : R nested nested') : Matches R (.keyed container nested) (.keyed container' nested')

/-- The specifications differ in the order of mappings inside and in their documentation only. -/
structure KeySpec.Matches (R : Nested → Nested → Prop) (spec other : KeySpec) : Prop where
  ty : spec.ty.Matches R other.ty
  required : spec.required = other.required
  default : Option.Rel (fun a b => (a == b) = true) spec.default other.default
  nested : Option.Rel R spec.nested other.nested

def Schema.Matches (R : Nested → Nested → Prop) (schema other : Schema) : Prop :=
  Rearranged (fun a b => a.1 = b.1 ∧ a.2.Matches R b.2) schema.keys other.keys

def Nested.Alike (a b : Nested) : Prop := a = b ∨ a.beq b = true

def Schema.Alike (a b : Schema) : Prop := a = b ∨ a.beq b = true

namespace Ty

theorem beqAll_iff {as bs : List Ty} :
    beqAll as bs = true ↔ List.Forall₂ (fun a b => a.beq b = true) as bs := by
  induction as generalizing bs with
  | nil => cases bs <;> simp [beqAll]
  | cons a as ih => cases bs <;> simp [beqAll, ih]

theorem matches_of_beq {ty other : Ty} (h : ty.beq other = true) :
    ty.Matches Nested.Alike other := by
  induction ty using parts_induction generalizing other with
  | step ty ih =>
    have all : ∀ {as bs : List Ty}, (∀ a ∈ as, a ∈ ty.parts) → beqAll as bs = true →
        List.Forall₂ (Matches Nested.Alike) as bs := fun hparts h =>
      forall₂_imp_mem (beqAll_iff.mp h) fun a ha b _ hab => ih a (hparts a ha) hab
    cases ty with
    | mapOf key value => cases other with
      | mapOf key' value' =>
        obtain ⟨hkey, hvalue⟩ := Bool.and_eq_true_iff.mp h
        exact .mapOf (ih key (by simp [parts]) hkey) (ih value (by simp [parts]) hvalue)
      | _ => exact absurd h Bool.false_ne_true
    | choice choices => cases other with
      | choice choices' =>
        cases choices <;> cases choices' <;> first | exact absurd h Bool.false_ne_true | skip
        · exact .values (Value.list_beq_iff.mp h)
        · obtain ⟨hfirst, hlast⟩ := Bool.and_eq_true_iff.mp h
          rw [beq_iff_eq.mp hfirst, beq_iff_eq.mp hlast]
          exact .plain rfl (by simp)
      | _ => exact absurd h Bool.false_ne_true
    | custom validator => cases other with
      | custom validator' => exact .custom h
      | _ => exact absurd h Bool.false_ne_true
    | union types => cases other with
      | union types' => exact .union (all (fun _ ha => ha) h)
      | _ => exact absurd h Bool.false_ne_true
    | listOf item => cases other with
      | listOf item' => exact .listOf (ih item (by simp [parts]) h)
      | _ => exact absurd h Bool.false_ne_true
    | tuple types => cases other with
      | tuple types' => exact .tuple (all (fun _ ha => ha) h)
      | _ => exact absurd h Bool.false_ne_true
    | keyed container nested => cases other with
      | keyed container' nested' =>
        obtain ⟨hcontainer, hnested⟩ := Bool.and_eq_true_iff.mp h
        exact .keyed (ih container (by simp [parts]) hcontainer) (Or.inr hnested)
      | _ => exact absurd h Bool.false_ne_true
    | func arity => cases other with
      | func arity' => rw [beq_iff_eq.mp h]; exact .plain rfl (by simp)
      | _ => exact absurd h Bool.false_ne_true
    | struct tag => cases other with
      | struct tag' => rw [beq_iff_eq.mp h]; exact .plain rfl (by simp)
      | _ => exact absurd h Bool.false_ne_true
    | _ => cases other <;> first | exact absurd h Bool.false_ne_true | exact .plain rfl (by simp)

end Ty

theorem Nested.alike_of_beqOption {a b : Option Nested} (h : beqOption a b = true) :
    Option.Rel Nested.Alike a b := by
  cases a <;> cases b <;> first
    | exact absurd h Bool.false_ne_true
    | exact .none
    | exact .some (Or.inr h)

theorem KeySpec.matches_of_beq {spec other : KeySpec} (h : spec.beq other = true) :
    spec.Matches Nested.Alike other := by
  obtain ⟨ty, required, default, nested, deprecated, doc, subsection, typeDoc⟩ := spec
  simp only [KeySpec.beq, Bool.and_eq_true, beq_iff_eq] at h
  obtain ⟨⟨⟨⟨⟨⟨⟨hty, hrequired⟩, hdefault⟩, hnested⟩, -⟩, -⟩, -⟩, -⟩ := h
  exact ⟨Ty.matches_of_beq hty, hrequired, Value.rel_of_option_beq hdefault,
    Nested.alike_of_beqOption hnested⟩

namespace Schema

theorem keysWithin_iff {keys others : List (String × KeySpec)} :
    keysWithin keys others = true ↔ ∀ entry ∈ keys, ∃ other, others.lookup entry.1 = some other ∧
      entry.2.beq other = true := by
  induction keys with
  | nil => simp [keysWithin]
  | cons head rest ih =>
    obtain ⟨name, spec⟩ := head
    rw [keysWithin, Bool.and_eq_true, ih, List.forall_mem_cons]
    refine and_congr ?_ Iff.rfl
    cases others.lookup name <;> simp

theorem matches_of_beq {schema other : Schema} (once : schema.names.Nodup)
    (h : schema.beq other = true) : schema.Matches Nested.Alike other := by
  obtain ⟨keys⟩ := schema
  obtain ⟨size, within⟩ := Bool.and_eq_true_iff.mp h
  refine Rearranged.of_partners ?_ ?_ (beq_iff_eq.mp size)
  · intro entry hentry
    obtain ⟨spec, hlookup, heq⟩ := keysWithin_iff.mp within entry hentry
    exact ⟨(entry.1, spec), Entries.mem_of_lookup hlookup, rfl, KeySpec.matches_of_beq heq⟩
  · refine (List.pairwise_map.mp once).imp ?_
    intro entry entry' hne partner _ hpartner hpartner'
    exact hne (hpartner.1.trans hpartner'.1.symm)

end Schema

theorem Ty.matches_self {ty : Ty} (proper : ∀ sub ∈ ty.subterms, sub.IsProper) :
    ty.Matches Nested.Alike ty := by
  induction ty using parts_induction with
  | step ty ih =>
    have part : ∀ sub ∈ ty.parts, sub.Matches Nested.Alike sub := fun sub hsub =>
      ih sub hsub fun inner hinner => proper inner (subterms_of_part hsub hinner)
    have here := proper ty (self_mem_subterms ty)
    cases ty with
    | mapOf key value => exact .mapOf (part key (by simp [parts])) (part value (by simp [parts]))
    | choice choices =>
      cases choices with
      | values allowed =>
        exact .values (List.forall₂_same.mpr fun value hvalue => (here value hvalue).beq_refl)
      | range first last => exact .plain rfl (by simp)
    | custom validator =>
      have args : (validator.args == validator.args) = true :=
        Value.list_beq_iff.mpr (List.forall₂_same.mpr fun arg harg => (here.1 arg harg).beq_refl)
      exact .custom (by simp [BEq.beq, Validator.beq] at args ⊢; exact args)
    | union types => exact .union (List.forall₂_same.mpr part)
    | listOf item => exact .listOf (part item (by simp [parts]))
    | tuple types => exact .tuple (List.forall₂_same.mpr part)
    | keyed container nested => exact .keyed (part container (by simp [parts])) (Or.inl rfl)
    | _ => exact .plain rfl (by simp)

theorem Schema.matches_self {schema : Schema} (proper : schema.Proper) :
    schema.Matches Nested.Alike schema := by
  refine .of_forall₂ (List.forall₂_same.mpr fun entry hentry => ⟨rfl, ?_, rfl, ?_, ?_⟩)
  · exact Ty.matches_self fun sub hsub => proper.types sub (mem_types hentry hsub)
  · cases hdefault : entry.2.default with
    | none => exact .none
    | some value => exact .some (proper.defaults entry hentry value hdefault).beq_refl
  · cases entry.2.nested with
    | none => exact .none
    | some nested => exact .some (Or.inl rfl)

theorem Schema.Alike.matches {schema other : Schema} (proper : schema.Proper)
    (h : schema.Alike other) : schema.Matches Nested.Alike other := by
  rcases h with rfl | h
  · exact matches_self proper
  · exact matches_of_beq proper.names h

theorem Nested.Alike.resolve {ctx : Context} {producers : Producers} {nested other : Nested}
    (h : nested.Alike other) :
    Option.Rel Schema.Alike (ctx.resolver producers nested) (ctx.resolver producers other) := by
  have same : ∀ found : Option Schema, Option.Rel Schema.Alike found found := fun found => by
    cases found with
    | none => exact .none
    | some schema => exact .some (Or.inl rfl)
  rcases h with rfl | h
  · exact same _
  · cases nested with
    | inline schema => cases other with
      | inline schema' => exact .some (Or.inr h)
      | _ => exact absurd h Bool.false_ne_true
    | lazy producer => cases other with
      | lazy producer' =>
        rw [beq_iff_eq.mp h]
        exact same _
      | _ => exact absurd h Bool.false_ne_true
    | ref name => cases other with
      | ref name' =>
        rw [beq_iff_eq.mp h]
        exact same _
      | _ => exact absurd h Bool.false_ne_true

end OptionSchema
