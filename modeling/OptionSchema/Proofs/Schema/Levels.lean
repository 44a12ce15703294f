import OptionSchema.Compile
import OptionSchema.Proofs.Value.Parts

/-!
# The levels of a schema

A level is one schema without its nested ones. Validation enters the nested schemas that a level
mentions under its keys or in keyed types, in place, from producers or from a registry. So the
levels that it can meet are those reached by resolving mentions, of which there may be endlessly
many.
-/
namespace OptionSchema

namespace Ty

/-- The types that a type is made of, nested schemas apart. -/
def parts : Ty → List Ty
  | .mapOf key value => [key, value]
  | .union alternatives => alternatives
  | .listOf item => [item]
  | .tuple items => items
  | .keyed container _ => [container]
  | _ => []

/-- The types that no other type and no validator is part of. -/
def isPlain : Ty → Bool
  | .mapOf .. => false
  | .custom _ => false
  | .union _ => false
  | .listOf _ => false
  | .tuple _ => false
  | .keyed .. => false
  | _ => true

theorem parts_of_isPlain {ty : Ty} (plain : ty.isPlain = true) : ty.parts = [] := by
  cases ty <;> first | rfl | cases plain

theorem isPlain_of_isContainer {ty : Ty} (h : ty.isContainer = true) : ty.isPlain = true := by
  cases ty <;> first | rfl | cases h

mutual

def subterms : Ty → List Ty
  | .mapOf key value => .mapOf key value :: (key.subterms ++ value.subterms)
  | .union alternatives => .union alternatives :: subtermsOfAll alternatives
  | .listOf item => .listOf item :: item.subterms
  | .tuple items => .tuple items :: subtermsOfAll items
  | .keyed container nested => .keyed container nested :: container.subterms
  | ty => [ty]
termination_by structural ty => ty

def subtermsOfAll : List Ty → List Ty
  | [] => []
  | ty :: types => ty.subterms ++ subtermsOfAll types
termination_by structural types => types

end

theorem mem_subtermsOfAll {sub : Ty} {types : List Ty} :
    sub ∈ subtermsOfAll types ↔ ∃ ty ∈ types, sub ∈ ty.subterms := by
  induction types with
  | nil => simp [subtermsOfAll]
  | cons ty types ih => simp [subtermsOfAll, ih]

theorem self_mem_subterms (ty : Ty) : ty ∈ ty.subterms := by
  cases ty <;> simp [subterms]

theorem subterms_of_isPlain {ty : Ty} (plain : ty.isPlain = true) : ty.subterms = [ty] := by
  cases ty <;> first | rfl | cases plain

theorem subterms_of_isContainer {ty : Ty} (h : ty.isContainer = true) : ty.subterms = [ty] :=
  subterms_of_isPlain (isPlain_of_isContainer h)

theorem mem_subterms_iff {ty sub : Ty} :
    sub ∈ ty.subterms ↔ sub = ty ∨ ∃ part ∈ ty.parts, sub ∈ part.subterms := by
  cases ty with
  | mapOf key value => simp [subterms, parts]
  | union alternatives => rw [subterms, List.mem_cons, mem_subtermsOfAll]; rfl
  | listOf item => simp [subterms, parts]
  | tuple items => rw [subterms, List.mem_cons, mem_subtermsOfAll]; rfl
  | keyed container nested => simp [subterms, parts]
  | _ => simp [subterms, parts]

theorem subterms_of_part {ty part sub : Ty} (hpart : part ∈ ty.parts) (hsub : sub ∈ part.subterms) :
    sub ∈ ty.subterms := mem_subterms_iff.mpr (Or.inr ⟨part, hpart, hsub⟩)

theorem sizeOf_part {ty part : Ty} (h : part ∈ ty.parts) : sizeOf part < sizeOf ty := by
  cases ty with
  | mapOf key value =>
    simp only [parts, List.mem_cons, List.not_mem_nil, or_false] at h
    simp only [Ty.mapOf.sizeOf_spec]
    rcases h with rfl | rfl <;> omega
  | union alternatives =>
    have := List.sizeOf_lt_of_mem (show part ∈ alternatives from h)
    simp only [Ty.union.sizeOf_spec]; omega
  | listOf item =>
    obtain rfl := List.mem_singleton.mp h
    simp only [Ty.listOf.sizeOf_spec]; omega
  | tuple items =>
    have := List.sizeOf_lt_of_mem (show part ∈ items from h)
    simp only [Ty.tuple.sizeOf_spec]; omega
  | keyed container nested =>
    obtain rfl := List.mem_singleton.mp h
    simp only [Ty.keyed.sizeOf_spec]; omega
  | _ => cases h

theorem parts_induction {motive : Ty → Prop}
    (step : ∀ ty, (∀ part ∈ ty.parts, motive part) → motive ty) (ty : Ty) : motive ty :=
  step ty fun part _ => parts_induction step part
termination_by sizeOf ty
decreasing_by exact sizeOf_part ‹_›

theorem subterms_trans {ty inner sub : Ty} (hinner : inner ∈ ty.subterms)
    (hsub : sub ∈ inner.subterms) : sub ∈ ty.subterms := by
  induction ty using parts_induction with
  | step ty ih =>
    rcases mem_subterms_iff.mp hinner with rfl | ⟨part, hpart, hinner⟩
    · exact hsub
    · exact subterms_of_part hpart (ih part hpart hinner)

def IsProper : Ty → Prop
  | .choice (.values allowed) => ∀ value ∈ allowed, value.Proper
  | .custom validator => (∀ arg ∈ validator.args, arg.Proper) ∧
      ∀ value result, value.Proper → validator.call value = .ok result → result.Proper
  | _ => True

end Ty

abbrev Resolver := Nested → Option Schema

/-- Producers make their schemas, and the registry of the context knows the named ones. -/
def Context.resolver (ctx : Context) (producers : Producers) : Resolver
  | .inline schema => some schema
  | .lazy producer => some (producers producer)
  | .ref name => ctx.schema? name

theorem Nested.resolve_toOption (producers : Producers) (nested : Nested) (place : Place)
    {ctx here : Context} (h : here.registry = ctx.registry) :
    (nested.resolve producers place here).toOption = ctx.resolver producers nested := by
  cases nested with
  | inline schema => rfl
  | lazy producer => rfl
  | ref name =>
    simp only [Nested.resolve, Context.resolver, Context.schema?, h]
    cases ctx.registry.bind fun registry => registry.schema? name <;> rfl

theorem Nested.resolve_eq_error {producers : Producers} {nested : Nested} {place : Place}
    {ctx : Context} {failure : Failure} (h : nested.resolve producers place ctx = .error failure) :
    ∃ name, nested = .ref name ∧ ctx.schema? name = none ∧ failure = .unresolved name place := by
  cases nested with
  | ref name =>
    rw [Nested.resolve] at h
    cases hschema : ctx.schema? name with
    | some schema => rw [hschema] at h; cases h
    | none =>
      rw [hschema] at h
      exact ⟨name, rfl, hschema, (Except.error.inj h).symm⟩
  | _ => cases h

/-- With levels to go, entering a nested schema fails for a name that is not registered, or walks
the schema it stands for one step further in. -/
theorem Nested.enterWithin_succ (producers : Producers) (levels : Nat) (nested : Nested)
    (place : Place) (value : Value) {ctx here : Context} (h : here.registry = ctx.registry) :
    (∃ name, (nested = .ref name ∧ ctx.schema? name = none) ∧
      enterWithin producers (levels + 1) nested place value here =
        .fail (.unresolved name place)) ∨
    ∃ next, ctx.resolver producers nested = some next ∧
      enterWithin producers (levels + 1) nested place value here =
        (next.walkNested (enterWithin producers levels) value
          (here.descend place.segment)).mapError (·.nest place.segment) := by
  have resolved := resolve_toOption producers nested place h
  rw [enterWithin]
  cases hnested : nested.resolve producers place here with
  | error failure =>
    obtain ⟨name, hname, missing, rfl⟩ := resolve_eq_error hnested
    rw [Context.schema?, h] at missing
    exact .inl ⟨name, ⟨hname, missing⟩, rfl⟩
  | ok next =>
    rw [hnested] at resolved
    exact .inr ⟨next, resolved.symm, rfl⟩

namespace Schema

def types (schema : Schema) : List Ty := schema.keys.flatMap fun entry => entry.2.ty.subterms

theorem mem_types {schema : Schema} {name : String} {spec : KeySpec} {ty : Ty}
    (h : (name, spec) ∈ schema.keys) (hty : ty ∈ spec.ty.subterms) : ty ∈ schema.types :=
  List.mem_flatMap.mpr ⟨(name, spec), h, hty⟩

theorem mem_types_of_subterm {schema : Schema} {ty sub : Ty} (hty : ty ∈ schema.types)
    (hsub : sub ∈ ty.subterms) : sub ∈ schema.types := by
  obtain ⟨entry, hentry, hty⟩ := List.mem_flatMap.mp hty
  exact mem_types hentry (Ty.subterms_trans hty hsub)

/-- The nested schemas under the keys and in the keyed types of a level. -/
inductive Mentions (schema : Schema) (nested : Nested) : Prop where
  | key {name : String} {spec : KeySpec} (h : (name, spec) ∈ schema.keys)
      (hnested : spec.nested = some nested)
  | type {container : Ty} (h : .keyed container nested ∈ schema.types)

theorem mentions_iff {schema : Schema} {nested : Nested} :
    schema.Mentions nested ↔ (∃ entry ∈ schema.keys, entry.2.nested = some nested) ∨
      ∃ container, .keyed container nested ∈ schema.types := by
  constructor
  · intro mention
    cases mention with
    | key h hnested => exact .inl ⟨_, h, hnested⟩
    | type h => exact .inr ⟨_, h⟩
  · rintro (⟨entry, h, hnested⟩ | ⟨container, h⟩)
    · exact .key h hnested
    · exact .type h

theorem Mentions.perm {schema other : Schema} {nested : Nested} (h : schema.Mentions nested)
    (perm : schema.keys.Perm other.keys) : other.Mentions nested := by
  cases h with
  | key h hnested => exact .key (perm.mem_iff.mp h) hnested
  | type h =>
    obtain ⟨entry, hentry, hsub⟩ := List.mem_flatMap.mp h
    exact .type (mem_types (perm.mem_iff.mp hentry) hsub)

theorem not_mentions_of_isPlain {schema : Schema} {nested : Nested}
    (h : ∀ entry ∈ schema.keys, entry.2.ty.isPlain = true ∧ entry.2.nested = none) :
    ¬ schema.Mentions nested := by
  intro mention
  cases mention with
  | key hmem hnested => cases (h _ hmem).2.symm.trans hnested
  | type hmem =>
    obtain ⟨entry, hentry, hsub⟩ := List.mem_flatMap.mp hmem
    have plain := (h entry hentry).1
    rw [Ty.subterms_of_isPlain plain] at hsub
    rw [← List.mem_singleton.mp hsub] at plain
    cases plain

/-- The levels that validation can enter from a schema. -/
inductive Reaches (resolve : Resolver) : Schema → Schema → Prop where
  | refl (schema : Schema) : Reaches resolve schema schema
  | step {schema next level : Schema} {nested : Nested} (mention : schema.Mentions nested)
      (resolved : resolve nested = some next) (rest : Reaches resolve next level) :
      Reaches resolve schema level

def EveryLevel (resolve : Resolver) (schema : Schema) (P : Schema → Prop) : Prop :=
  ∀ level, schema.Reaches resolve level → P level

namespace EveryLevel

variable {resolve : Resolver} {schema next : Schema} {P Q : Schema → Prop}

theorem self (h : schema.EveryLevel resolve P) : P schema := h schema (.refl schema)

theorem nested (h : schema.EveryLevel resolve P) {nested : Nested}
    (mention : schema.Mentions nested) (resolved : resolve nested = some next) :
    next.EveryLevel resolve P :=
  fun level rest => h level (.step mention resolved rest)

theorem of_mentions (here : P schema) (below : ∀ nested next, schema.Mentions nested →
    resolve nested = some next → next.EveryLevel resolve P) : schema.EveryLevel resolve P := by
  intro level reached
  cases reached with
  | refl => exact here
  | step mention resolved rest => exact below _ _ mention resolved level rest

end EveryLevel

/-- A level as insertion builds it: no key comes twice and the values in it are proper. -/
structure Proper (schema : Schema) : Prop where
  names : schema.names.Nodup
  defaults : ∀ entry ∈ schema.keys, ∀ value ∈ entry.2.default, value.Proper
  types : ∀ ty ∈ schema.types, ty.IsProper

def Passes (producers : Producers) (schema : Schema) : Prop :=
  (schema.compile producers).outcome = .ok schema

end Schema

end OptionSchema
