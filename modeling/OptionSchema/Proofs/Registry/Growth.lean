import OptionSchema.Proofs.Interchange
import OptionSchema.Proofs.Registry.References
/-!
# Validation while a registry grows

Registering more never changes what a name is bound to, so a reference that resolves goes on to
resolve to the same schema. A run looks alike under two registries wherever they agree on all that
the levels on its way mention; what else they hold it never asks for. For a registry without
unresolved references and without producers, that is so under all that it can grow into.
-/
namespace OptionSchema

variable {producers : Producers}

def Schema.ResolvedAlike (resolve other : Resolver) (level : Schema) : Prop :=
  ∀ nested, level.Mentions nested → resolve nested = other nested

/-- The nested schemas are one and the same, and all is resolved alike from there on. -/
structure Nested.LeadsAlike (resolve other : Resolver) (nested nested' : Nested) : Prop where
  same : nested = nested'
  resolved : resolve nested = other nested
  every : ∀ next, resolve nested = some next →
    next.EveryLevel resolve (Schema.ResolvedAlike resolve other)

theorem Schema.sameUpTo_leadsAlike {resolve other : Resolver} {schema : Schema}
    (every : schema.EveryLevel resolve (ResolvedAlike resolve other)) :
    schema.SameUpTo (Nested.LeadsAlike resolve other) schema :=
  .refl_of_mentions fun nested mention =>
    ⟨rfl, every.self nested mention, fun _ resolved => every.nested mention resolved⟩

theorem Nested.resolve_congr {nested : Nested} {place : Place} {here there : Context}
    (h : (nested.resolve producers place here).toOption =
      (nested.resolve producers place there).toOption) :
    nested.resolve producers place here = nested.resolve producers place there := by
  cases nested with
  | inline schema => rfl
  | lazy producer => rfl
  | ref name =>
    simp only [Nested.resolve] at h ⊢
    cases hhere : here.schema? name <;> cases hthere : there.schema? name <;>
      simp_all [Except.toOption]

section Registries

variable {ctx : Context} {registry : Registry}

/-- The second context is the first one, which has the registry of `ctx`, with the other registry in
its place. -/
def Context.Replaced (ctx : Context) (registry : Registry) (here there : Context) : Prop :=
  here.registry = ctx.registry ∧ there = here.withRegistry registry

theorem Context.abreast_replaced : Context.Abreast (ctx.Replaced registry) where
  path := by
    rintro here there ⟨-, rfl⟩
    rfl
  step := by
    rintro here there segment ⟨hctx, rfl⟩
    exact ⟨hctx, rfl⟩

theorem Nested.looksLike_replaced (levels : Nat) :
    (Nested.enterWithin producers levels).LooksLikeAcross (ctx.Replaced registry)
      (Nested.LeadsAlike (ctx.resolver producers) ((ctx.withRegistry registry).resolver producers))
      (Nested.enterWithin producers levels) := by
  induction levels with
  | zero =>
    rintro nested nested' place value here there ⟨-, rfl⟩ leads
    exact ⟨rfl, rfl⟩
  | succ levels ih =>
    rintro nested nested' place value here there ⟨hctx, rfl⟩ leads
    obtain rfl := leads.same
    have found := Nested.resolve_toOption producers nested place hctx
    have foundThere : (nested.resolve producers place (here.withRegistry registry)).toOption =
        (ctx.withRegistry registry).resolver producers nested :=
      Nested.resolve_toOption producers nested place rfl
    have agree := Nested.resolve_congr ((found.trans leads.resolved).trans foundThere.symm)
    rw [enterWithin, enterWithin, ← agree]
    cases hnested : nested.resolve producers place here with
    | error failure => exact .refl _
    | ok next =>
      rw [hnested] at found
      have below := Schema.sameUpTo_leadsAlike (leads.every next found.symm)
      refine .mapError (below.looksLike_walkNested Context.abreast_replaced ih ?_)
      exact ⟨hctx, rfl⟩

/-- A run asks its registry only for what the levels on its way mention. -/
theorem Schema.looksLike_withRegistry {schema : Schema} (every : schema.EveryLevel
      (ctx.resolver producers)
      (ResolvedAlike (ctx.resolver producers) ((ctx.withRegistry registry).resolver producers)))
    (value : Value) : (schema.validate producers value ctx).LooksLike
      (schema.validate producers value (ctx.withRegistry registry)) :=
  (sameUpTo_leadsAlike every).looksLike_walk (C := ctx.Replaced registry) Context.abreast_replaced
    (Nested.looksLike_replaced ctx.remaining) ⟨rfl, rfl⟩

end Registries

/-- Without producers and unresolved references, whatever a validation by name meets is registered,
and so it stands for the same under any registry that keeps these bindings. -/
theorem Store.resolvedAlike_of_resolved {store grown : Store} (sound : store.Sound producers)
    (nothingLazy : ∀ name definition, store.schema? name = some definition →
      definition.NothingLazy) (resolved : store.unresolvedRefs = [])
    (keeps : ∀ name definition, store.schema? name = some definition →
      grown.schema? name = some definition) {limit : Nat} {owner : String} {definition : Schema}
    (hbound : store.schema? owner = some definition) :
    definition.EveryLevel ((Registry.mk store limit).context.resolver producers)
      (Schema.ResolvedAlike ((Registry.mk store limit).context.resolver producers)
        ((Registry.mk grown limit).context.resolver producers)) := by
  intro level reached nested mention
  have foretelling := foretelling_of_resolved sound nothingLazy resolved hbound .self level reached
  cases nested with
  | inline next => rfl
  | lazy producer => rfl
  | ref name =>
    cases found : store.schema? name with
    | none => exact (foretelling.lacks (.ref name) mention found).elim
    | some next => exact found.trans (keeps name next found).symm

namespace SharedRegistry

/-- After any history without producers that leaves no reference unresolved, validation by name is
done for good: whatever is registered later, it ends with the same output or the same failure and
logs the same. -/
theorem closed_registry_is_stable {maxDepth : Nat} {events later : List Event}
    {shared grown : SharedRegistry} (history : (new maxDepth).Leads producers events shared)
    (nothingLazy : ∀ name definition, shared.store.schema? name = some definition →
      definition.NothingLazy) (resolved : shared.store.unresolvedRefs = [])
    (more : shared.Leads producers later grown) (name : String) (definition : Schema)
    (registered : shared.store.schema? name = some definition) (limit : Nat) (value : Value) :
    ∃ run again, Registry.validate producers ⟨shared.store, limit⟩ name value = .ok run ∧
      Registry.validate producers ⟨grown.store, limit⟩ name value = .ok again ∧
      again.outcome = run.outcome ∧ again.log = run.log := by
  have sound : shared.store.Sound producers := history.sound .empty
  have keeps : ∀ name definition, shared.store.schema? name = some definition →
      grown.store.schema? name = some definition := fun _ _ => more.keeps_schema
  have before : (Registry.mk shared.store limit).schema? name = some definition := registered
  have after : (Registry.mk grown.store limit).schema? name = some definition :=
    keeps name definition registered
  have alike : (definition.validate producers value
      (Registry.mk shared.store limit).context).LooksLike
        (definition.validate producers value (Registry.mk grown.store limit).context) :=
    Schema.looksLike_withRegistry
      (Store.resolvedAlike_of_resolved sound nothingLazy resolved keeps registered) value
  refine ⟨_, _, by rw [Registry.validate, before], by rw [Registry.validate, after], ?_, ?_⟩
  · exact alike.outcome.symm
  · exact alike.log.symm

def shelfSchema : Schema :=
  ⟨[("books", { ty := .listOf .map, nested := some (.lazy 0) }),
    ("room", { ty := .map, nested := some (.ref "Room") })]⟩

def library : SharedRegistry :=
  ⟨{ schemas := [("Author", authorSchema), ("Book", bookSchema)] }, [100]⟩

/-- Neither the shelves nor the second try to describe authors bear on authors and their books. -/
theorem library_is_stable : let producers : Producers := fun _ => bookSchema
    ∃ events later grown, (new 100).Leads producers events library ∧
      library.store.unresolvedRefs = [] ∧ library.Leads producers later grown ∧
      later.map (·.outcome.toBool) = [true, false] ∧ grown.store.unresolvedRefs = ["Room"] ∧
      ∀ limit value, ∃ run again,
        Registry.validate producers ⟨library.store, limit⟩ "Author" value = .ok run ∧
          Registry.validate producers ⟨grown.store, limit⟩ "Author" value = .ok again ∧
          again.outcome = run.outcome ∧ again.log = run.log := by
  intro producers
  have history : (new 100).Leads producers _ library :=
    @Leads.register _ _ _ _ 0 _ rfl (.schema "Author" authorSchema)
      (@Leads.register _ _ _ _ 0 _ rfl (.schema "Book" bookSchema) (.done library))
  have more : library.Leads producers _ _ :=
    @Leads.register _ _ _ _ 0 _ rfl (.schema "Shelf" shelfSchema)
      (@Leads.register _ _ _ _ 0 _ rfl (.schema "Author" .empty) (.done _))
  refine ⟨_, _, _, history, by decide +kernel, more, by decide +kernel, by decide +kernel, ?_⟩
  refine closed_registry_is_stable history (fun name definition hbound => ?_) (by decide +kernel)
    more "Author" authorSchema rfl
  apply nothingLazy_of_library
  rcases List.mem_cons.mp (Entries.mem_of_lookup hbound) with hmem | hmem
  · exact .inl (Prod.mk.inj hmem).2
  · exact .inr (Prod.mk.inj (List.mem_singleton.mp hmem)).2

end SharedRegistry

end OptionSchema
