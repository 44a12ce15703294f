import Mathlib.Data.String.Basic
import OptionSchema.Proofs.Foresight
import OptionSchema.Proofs.Registry.History
import OptionSchema.Proofs.Schema.Deletion
/-!
# References between registered schemas

A registry lists the names that its schemas refer to and that nothing is registered under. The list
is made by going through the schemas without running them. Where no producers are involved, it
misses nothing that a validation can come upon: once it is empty, no reference fails to resolve.
-/
namespace OptionSchema

section Sorted

variable {name : String} {names : List String}

theorem eraseReps_loop (kept : List String) (ascending : (name :: names).Pairwise (· ≤ ·)) :
    ∃ rest, List.eraseRepsBy.loop (· == ·) name names kept = kept.reverse ++ name :: rest ∧
      (name :: rest).Pairwise (· < ·) ∧ ∀ other, other ∈ name :: rest ↔ other ∈ name :: names := by
  induction names generalizing name kept with
  | nil => exact ⟨[], by simp [List.eraseRepsBy.loop], by simp, fun _ => Iff.rfl⟩
  | cons next names ih =>
    rw [List.pairwise_cons] at ascending
    obtain ⟨least, tail⟩ := ascending
    have hle : name ≤ next := least next List.mem_cons_self
    rw [List.eraseRepsBy.loop]
    by_cases repeated : name = next
    · subst repeated
      obtain ⟨rest, hloop, strict, members⟩ := ih kept tail
      exact ⟨rest, by simpa using hloop, strict, fun other => by simp [members]⟩
    · obtain ⟨rest, hloop, strict, members⟩ := ih (name :: kept) tail
      refine ⟨next :: rest, by simpa [beq_false_of_ne repeated] using hloop,
        List.pairwise_cons.mpr ⟨fun other hother => ?_, strict⟩, fun other => by simp [members]⟩
      have above : next ≤ other := by
        rcases List.mem_cons.mp hother with rfl | hother
        · exact le_refl _
        · exact le_of_lt ((List.pairwise_cons.mp strict).1 other hother)
      exact lt_of_lt_of_le (lt_of_le_of_ne hle repeated) above

theorem sorted_spec (names : List String) : (Store.sorted names).Pairwise (· < ·) ∧
    ∀ name, name ∈ Store.sorted names ↔ name ∈ names := by
  have members : ∀ name, name ∈ names.mergeSort (fun a b => decide (a ≤ b)) ↔ name ∈ names :=
    fun _ => List.mem_mergeSort
  have ascending : (names.mergeSort fun a b => decide (a ≤ b)).Pairwise (· ≤ ·) := by
    refine (List.pairwise_mergeSort (fun a b c hab hbc => ?_) (fun a b => ?_) names).imp
      of_decide_eq_true
    · exact decide_eq_true (le_trans (of_decide_eq_true hab) (of_decide_eq_true hbc))
    · simp [le_total]
  rw [Store.sorted, List.eraseReps]
  cases hsorted : names.mergeSort fun a b => decide (a ≤ b) with
  | nil =>
    rw [hsorted] at members
    exact ⟨.nil, members⟩
  | cons first rest =>
    rw [hsorted] at members ascending
    obtain ⟨others, hloop, strict, same⟩ := eraseReps_loop [] ascending
    rw [List.eraseRepsBy, hloop]
    exact ⟨strict, fun name => (same name).trans (members name)⟩

end Sorted

namespace Ty

variable {name : String}

theorem mem_refsOfAll {types : List Ty} :
    name ∈ refsOfAll types ↔ ∃ ty ∈ types, name ∈ ty.refs := by
  induction types with
  | nil => simp [refsOfAll]
  | cons ty types ih => simp [refsOfAll, ih]

theorem mem_refs_iff_parts {ty : Ty} : name ∈ ty.refs ↔
    (∃ part ∈ ty.parts, name ∈ part.refs) ∨
      ∃ container nested, ty = .keyed container nested ∧ name ∈ nested.refs := by
  cases ty with
  | union types => simp [refs, parts, mem_refsOfAll]
  | tuple types => simp [refs, parts, mem_refsOfAll]
  | _ => simp [refs, parts]

theorem mem_refs_iff {ty : Ty} : name ∈ ty.refs ↔
    ∃ container nested, .keyed container nested ∈ ty.subterms ∧ name ∈ nested.refs := by
  induction ty using parts_induction with
  | step ty ih =>
    rw [mem_refs_iff_parts]
    constructor
    · rintro (⟨part, hpart, hname⟩ | ⟨container, nested, rfl, hname⟩)
      · obtain ⟨container, nested, hsub, hname⟩ := (ih part hpart).mp hname
        exact ⟨container, nested, subterms_of_part hpart hsub, hname⟩
      · exact ⟨container, nested, self_mem_subterms _, hname⟩
    · rintro ⟨container, nested, hsub, hname⟩
      rcases mem_subterms_iff.mp hsub with rfl | ⟨part, hpart, hsub⟩
      · exact Or.inr ⟨container, nested, rfl, hname⟩
      · exact Or.inl ⟨part, hpart, (ih part hpart).mpr ⟨container, nested, hsub, hname⟩⟩

end Ty

theorem KeySpec.mem_refs_iff {name : String} {spec : KeySpec} : name ∈ spec.refs ↔
    name ∈ spec.ty.refs ∨ ∃ nested, spec.nested = some nested ∧ name ∈ nested.refs := by
  obtain ⟨ty, required, default, nested, deprecated, doc, subsection, typeDoc⟩ := spec
  cases nested <;> simp [refs, Nested.refsOfOption]

namespace Schema

/-- The name is referred to somewhere in the schema, under a key or in a keyed type. -/
def RefersTo (schema : Schema) (name : String) : Prop :=
  ∃ level, schema.InPlace level ∧ level.Mentions (.ref name)

def NothingLazy (schema : Schema) : Prop :=
  ∀ level producer, schema.InPlace level → ¬ level.Mentions (.lazy producer)

variable {schema level : Schema} {name : String}

theorem mem_refsOfKeys {keys : List (String × KeySpec)} :
    name ∈ refsOfKeys keys ↔ ∃ entry ∈ keys, name ∈ entry.2.refs := by
  induction keys with
  | nil => simp [refsOfKeys]
  | cons entry keys ih => simp [refsOfKeys, ih]

theorem mem_refs_iff_mentions :
    name ∈ schema.refs ↔ ∃ nested, schema.Mentions nested ∧ name ∈ nested.refs := by
  obtain ⟨keys⟩ := schema
  rw [refs, mem_refsOfKeys]
  constructor
  · rintro ⟨⟨own, spec⟩, hentry, hname⟩
    rcases KeySpec.mem_refs_iff.mp hname with hname | ⟨nested, hnested, hname⟩
    · obtain ⟨container, nested, hsub, hname⟩ := Ty.mem_refs_iff.mp hname
      exact ⟨nested, .type (mem_types hentry hsub), hname⟩
    · exact ⟨nested, .key hentry hnested, hname⟩
  · rintro ⟨nested, mention, hname⟩
    cases mention with
    | key hentry hnested => exact ⟨_, hentry, KeySpec.mem_refs_iff.mpr (.inr ⟨_, hnested, hname⟩)⟩
    | type htype =>
      obtain ⟨entry, hentry, hsub⟩ := List.mem_flatMap.mp htype
      have inside : name ∈ entry.2.ty.refs := Ty.mem_refs_iff.mpr ⟨_, _, hsub, hname⟩
      exact ⟨entry, hentry, KeySpec.mem_refs_iff.mpr (.inl inside)⟩

/-- The list of references is complete, at any depth. -/
theorem mem_refs_iff : name ∈ schema.refs ↔ schema.RefersTo name := by
  constructor
  · intro h
    induction hdepth : schema.nesting using Nat.strong_induction_on generalizing schema with
    | _ depth ih =>
      obtain ⟨nested, mention, hname⟩ := mem_refs_iff_mentions.mp h
      cases nested with
      | inline next =>
        have deeper := nesting_lt_of_mentions mention
        obtain ⟨level, inPlace, hmention⟩ := ih next.nesting (hdepth ▸ deeper) hname rfl
        exact ⟨level, inPlace.within mention, hmention⟩
      | lazy producer => cases hname
      | ref other => exact ⟨schema, .self, List.mem_singleton.mp hname ▸ mention⟩
  · rintro ⟨level, inPlace, mention⟩
    have here : name ∈ level.refs :=
      mem_refs_iff_mentions.mpr ⟨_, mention, List.mem_singleton_self name⟩
    clear mention
    induction inPlace with
    | self => exact here
    | inline _ mention ih => exact ih (mem_refs_iff_mentions.mpr ⟨_, mention, here⟩)

end Schema

namespace Store

variable {producers : Producers} {store : Store}

theorem mem_unresolvedRefs (sound : store.Sound producers) {name : String} :
    name ∈ store.unresolvedRefs ↔
      (∃ owner definition, store.schema? owner = some definition ∧ definition.RefersTo name) ∧
        store.schema? name = none := by
  rw [unresolvedRefs, (sorted_spec _).2, List.mem_filter, List.mem_flatMap,
    Option.isNone_iff_eq_none]
  apply and_congr_left
  intro _
  constructor
  · rintro ⟨⟨owner, definition⟩, hentry, hname⟩
    exact ⟨owner, definition, sound.schema?_iff.mpr hentry, Schema.mem_refs_iff.mp hname⟩
  · rintro ⟨owner, definition, hbound, hname⟩
    exact ⟨(owner, definition), sound.schema?_iff.mp hbound, Schema.mem_refs_iff.mpr hname⟩

/-- Where all references resolve, validation stays in registered schemas and in what stands in them,
and nothing is missing at any of these levels. -/
theorem foretelling_of_resolved (sound : store.Sound producers)
    (nothingLazy : ∀ name definition, store.schema? name = some definition →
      definition.NothingLazy) (resolved : store.unresolvedRefs = []) {maxDepth : Nat}
    {owner : String} {definition level : Schema} (hbound : store.schema? owner = some definition)
    (inPlace : definition.InPlace level) :
    level.EveryLevel ((Registry.mk store maxDepth).context.resolver producers)
      (Schema.Foretelling ((Registry.mk store maxDepth).context.resolver producers) False) := by
  intro last reached
  induction reached generalizing owner definition with
  | refl level =>
    have passes : definition.Passes producers :=
      sound.passes (owner, definition) (sound.schema?_iff.mp hbound)
    refine ⟨(passes.clean (inPlace.reviews producers)).wellDefined.wellKeyed, ?_⟩
    intro nested mention missing
    cases nested with
    | inline next => cases missing
    | lazy producer => exact nothingLazy owner definition hbound level producer inPlace mention
    | ref name =>
      have listed : name ∈ store.unresolvedRefs := (mem_unresolvedRefs sound).mpr
        ⟨⟨owner, definition, hbound, level, inPlace, mention⟩, missing⟩
      rw [resolved] at listed
      cases listed
  | @step level next last nested mention found rest ih =>
    cases nested with
    | inline inner =>
      cases found
      exact ih hbound (inPlace.inline mention)
    | lazy producer =>
      exact absurd mention (nothingLazy owner definition hbound level producer inPlace)
    | ref name => exact ih found .self

end Store

/-- Where every nested schema on the way stands for something, no failure is for want of one. -/
theorem Schema.settled_of_nothing_missing {producers : Producers} {schema : Schema} {ctx : Context}
    (every : schema.EveryLevel (ctx.resolver producers)
      (Schema.Foretelling (ctx.resolver producers) False)) {value : Value} {failure : Failure}
    (failed : (schema.validate producers value ctx).outcome = .error failure) :
    ¬ failure.Unsettled := by
  have foretells : (schema.validate producers value ctx).ForetellsSome False
      (schema.outputMapping (Nested.output (ctx.resolver producers) ctx.remaining) value) :=
    foretells_walk (Nested.returns_enterWithin producers ctx ctx.remaining) every.self.keyed
      (fun nested mention => Nested.foretells_enterWithin (fun _ _ h => h) ctx.remaining
        (every.self.lacks nested mention) fun next found => every.nested mention found) rfl
  exact foretells.lacks failure failed

/-- The list of unresolved references is exact after any history without producers, and when it is
empty, no validation by name comes upon a reference to nothing. -/
theorem SharedRegistry.references_resolve {producers : Producers} {maxDepth : Nat}
    {events : List Event} {shared : SharedRegistry}
    (history : (new maxDepth).Leads producers events shared)
    (nothingLazy : ∀ name definition, shared.store.schema? name = some definition →
      definition.NothingLazy) :
    shared.store.unresolvedRefs.Pairwise (· < ·) ∧
    (∀ name, name ∈ shared.store.unresolvedRefs ↔
      (∃ owner definition, shared.store.schema? owner = some definition ∧
        definition.RefersTo name) ∧ shared.store.schema? name = none) ∧
    (shared.store.unresolvedRefs = [] →
      ∀ name definition, shared.store.schema? name = some definition → ∀ limit value,
        ∃ run, Registry.validate producers ⟨shared.store, limit⟩ name value = .ok run ∧
          ∀ failure, run.outcome = .error failure →
            ¬ failure.Involves .unresolvedReference) := by
  have sound : shared.store.Sound producers := history.sound .empty
  refine ⟨(sorted_spec _).1, fun name => Store.mem_unresolvedRefs sound, ?_⟩
  intro resolved name definition hbound limit value
  have found : (Registry.mk shared.store limit).schema? name = some definition := hbound
  refine ⟨_, by rw [Registry.validate, found], fun failure failed => ?_⟩
  exact Schema.settled_of_nothing_missing
    (Store.foretelling_of_resolved sound nothingLazy resolved hbound .self) failed

namespace SharedRegistry

theorem nothingLazy_of_library {definition : Schema}
    (h : definition = authorSchema ∨ definition = bookSchema) : definition.NothingLazy := by
  have references : ∀ nested, definition.Mentions nested → ∃ name, nested = .ref name := by
    intro nested mention
    rcases h with rfl | rfl
    · refine ⟨"Book", ?_⟩
      simpa [Schema.mentions_iff, authorSchema, Schema.types, Ty.subterms, eq_comm] using mention
    · refine ⟨"Author", ?_⟩
      simpa [Schema.mentions_iff, bookSchema, Schema.types, Ty.subterms, eq_comm] using mention
  intro level producer inPlace mention
  have alone : level = definition := by
    clear mention
    induction inPlace with
    | self => rfl
    | inline _ inline ih =>
      obtain ⟨name, heq⟩ := references _ (ih ▸ inline)
      cases heq
  obtain ⟨name, heq⟩ := references _ (alone ▸ mention)
  cases heq

/-- With authors and books both registered, all that can be met is registered. -/
theorem library_resolves : ∃ events shared,
    (new 100).Leads (fun _ => .empty) events shared ∧ shared.store.unresolvedRefs = [] ∧
      ∀ limit value, ∃ run,
        Registry.validate (fun _ => .empty) ⟨shared.store, limit⟩ "Author" value = .ok run ∧
          ∀ failure, run.outcome = .error failure → ¬ failure.Involves .unresolvedReference := by
  have history : (new 100).Leads (fun _ => .empty) _ _ :=
    @Leads.register _ _ _ _ 0 _ rfl (.schema "Author" authorSchema)
      (@Leads.register _ _ _ _ 0 _ rfl (.schema "Book" bookSchema) (.done _))
  obtain ⟨-, -, resolves⟩ := references_resolve history fun name definition hbound => by
    have hmem := Entries.mem_of_lookup hbound
    apply nothingLazy_of_library
    rcases List.mem_cons.mp hmem with hmem | hmem
    · exact .inl (Prod.mk.inj hmem).2
    · exact .inr (Prod.mk.inj (List.mem_singleton.mp hmem)).2
  exact ⟨_, _, history, by decide +kernel, resolves (by decide +kernel) "Author" authorSchema rfl⟩

end SharedRegistry

end OptionSchema
