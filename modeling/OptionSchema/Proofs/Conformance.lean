import OptionSchema.Proofs.Acceptance
import OptionSchema.Proofs.RoundTrip
/-!
# What an accepted output looks like

An output is described without the input that it comes from: at every level all keys are declared,
no required key and no default is missing, and every value is one that its type and its nested
schema can return. The walk of a nested schema puts another value in the place of one that has been
matched; on containers, lists of them and unions of them it keeps what the type asks for.
-/
namespace OptionSchema

/-- The values that matching a type can return; `inner` says the same of nested schemas. -/
inductive Ty.Yields (inner : Nested → Value → Prop) : Ty → Value → Prop where
  | plain {ty : Ty} {w : Value} (h : ty.Fits w) : Ty.Yields inner ty w
  | mapOf {keyTy valueTy : Ty} {pairs : List (Value × Value)}
      (keys : ∀ pair ∈ pairs, Ty.Yields inner keyTy pair.1)
      (values : ∀ pair ∈ pairs, Ty.Yields inner valueTy pair.2) :
      Ty.Yields inner (.mapOf keyTy valueTy) (.map pairs)
  | custom {validator : Validator} {value w : Value} (h : validator.call value = .ok w) :
      Ty.Yields inner (.custom validator) w
  | union {alternatives : List Ty} {ty : Ty} {w : Value} (h : ty ∈ alternatives)
      (yields : Ty.Yields inner ty w) : Ty.Yields inner (.union alternatives) w
  | listOf {item : Ty} {items : List Value} (h : ∀ element ∈ items, Ty.Yields inner item element) :
      Ty.Yields inner (.listOf item) (.list items)
  | tuple {types : List Ty} {items : List Value} (h : List.Forall₂ (Ty.Yields inner) types items) :
      Ty.Yields inner (.tuple types) (.tuple items)
  | keyed {container : Ty} {nested : Nested} {w : Value} (h : Ty.Yields inner container w)
      (filled : inner nested w) : Ty.Yields inner (.keyed container nested) w

structure KeySpec.Yields (inner : Nested → Value → Prop) (spec : KeySpec) (w : Value) : Prop where
  type : spec.ty.Yields inner w
  nested : ∀ nested, spec.nested = some nested → inner nested w

namespace Schema

/-- The entries are those of an output of one level, with nothing left to fill in. -/
structure Filled (inner : Nested → Value → Prop) (schema : Schema)
    (entries : List (String × Value)) : Prop where
  declared : ∀ name ∈ Entries.names entries, ∃ spec, schema.specFor? name = some spec
  present : ∀ name spec, name ≠ wildcardName → schema.find? name = some spec →
    spec.required = true ∨ spec.default.isSome = true → name ∈ Entries.names entries
  once : (Entries.names entries).Nodup
  held : ∀ name w spec, (name, w) ∈ entries → schema.specFor? name = some spec →
    spec.Yields inner w

def Yields (inner : Nested → Value → Prop) (schema : Schema) (w : Value) : Prop :=
  ∃ entries, w.Reads entries ∧ schema.Filled inner entries

def YieldsNested (inner : Nested → Value → Prop) (schema : Schema) : Value → Prop
  | .list items => ∀ item ∈ items, schema.Yields inner item
  | w => schema.Yields inner w

end Schema

def Nested.Yields (resolve : Resolver) : Nat → Nested → Value → Prop
  | 0, _, _ => False
  | levels + 1, nested, w => ∃ schema, resolve nested = some schema ∧
    schema.YieldsNested (Nested.Yields resolve levels) w

variable {onward : Onward} {inner : Nested → Value → Prop}

/-- What comes out of a nested schema is as described, and still of any type that may have one. -/
structure FillsIn (onward : Onward) (inner : Nested → Value → Prop) (nested : Nested) :
    Prop where
  fills : ∀ value w, onward nested value = some w → inner nested w
  keeps : ∀ (ty : Ty) value w, ty.acceptsKeys = true → ty.output onward value = some value →
    onward nested value = some w → ty.output onward w = some w

theorem Ty.yields_of_output {ty : Ty} {value w : Value}
    (containers : ∀ container nested, .keyed container nested ∈ ty.subterms →
      container.isContainer = true)
    (fills : ∀ container nested, .keyed container nested ∈ ty.subterms →
      FillsIn onward inner nested)
    (h : ty.output onward value = some w) : ty.Yields inner w := by
  induction ty using parts_induction generalizing value w with
  | step ty ih =>
    have part : ∀ sub ∈ ty.parts, ∀ {value w}, sub.output onward value = some w →
        sub.Yields inner w := fun sub hsub _ _ => ih sub hsub
      (fun container nested h => containers container nested (subterms_of_part hsub h))
      (fun container nested h => fills container nested (subterms_of_part hsub h))
    by_cases plain : ty.isPlain = true
    · obtain ⟨admits, rfl⟩ := (output_plain_eq_some plain).mp h
      exact .plain ((fits_iff_admits plain).mpr admits)
    cases ty with
    | mapOf keyTy valueTy =>
      obtain ⟨pairs, results, rfl, rfl, each⟩ := output_mapOf_eq_some h
      have matched : ∀ result ∈ results,
          keyTy.Yields inner result.1 ∧ valueTy.Yields inner result.2 := by
        intro result hresult
        obtain ⟨pair, -, hkey, hheld⟩ := (Rearranged.of_forall₂ each).back hresult
        exact ⟨part keyTy (by simp [parts]) hkey, part valueTy (by simp [parts]) hheld⟩
      -- Keys that have become equal share an entry, with the key of one and the value of another.
      have entries := Entries.forall_ofList matched
      exact .mapOf (fun pair hpair => (entries pair hpair).1)
        fun pair hpair => (entries pair hpair).2
    | custom validator => exact .custom (output_custom_eq_some.mp h)
    | union alternatives =>
      obtain ⟨before, ty, after, rfl, hty, -⟩ := output_union_eq_some h
      exact .union (by simp) (part ty (by simp [parts]) hty)
    | listOf item =>
      obtain ⟨items, results, rfl, rfl, each⟩ := output_listOf_eq_some h
      refine .listOf fun result hresult => ?_
      obtain ⟨element, -, helement⟩ := (Rearranged.of_forall₂ each).back hresult
      exact part item (by simp [parts]) helement
    | tuple types =>
      obtain ⟨items, results, rfl, rfl, size, each⟩ := output_tuple_eq_some h
      refine .tuple (forall₂_imp_mem (forall₂_of_zip each size) fun ty hty result _ => ?_)
      rintro ⟨item, -, hresult⟩
      exact part ty hty hresult
    | keyed container nested =>
      obtain ⟨matched, hmatched, hnested⟩ := Option.bind_eq_some_iff.mp h
      have filled := fills container nested (self_mem_subterms _)
      have container := containers container nested (self_mem_subterms _)
      have accepts := acceptsKeys_of_isContainer container
      obtain rfl := output_eq_of_acceptsKeys accepts hmatched
      exact .keyed (part _ (by simp [parts]) (filled.keeps _ _ _ accepts hmatched hnested))
        (filled.fills _ _ hnested)
    | _ => exact absurd rfl plain

theorem KeySpec.yields_of_output {spec : KeySpec} {value w : Value}
    (type : ∀ {value w}, spec.ty.output onward value = some w → spec.ty.Yields inner w)
    (accepts : spec.nested.isSome → spec.ty.acceptsKeys = true)
    (fills : ∀ nested, spec.nested = some nested → FillsIn onward inner nested)
    (h : spec.output onward value = some w) : spec.Yields inner w := by
  obtain ⟨matched, hmatched, hnext⟩ := Option.bind_eq_some_iff.mp h
  cases hnested : spec.nested with
  | none =>
    rw [hnested] at hnext
    obtain rfl := Option.some.inj hnext
    exact ⟨type hmatched, fun nested h => nomatch hnested.symm.trans h⟩
  | some nested =>
    rw [hnested] at hnext
    have accepts := accepts (Option.isSome_of_eq_some hnested)
    have filled := fills nested hnested
    obtain rfl := Ty.output_eq_of_acceptsKeys accepts hmatched
    refine ⟨type (filled.keeps _ _ _ accepts hmatched hnext), fun other h => ?_⟩
    obtain rfl := Option.some.inj (hnested.symm.trans h)
    exact filled.fills _ _ hnext

namespace Schema

variable {schema : Schema}

section Level

variable (once : schema.names.Nodup) (keyed : schema.WellKeyed)
  (fills : ∀ nested, schema.Mentions nested → FillsIn onward inner nested)

include once keyed fills

theorem filled_of_outputEntries {input output : List (String × Value)}
    (h : schema.outputEntries onward input = some output) : schema.Filled inner output where
  declared name hname := by
    obtain ⟨w, hw⟩ := Entries.exists_lookup hname
    obtain ⟨spec, value, hmem, -⟩ := source_of_output once h (Entries.mem_of_lookup hw)
    rw [← mem_expand_output once h] at hmem
    exact ⟨spec, (mem_expand_of_observed once hname).mp hmem⟩
  present name spec hne hfind due := by
    by_cases hname : name ∈ Entries.names input
    · exact names_subset_output once h hname
    obtain ⟨-, given, hgiven, rfl⟩ := (outputEntries_eq_some once).mp h
    obtain ⟨contributed, hcontributed, hsome⟩ := (Rearranged.of_forall₂
      (mapM_eq_some_iff.mp hgiven)).forth ((mem_expand_of_absent once hname).mpr ⟨hne, hfind⟩)
    rcases KeySpec.contribution_eq_some hsome with ⟨hnone, -⟩ | ⟨value, w, -, -, rfl⟩
    · obtain ⟨-, optional, undefaulted⟩ := KeySpec.candidate?_eq_none hnone
      simp [optional, undefaulted] at due
    · have hmem : (name, w) ∈ given.filterMap id :=
        List.mem_filterMap.mpr ⟨_, hcontributed, rfl⟩
      exact Entries.mem_names hmem
  once := nodup_names_output once h
  held name w spec hmem hspec := by
    obtain ⟨own, value, hown, -, hout⟩ := source_of_output once h hmem
    rw [← mem_expand_output once h, mem_expand_of_observed once (Entries.mem_names hmem)] at hown
    obtain rfl := Option.some.inj (hspec.symm.trans hown)
    obtain ⟨declared, hdeclared⟩ := mem_of_specFor? hspec
    refine KeySpec.yields_of_output (Ty.yields_of_output ?_ ?_) (keyed.keys _ hdeclared) ?_ hout
    · exact fun container nested hsub => keyed.keyed container nested (mem_types hdeclared hsub)
    · exact fun container nested hsub => fills nested (.type (mem_types hdeclared hsub))
    · exact fun nested hnested => fills nested (.key hdeclared hnested)

theorem yields_of_outputMapping {value w : Value} (h : schema.outputMapping onward value = some w) :
    schema.Yields inner w := by
  obtain ⟨input, output, -, reads, houtput, -⟩ := outputMapping_eq_some once h
  exact ⟨output, Value.reads_iff.mpr reads, filled_of_outputEntries once keyed fills houtput⟩

theorem yieldsNested_of_outputNested {value w : Value}
    (h : schema.outputNested onward value = some w) : schema.YieldsNested inner w := by
  have whole (hout : schema.outputMapping onward value = some w) :
      schema.YieldsNested inner w := by
    have yields := yields_of_outputMapping once keyed fills hout
    obtain ⟨_, _, -, -, -, ⟨-, rfl⟩ | ⟨_, -, rfl⟩⟩ := outputMapping_eq_some once hout
    · exact yields
    · exact yields
  cases value with
  | list items =>
    obtain ⟨results, hresults, rfl⟩ := Option.map_eq_some_iff.mp h
    intro result hresult
    obtain ⟨item, -, hitem⟩ :=
      (Rearranged.of_forall₂ (mapM_eq_some_iff.mp hresults)).back hresult
    exact yields_of_outputMapping once keyed fills hitem
  | _ => exact whole h

end Level

end Schema

theorem Nested.fillsIn_output {resolve : Resolver} (levels : Nat) {nested : Nested}
    (every : ∀ schema, resolve nested = some schema →
      schema.EveryLevel resolve fun level => level.names.Nodup ∧ level.WellKeyed) :
    FillsIn (Nested.output resolve levels) (Nested.Yields resolve levels) nested := by
  induction levels generalizing nested with
  | zero => exact ⟨nofun, nofun⟩
  | succ levels ih =>
    refine ⟨fun value w h => ?_, fun ty value w accepts fits h => ?_⟩
    · obtain ⟨schema, hresolve, h⟩ := Option.bind_eq_some_iff.mp h
      have here := every schema hresolve
      exact ⟨schema, hresolve, Schema.yieldsNested_of_outputNested here.self.1 here.self.2
        (fun inner mention => ih fun next resolved => here.nested mention resolved) h⟩
    · obtain ⟨schema, hresolve, h⟩ := Option.bind_eq_some_iff.mp h
      have here := every schema hresolve
      have same := Schema.isSome_output_outputNested here.self.1 accepts
        (Option.isSome_of_eq_some fits) h
      obtain ⟨again, hagain⟩ := Option.isSome_iff_exists.mp same
      rwa [Ty.output_eq_of_acceptsKeys accepts hagain] at hagain

/-- What validation returns is an output of the schema with nothing left to fill in. Specifications
are kept by name, so that no name comes twice in a level. -/
theorem accepted_output_conforms (producers : Producers) (schema : Schema) (value w : Value)
    (ctx : Context) (passes : schema.EveryLevel (ctx.resolver producers) (·.Passes producers))
    (once : schema.EveryLevel (ctx.resolver producers) (·.names.Nodup))
    (accepted : (schema.validate producers value ctx).outcome = .ok w) :
    schema.Yields (Nested.Yields (ctx.resolver producers) ctx.remaining) w := by
  have every : schema.EveryLevel (ctx.resolver producers) fun level =>
      level.names.Nodup ∧ level.WellKeyed := fun level reached =>
    ⟨once level reached, (passes level reached).wellKeyed⟩
  rw [← Run.result?_eq_some, Schema.result?_validate] at accepted
  exact Schema.yields_of_outputMapping every.self.1 every.self.2
    (fun nested mention => Nested.fillsIn_output ctx.remaining
      fun next resolved => every.nested mention resolved) accepted

def plainJob : Value :=
  .keywords [("steps", .list [.keywords [("name", .string "test")]]),
    ("after", .map [(.atom "ok", .list [.map [(.atom "name", .string "ship")]])]),
    ("name", .string "build")]

def filledJob : Value :=
  .keywords [("name", .string "build"), ("retries", .integer 2),
    ("steps", .list [.keywords [("name", .string "test"), ("retries", .integer 2)]]),
    ("after", .map [(.atom "ok",
      .list [.map [(.atom "name", .string "ship"), (.string "retries", .integer 2)]])])]

theorem filledJob_conforms :
    (Schema.jobSchema.validate (fun _ => .empty) plainJob Schema.jobs).outcome = .ok filledJob ∧
      Schema.jobSchema.Yields (Nested.Yields (Schema.jobs.resolver fun _ => .empty)
        Schema.jobs.remaining) filledJob := by
  have accepted : (Schema.jobSchema.validate (fun _ => .empty) plainJob Schema.jobs).outcome =
      .ok filledJob := rfl
  have once : Schema.jobSchema.EveryLevel (Schema.jobs.resolver fun _ => .empty)
      (·.names.Nodup) := Schema.jobSchema_everyLevel (by decide)
  exact ⟨accepted, accepted_output_conforms (fun _ => .empty) Schema.jobSchema plainJob filledJob
    Schema.jobs (Schema.jobSchema_everyLevel rfl) once accepted⟩

end OptionSchema
