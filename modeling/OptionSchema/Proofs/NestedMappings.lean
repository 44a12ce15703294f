import OptionSchema.Proofs.Echoes
import OptionSchema.Proofs.FailingWalk
import OptionSchema.Proofs.Schema.Checked
/-!
# Nested schemas are walked over mappings

Entering a nested schema does not look at the kind of the value. It need not: the definition rules
let nested schemas stand only on types whose values are mappings or lists of mappings. So what fails
further in for being no mapping is a map, and has a key that is neither a string nor an atom.
-/
namespace OptionSchema

namespace Value

def Nestable : Value → Prop
  | .list items => ∀ item ∈ items, item.isMapping = true
  | value => value.isMapping = true

def HasUnnamedKey (value : Value) : Prop :=
  ∃ pairs, value = .map pairs ∧ ∃ pair ∈ pairs, pair.1.identifier? = none

theorem nestable_of_isMapping {value : Value} (h : value.isMapping = true) : value.Nestable := by
  cases value with
  | list => cases h
  | _ => exact h

theorem hasUnnamedKey_of_unread {pairs : List (Value × Value)}
    (alone : (Value.map pairs).duplicateIdentifier? = none) (unread : namedEntries? pairs = none) :
    (Value.map pairs).HasUnnamedKey := by
  by_contra none
  have named : ∀ pair ∈ pairs, (entryOf? pair).isSome = true := by
    intro pair hpair
    rw [entryOf?, Option.isSome_map, Option.isSome_iff_ne_none]
    exact fun hnone => none ⟨pairs, rfl, pair, hpair, hnone⟩
  obtain ⟨entries, hentries⟩ := Option.isSome_iff_exists.mp (isSome_mapM_iff.mpr named)
  have items : List.Forall₂ NamedAs pairs entries :=
    (mapM_eq_some_iff.mp hentries).imp fun _ _ => entryOf?_eq_some_iff.mp
  rw [duplicateIdentifier?, filterMap_identifier? items, firstRepeated?_eq_none_iff] at alone
  have reads : namedEntries? pairs = some entries :=
    namedEntries?_eq_some_iff.mpr ⟨items, alone.1⟩
  cases unread.symm.trans reads

end Value

namespace Ty

variable {ty : Ty} {value w : Value}

theorem isMapping_of_admits (h : ty.isContainer = true) (admits : ty.admits value = true) :
    value.isMapping = true := by
  cases ty with
  | keywordList => cases value <;> first | rfl | cases admits
  | nonEmptyKeywordList => cases value <;> first | rfl | cases admits
  | map => cases value <;> first | rfl | cases admits
  | _ => cases h

theorem nestable_of_output {onward : Onward} (h : ty.acceptsKeys = true)
    (hout : ty.output onward value = some w) : w.Nestable := by
  have one : ∀ {container : Ty} {value w}, container.output onward value = some w →
      container.isContainer = true → w.isMapping = true := by
    intro container value w hout hcontainer
    obtain ⟨admits, rfl⟩ := (output_plain_eq_some (isPlain_of_isContainer hcontainer)).mp hout
    exact isMapping_of_admits hcontainer admits
  cases ty with
  | listOf item =>
    obtain ⟨items, results, rfl, rfl, each⟩ := output_listOf_eq_some hout
    intro result hresult
    obtain ⟨element, -, helement⟩ := (Rearranged.of_forall₂ each).back hresult
    exact one helement h
  | union alternatives =>
    obtain ⟨before, ty, after, rfl, hty, -⟩ := output_union_eq_some hout
    have containers := List.all_eq_true.mp (Bool.and_eq_true_iff.mp h).2
    exact Value.nestable_of_isMapping (one hty (containers ty (by simp)))
  | _ => exact Value.nestable_of_isMapping (one hout h)

theorem nestable_of_check {producers : Producers} {levels : Nat} {place : Place} {ctx : Context}
    (h : ty.acceptsKeys = true)
    (matched : (ty.check (Nested.enterWithin producers levels) place value ctx).outcome = .ok w) :
    w.Nestable := by
  rw [← Run.result?_eq_some,
    Ty.result?_check (Nested.returns_enterWithin producers ctx levels) ty place value ctx rfl]
    at matched
  exact nestable_of_output h matched

end Ty

namespace Failure

/-- The failure itself and the failures that caused it. -/
inductive Includes : Failure → Failure → Prop where
  | self (failure : Failure) : Includes failure failure
  | cause {failure cause part : Failure} (h : cause ∈ failure.causes) (rest : Includes cause part) :
      Includes failure part

/-- What the failure, or one behind it, calls no mapping is a map with an unnamed key. -/
def OverMaps (failure : Failure) : Prop :=
  ∀ part shown, failure.Includes part → part.unnested = .notAMapping shown → shown.HasUnnamedKey

variable {failure : Failure} {place : Place}

theorem overMaps_iff : failure.OverMaps ↔
    (∀ shown, failure.unnested = .notAMapping shown → shown.HasUnnamedKey) ∧
      ∀ cause ∈ failure.causes, cause.OverMaps := by
  constructor
  · intro h
    exact ⟨fun shown => h failure shown (.self failure), fun cause hcause part shown hpart =>
      h part shown (.cause hcause hpart)⟩
  · rintro ⟨here, behind⟩ part shown (_ | ⟨hcause, hpart⟩) heq
    · exact here shown heq
    · exact behind _ hcause part shown hpart heq

theorem overMaps_of_place (inner : failure.place ≠ .root)
    (behind : ∀ cause ∈ failure.causes, cause.OverMaps) : failure.OverMaps :=
  overMaps_iff.mpr ⟨fun _ heq => absurd (congrArg Failure.place heq) inner, behind⟩

theorem overMaps_of_alone (inner : failure.place ≠ .root) (alone : failure.causes = []) :
    failure.OverMaps := by
  refine overMaps_of_place inner fun cause hcause => ?_
  rw [alone] at hcause
  cases hcause

theorem OverMaps.nest (h : failure.OverMaps) (segment : Segment) :
    (failure.nest segment).OverMaps := by
  rw [overMaps_iff] at h ⊢
  exact h

theorem OverMaps.within (h : failure.OverMaps) (inner : place ≠ .root) (noun : String)
    (composite : Value) : (failure.within noun place composite).OverMaps := by
  rw [Failure.within]
  split
  · exact h.nest _
  · refine overMaps_of_place inner fun cause hcause => ?_
    obtain rfl := List.mem_singleton.mp hcause
    exact h

/-- The two reasons not to walk a map are told apart by their messages. -/
theorem ambiguousKey_ne_notAMapping (name : String) (value shown : Value) :
    ambiguousKey name value ≠ notAMapping shown := by
  intro h
  have message := congrArg (fun failure => failure.message.toList[15]?) h
  simp [ambiguousKey, notAMapping, new, withValue] at message

theorem overMaps_ambiguousKey (name : String) (value : Value) :
    (ambiguousKey name value).OverMaps :=
  overMaps_iff.mpr ⟨fun shown heq => absurd heq (ambiguousKey_ne_notAMapping name value shown),
    nofun⟩

theorem overMaps_notAMapping {value : Value} (h : value.HasUnnamedKey) :
    (notAMapping value).OverMaps := by
  refine overMaps_iff.mpr ⟨fun shown heq => ?_, nofun⟩
  obtain rfl : value = shown := Option.some.inj (congrArg Failure.value heq)
  exact h

end Failure

structure OverMappings (error : Option Failure) (journal : List Note) : Prop where
  entered : ∀ level mapping here, .entered level mapping here ∈ journal → mapping.isMapping = true
  failed : ∀ failure, error = some failure → failure.OverMaps

namespace OverMappings

variable {error : Option Failure} {journal : List Note} {f : Failure → Failure}

theorem sequential : Run.Promise.Sequential OverMappings where
  nothing := ⟨nofun, nofun⟩
  append first second := by
    refine ⟨fun level mapping here hmem => ?_, second.failed⟩
    rcases List.mem_append.mp hmem with hmem | hmem
    · exact first.entered level mapping here hmem
    · exact second.entered level mapping here hmem

theorem of_failure {failure : Failure} (h : failure.OverMaps) : OverMappings (some failure) [] := by
  refine ⟨nofun, ?_⟩
  rintro _ ⟨⟩
  exact h

theorem of_note {note : Note} (h : ∀ level mapping here, .entered level mapping here = note →
    mapping.isMapping = true) : OverMappings none [note] :=
  ⟨fun level mapping here hmem => h level mapping here (List.mem_singleton.mp hmem), nofun⟩

theorem of_failed (h : OverMappings error journal) : OverMappings none journal :=
  ⟨h.entered, nofun⟩

theorem map (h : OverMappings error journal) (keeps : ∀ failure, failure.OverMaps →
    (f failure).OverMaps) : OverMappings (error.map f) journal := by
  refine ⟨h.entered, fun failure heq => ?_⟩
  obtain ⟨own, hown, rfl⟩ := Option.map_eq_some_iff.mp heq
  exact keeps own (h.failed own hown)

end OverMappings

variable {producers : Producers} {schema : Schema} {registry : Option Registry} {levels : Nat}
  {ctx : Context}

def Nested.EntersMappings (producers : Producers) (registry : Option Registry) (levels : Nat)
    (nested : Nested) : Prop :=
  ∀ place value (ctx : Context), ctx.registry = registry → place ≠ .root → value.Nestable →
    (Nested.enterWithin producers levels nested place value ctx).Keeps OverMappings

namespace Ty

section Union

variable {enter : Enter} {types : List Ty} {place : Place} {value : Value}

theorem overMappings_checkAny
    (h : ∀ ty ∈ types, (ty.check enter place value ctx).Keeps OverMappings) :
    (checkAny enter types place value ctx).Keeps fun causes journal =>
      OverMappings none journal ∧ ∀ failed, causes = some failed →
        ∀ cause ∈ failed, cause.OverMaps := by
  induction types with
  | nil =>
    refine ⟨OverMappings.sequential.nothing, ?_⟩
    rintro _ ⟨⟩ cause hcause
    cases hcause
  | cons ty types ih =>
    rw [List.forall_mem_cons] at h
    obtain ⟨first, others⟩ := h
    obtain ⟨later, causes⟩ := ih others
    have tried : OverMappings none (ty.check enter place value ctx).journal := first.of_failed
    rw [checkAny, Run.orCollect]
    cases hfirst : (ty.check enter place value ctx).outcome with
    | ok result => exact ⟨tried, by rintro _ ⟨⟩⟩
    | error failure =>
      refine ⟨OverMappings.sequential.append tried later, fun failed hfailed => ?_⟩
      obtain ⟨rest, hrest, rfl⟩ := Run.mapError_eq_error (Run.error?_eq_some.mp hfailed)
      have own := first.failed failure (Run.error?_eq_some.mpr hfirst)
      exact List.forall_mem_cons.mpr ⟨own, causes rest (Run.error?_eq_some.mpr hrest)⟩

theorem overMappings_union (inner : place ≠ .root)
    (h : ∀ ty ∈ types, (ty.check enter place value ctx).Keeps OverMappings) :
    ((union types).check enter place value ctx).Keeps OverMappings := by
  obtain ⟨tried, causes⟩ := overMappings_checkAny h
  rw [check]
  refine .mapError ⟨tried.entered, fun failure heq => ?_⟩
  obtain ⟨failed, hfailed, rfl⟩ := Option.map_eq_some_iff.mp heq
  exact Failure.overMaps_of_place inner (causes failed hfailed)

end Union

theorem overMappings_check (wellKeyed : schema.WellKeyed)
    (nested : ∀ nested, schema.Mentions nested → nested.EntersMappings producers registry levels)
    (hregistry : ctx.registry = registry) {ty : Ty} (hty : ty ∈ schema.types) {place : Place}
    (inner : place ≠ .root) {value : Value} :
    (ty.check (Nested.enterWithin producers levels) place value ctx).Keeps OverMappings := by
  induction ty using Ty.parts_induction generalizing place value ctx with
  | step ty ih =>
    have seq := OverMappings.sequential
    have parts : ∀ sub ∈ ty.parts, ∀ {place item} {here : Context}, here.registry = registry →
        place ≠ .root → (sub.check (Nested.enterWithin producers levels) place item here).Keeps
          OverMappings := fun sub hsub _ _ _ hregistry inner =>
      ih sub hsub hregistry (Schema.mem_types_of_subterm hty
        (Ty.subterms_of_part hsub (Ty.self_mem_subterms sub))) inner
    -- Elements are matched one step further in, and what fails there is reported at `place`.
    have within : ∀ noun composite, ∀ sub ∈ ty.parts, ∀ part item, part ≠ .root →
        (sub.check (Nested.enterWithin producers levels) part item (ctx.step place.segment)).Keeps
          (Run.Promise.before OverMappings (·.within noun place composite)) :=
      fun noun composite sub hsub part item apart =>
        OverMappings.map (parts sub hsub hregistry apart)
          fun _ holds => holds.within inner noun composite
    have mismatch : (Run.fail (.mismatch ty place value) : Run Failure Value).Keeps OverMappings :=
      .of_failure (Failure.overMaps_of_alone inner rfl)
    by_cases plain : ty.isPlain = true
    · rw [Ty.check_of_isPlain plain]
      split
      · exact .succeed seq value
      · exact mismatch
    cases ty with
    | mapOf keyTy valueTy =>
      cases value with
      | map pairs =>
        rw [Ty.check]
        refine .map seq (.mapError (.traverse (seq.before _) fun pair _ => ?_))
        refine (within "map" _ keyTy (by simp [Ty.parts]) .mapKey _ (by simp)).bind
          (seq.before _) fun key => ?_
        exact (within "map" _ valueTy (by simp [Ty.parts]) (.mapValue key) _ (by simp)).returning
          (seq.before _)
      | _ => exact mismatch
    | custom validator =>
      rw [Ty.check]
      cases validator.call value with
      | ok result => exact .succeed seq result
      | error reason => exact .of_failure (Failure.overMaps_of_alone inner rfl)
    | union alternatives =>
      exact overMappings_union inner fun ty hmem => parts ty hmem hregistry inner
    | listOf item =>
      cases value with
      | list items =>
        rw [Ty.check]
        refine .map seq (.mapError (.traverseFrom (seq.before _) fun index element _ => ?_))
        exact within "list" _ item (by simp [Ty.parts]) _ _ (by simp)
      | _ => exact mismatch
    | tuple types =>
      cases value with
      | tuple items =>
        rw [Ty.check]
        split
        · refine .map seq (.mapError (MatchInvariant.keeps_checkEach (seq.before _) ?_))
          exact fun ty hmem _ _ => within "tuple" _ ty hmem _ _ (by simp)
        · exact mismatch
      | _ => exact mismatch
    | keyed container keys =>
      have hcontainer := wellKeyed.keyed container keys hty
      rw [Ty.check]
      refine (parts container (by simp [Ty.parts]) hregistry inner).bind_outcome seq ?_
      exact fun matched hmatched => nested keys (.type hty) place matched ctx hregistry inner
        (nestable_of_check (acceptsKeys_of_isContainer hcontainer) hmatched)
    | _ => exact absurd rfl plain

end Ty

namespace Schema

section Level

variable (wellKeyed : schema.WellKeyed)
  (nested : ∀ nested, schema.Mentions nested → nested.EntersMappings producers registry levels)
  (hregistry : ctx.registry = registry)

include wellKeyed nested hregistry

theorem overMappings_checkKey {own name : String} {spec : KeySpec} (h : (own, spec) ∈ schema.keys)
    (value : Value) :
    (spec.check (Nested.enterWithin producers levels) name value ctx).Keeps OverMappings := by
  have hty := mem_types h (Ty.self_mem_subterms spec.ty)
  have inner : Place.key name ≠ .root := nofun
  refine (Ty.overMappings_check wellKeyed nested hregistry hty inner).bind_outcome
    OverMappings.sequential fun matched hmatched => ?_
  cases hnested : spec.nested with
  | none => exact .succeed OverMappings.sequential matched
  | some keys =>
    have accepts := wellKeyed.keys _ h (Option.isSome_of_eq_some hnested)
    exact nested keys (.key h hnested) _ matched ctx hregistry inner
      (Ty.nestable_of_check accepts hmatched)

theorem overMappings_walkEntries (input : List (String × Value)) :
    (schema.walkEntries (Nested.enterWithin producers levels) input ctx).Keeps OverMappings := by
  have seq := OverMappings.sequential
  refine .walkEntries seq (fun _ _ _ => ?_) fun name own spec hown _ => ?_
  · exact .of_failure (Failure.overMaps_of_alone (by rintro ⟨⟩) rfl)
  · refine .contribute seq (fun advice => .of_note (by rintro _ _ _ ⟨⟩)) (fun _ _ => ?_)
      fun value => ?_
    · exact .of_failure (Failure.overMaps_of_alone (by rintro ⟨⟩) rfl)
    · exact overMappings_checkKey wellKeyed nested hregistry hown value

/-- Walking a mapping that turns out not to be one: it is a map, and the failure says why. -/
theorem overMappings_walk {value : Value} (h : value.isMapping = true) :
    (schema.walk (Nested.enterWithin producers levels) value ctx).Keeps OverMappings := by
  have entered : OverMappings none [.entered schema value ctx] :=
    .of_note fun level mapping here heq => by cases heq; exact h
  refine .walk OverMappings.sequential entered (fun name _ => ?_) (fun alone unread => ?_)
    (overMappings_walkEntries wellKeyed nested hregistry)
  · exact .of_failure (Failure.overMaps_ambiguousKey name _)
  · cases value with
    | keywords => cases unread
    | map pairs =>
      have unnamed := Value.hasUnnamedKey_of_unread alone unread
      exact .of_failure (Failure.overMaps_notAMapping unnamed)
    | _ => cases h

theorem overMappings_walkNested {value : Value} (h : value.Nestable) :
    (schema.walkNested (Nested.enterWithin producers levels) value ctx).Keeps OverMappings := by
  have seq := OverMappings.sequential
  cases value with
  | list items =>
    refine .map seq (.traverseFrom seq fun index item hitem => .mapError ?_)
    have stepped : (ctx.step (.index index)).registry = registry := hregistry
    have walked := overMappings_walk wellKeyed nested stepped (h item hitem)
    exact OverMappings.map walked fun _ holds => holds.nest _
  | _ => exact overMappings_walk wellKeyed nested hregistry h

end Level

end Schema

theorem Nested.entersMappings (levels : Nat) {nested : Nested}
    (every : ∀ next, ctx.resolver producers nested = some next →
      next.EveryLevel (ctx.resolver producers) Schema.WellKeyed) :
    nested.EntersMappings producers ctx.registry levels := by
  induction levels generalizing nested with
  | zero =>
    intro place value here _ inner _
    have limit : OverMappings none [.limitReached place here] := .of_note (by rintro _ _ _ ⟨⟩)
    exact OverMappings.sequential.append limit
      (.of_failure (Failure.overMaps_of_alone inner rfl))
  | succ levels ih =>
    intro place value here hregistry inner nestable
    rcases Nested.enterWithin_succ producers levels nested place value hregistry with
      ⟨name, -, failed⟩ | ⟨next, resolved, walks⟩
    · rw [failed]
      exact .of_failure (Failure.overMaps_of_alone inner rfl)
    · rw [walks]
      have below := every next resolved
      have descended : (here.descend place.segment).registry = ctx.registry := hregistry
      have walked := Schema.overMappings_walkNested below.self
        (fun _ mention => ih fun _ resolved => below.nested mention resolved) descended nestable
      exact .mapError (OverMappings.map walked fun _ holds => holds.nest _)

/-- Every level below the top one is entered over a keyword list or a map. What fails below for not
being a mapping is a map with a key that is neither a string nor an atom. -/
theorem nested_walks_over_mappings (producers : Producers) (schema : Schema) (value : Value)
    (ctx : Context)
    (passes : schema.EveryLevel (ctx.resolver producers) (·.Passes producers)) :
    (∃ below, (schema.validate producers value ctx).journal = .entered schema value ctx :: below ∧
      ∀ level mapping here, .entered level mapping here ∈ below → mapping.isMapping = true) ∧
    ∀ failure part shown, (schema.validate producers value ctx).outcome = .error failure →
      failure.Includes part → part.path ≠ .root → part.unnested = .notAMapping shown →
        shown.HasUnnamedKey := by
  have wellKeyed : schema.EveryLevel (ctx.resolver producers) Schema.WellKeyed :=
    fun level reached => (passes level reached).wellKeyed
  have entered : (schema.validate producers value ctx).journal = .entered schema value ctx ::
      (schema.walkMapping (Nested.enterWithin producers ctx.remaining) value ctx).journal := rfl
  by_cases mapping : value.isMapping = true
  · have walked : (schema.validate producers value ctx).Keeps OverMappings :=
      Schema.overMappings_walk wellKeyed.self (fun nested mention => Nested.entersMappings _
        fun _ resolved => wellKeyed.nested mention resolved) rfl mapping
    refine ⟨⟨_, entered, fun level inner here hmem => ?_⟩, ?_⟩
    · exact walked.entered level inner here (entered ▸ List.mem_cons_of_mem _ hmem)
    · intro failure part shown failed includes _ unnested
      exact walked.failed failure (Run.error?_eq_some.mpr failed) part shown includes unnested
  -- The input itself is no mapping: nothing is entered below, and the only failure is its own.
  · have refused : schema.walkMapping (Nested.enterWithin producers ctx.remaining) value ctx =
        .fail (.notAMapping value) := by
      cases value <;> first | rfl | exact absurd rfl mapping
    refine ⟨⟨[], by rw [entered, refused]; rfl, nofun⟩, ?_⟩
    intro failure part shown failed includes inner _
    have outcome : (schema.validate producers value ctx).outcome = .error (.notAMapping value) := by
      rw [Schema.validate, Schema.walk, refused]
      rfl
    rw [outcome] at failed
    cases failed
    cases includes with
    | self => exact absurd rfl inner
    | cause hcause => cases hcause

def numberedJob : Value :=
  .keywords [("name", .string "build"), ("after", .map [(.atom "ok",
    .list [.map [(.string "name", .string "test")], .map [(.integer 1, .null)]])])]

theorem numberedJob_walked :
    let run := Schema.jobSchema.validate (fun _ => .empty) numberedJob Schema.jobs
    (∃ below, run.journal = .entered Schema.jobSchema numberedJob Schema.jobs :: below ∧
      below.length = 2 ∧
      ∀ level mapping here, .entered level mapping here ∈ below → mapping.isMapping = true) ∧
    ∃ failure, run.outcome = .error failure ∧
      failure.path = [.key "after", .key "ok", .index 1] ∧
      (Value.map [(.integer 1, .null)]).HasUnnamedKey := by
  have passes : Schema.jobSchema.EveryLevel (Schema.jobs.resolver fun _ => .empty)
      (·.Passes fun _ => .empty) := Schema.jobSchema_everyLevel rfl
  obtain ⟨⟨below, entered, mappings⟩, failures⟩ :=
    nested_walks_over_mappings (fun _ => .empty) Schema.jobSchema numberedJob Schema.jobs passes
  have failed : (Schema.jobSchema.validate (fun _ => .empty) numberedJob Schema.jobs).outcome =
      .error _ := rfl
  refine ⟨⟨below, entered, ?_, mappings⟩, _, failed, rfl, ?_⟩
  · exact Nat.succ.inj (congrArg List.length entered).symm
  · exact failures _ _ _ failed (.self _) nofun rfl

end OptionSchema
