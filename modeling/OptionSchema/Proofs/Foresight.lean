import OptionSchema.Proofs.Acceptance
import OptionSchema.Proofs.Likeness
/-!
# What a run foretells about runs with more schemas registered

Where a reference is missing, a run may fail that would succeed once the schema is registered. A
failure that has no missing reference in it, nor in any of its causes, is settled: nothing that is
registered later mends it. Neither does it spoil a success, for as long as nested schemas stand on
containers only; the value that is returned may change, as an earlier alternative may come to match.
-/
namespace OptionSchema

namespace Failure

inductive Involves (kind : FailureKind) : Failure → Prop where
  | here {failure : Failure} (h : failure.kind = kind) : Involves kind failure
  | cause {failure cause : Failure} (h : cause ∈ failure.causes) (involved : Involves kind cause) :
      Involves kind failure

theorem involves_iff {kind : FailureKind} {failure : Failure} :
    failure.Involves kind ↔
      failure.kind = kind ∨ ∃ cause ∈ failure.causes, cause.Involves kind := by
  constructor
  · intro h
    cases h with
    | here h => exact Or.inl h
    | cause h involved => exact Or.inr ⟨_, h, involved⟩
  · rintro (h | ⟨cause, h, involved⟩)
    · exact .here h
    · exact .cause h involved

theorem involves_nest {kind : FailureKind} {failure : Failure} {segment : Segment} :
    (failure.nest segment).Involves kind ↔ failure.Involves kind := by
  rw [involves_iff, nest, @involves_iff kind failure]

theorem involves_within {kind : FailureKind} {failure : Failure} {noun : String} {place : Place}
    {composite : Value} :
    (failure.within noun place composite).Involves kind ↔ failure.Involves kind := by
  rw [within]
  split
  · exact involves_nest
  · constructor
    · intro h
      rcases involves_iff.mp h with h | ⟨cause, hcause, involved⟩
      · exact .here h
      · exact List.mem_singleton.mp hcause ▸ involved
    · exact .cause (List.mem_singleton_self failure)

def Unsettled (failure : Failure) : Prop := failure.Involves .unresolvedReference

theorem not_unsettled_of_kind {failure : Failure}
    (other : (failure.kind == .unresolvedReference) = false) (alone : failure.causes = []) :
    ¬ failure.Unsettled := by
  intro unsettled
  rcases involves_iff.mp unsettled with heq | ⟨cause, hcause, -⟩
  · exact beq_eq_false_iff_ne.mp other heq
  · rw [alone] at hcause
    cases hcause

theorem unsettled_exhausted {place : Place} {value : Value} {causes : List Failure} :
    (exhausted place value causes).Unsettled ↔ ∃ cause ∈ causes, cause.Unsettled := by
  rw [Unsettled, involves_iff]
  constructor
  · rintro (h | h)
    · cases h
    · exact h
  · exact Or.inr

end Failure

namespace Run

variable {ε δ α β : Type} {unsettled : ε → Prop} {missing p q : Prop} {run : Run ε α}

/-- The run tells whether `p` will hold, unless it ends in an unsettled error, which takes something
`missing`. -/
structure Foretells (unsettled : ε → Prop) (missing p : Prop) (run : Run ε α) : Prop where
  accepts : ∀ value, run.outcome = .ok value → p
  rejects : ∀ error, run.outcome = .error error → ¬ unsettled error → ¬ p
  lacks : ∀ error, run.outcome = .error error → unsettled error → missing

namespace Foretells

theorem of_ok {value : α} (ok : run.outcome = .ok value) (h : p) :
    run.Foretells unsettled missing p where
  accepts _ _ := h
  rejects _ failed := nomatch ok.symm.trans failed
  lacks _ failed := nomatch ok.symm.trans failed

theorem of_error {error : ε} (failed : run.outcome = .error error)
    (rejects : ¬ unsettled error → ¬ p) (lacks : unsettled error → missing) :
    run.Foretells unsettled missing p where
  accepts value hvalue := nomatch failed.symm.trans hvalue
  rejects other hother := by
    cases failed.symm.trans hother
    exact rejects
  lacks other hother := by
    cases failed.symm.trans hother
    exact lacks

theorem of_settled {error : ε} (failed : run.outcome = .error error) (settled : ¬ unsettled error)
    (h : ¬ p) : run.Foretells unsettled missing p :=
  of_error failed (fun _ => h) fun h => absurd h settled

theorem of_outcome {other : Run ε α} (h : other.Foretells unsettled missing p)
    (same : run.outcome = other.outcome) : run.Foretells unsettled missing p where
  accepts value hvalue := h.accepts value (same ▸ hvalue)
  rejects error herror := h.rejects error (same ▸ herror)
  lacks error herror := h.lacks error (same ▸ herror)

theorem congr (h : run.Foretells unsettled missing p) (hiff : p ↔ q) :
    run.Foretells unsettled missing q := propext hiff ▸ h

theorem bind {next : α → Run ε β} (h : run.Foretells unsettled missing p)
    (hnext : ∀ value, run.outcome = .ok value → (next value).Foretells unsettled missing q) :
    (run >>= next).Foretells unsettled missing (p ∧ q) := by
  obtain ⟨outcome, journal⟩ := run
  cases outcome with
  | error error =>
    exact of_error rfl (fun settled both => h.rejects error rfl settled both.1) (h.lacks error rfl)
  | ok value =>
    have onward := hnext value rfl
    exact ⟨fun result hresult => ⟨h.accepts value rfl, onward.accepts result hresult⟩,
      fun error herror settled both => onward.rejects error herror settled both.2,
      fun error herror => onward.lacks error herror⟩

/-- What is made of the result without failing foretells nothing new. -/
theorem returning {f : α → β} (h : run.Foretells unsettled missing p) :
    (run >>= fun value => Run.succeed (f value)).Foretells unsettled missing p :=
  (h.bind fun _ _ => of_ok rfl trivial).congr (and_iff_left trivial)

theorem map {f : α → β} (h : run.Foretells unsettled missing p) :
    (f <$> run).Foretells unsettled missing p := h.returning

theorem mapError {f : ε → δ} {unsettled' : δ → Prop} (h : run.Foretells unsettled missing p)
    (hf : ∀ error, unsettled' (f error) ↔ unsettled error) :
    (run.mapError f).Foretells unsettled' missing p := by
  obtain ⟨outcome, journal⟩ := run
  cases outcome with
  | ok value => exact of_ok rfl (h.accepts value rfl)
  | error error =>
    refine of_error rfl (fun settled => h.rejects error rfl ?_) fun hunsettled => ?_
    · rwa [← hf]
    · exact h.lacks error rfl ((hf error).mp hunsettled)

theorem orCollect {next : Unit → Run (List ε) α} (h : run.Foretells unsettled missing p)
    (hnext : (next ()).Foretells (fun errors => ∃ error ∈ errors, unsettled error) missing q) :
    (run.orCollect next).Foretells (fun errors => ∃ error ∈ errors, unsettled error) missing
      (p ∨ q) := by
  obtain ⟨outcome, journal⟩ := run
  cases outcome with
  | ok value => exact of_ok rfl (Or.inl (h.accepts value rfl))
  | error error =>
    cases htail : (next ()).outcome with
    | ok value =>
      have matched : (Run.orCollect ⟨.error error, journal⟩ next).outcome = .ok value := by
        simp only [Run.orCollect, htail, Except.mapError]
      exact of_ok matched (Or.inr (hnext.accepts value htail))
    | error errors =>
      have failed : (Run.orCollect ⟨.error error, journal⟩ next).outcome =
          .error (error :: errors) := by simp only [Run.orCollect, htail, Except.mapError]
      refine of_error failed (fun settled => ?_) ?_
      · rw [List.exists_mem_cons_iff, not_or] at settled
        rw [not_or]
        exact ⟨h.rejects error rfl settled.1, hnext.rejects errors htail settled.2⟩
      · rw [List.exists_mem_cons_iff]
        rintro (head | tail)
        · exact h.lacks error rfl head
        · exact hnext.lacks errors htail tail

theorem traverse {f : α → Run ε β} {P : α → Prop} {items : List α}
    (h : ∀ item, (f item).Foretells unsettled missing (P item)) :
    (Run.traverse f items).Foretells unsettled missing (∀ item ∈ items, P item) := by
  induction items with
  | nil => exact of_ok rfl (fun _ hmem => nomatch hmem)
  | cons item items ih =>
    rw [List.forall_mem_cons]
    exact (h item).bind fun _ _ => ih.returning

theorem traverseFrom {f : Nat → α → Run ε β} {P : α → Prop} {items : List α} {position : Nat}
    (h : ∀ index item, (f index item).Foretells unsettled missing (P item)) :
    (Run.traverseFrom f position items).Foretells unsettled missing (∀ item ∈ items, P item) := by
  induction items generalizing position with
  | nil => exact of_ok rfl (fun _ hmem => nomatch hmem)
  | cons item items ih =>
    rw [List.forall_mem_cons]
    exact (h position item).bind fun _ _ => ih.returning

end Foretells

end Run

section Walk

variable {missing : Prop} {enter : Enter} {before onward : Onward} {registry : Option Registry}

abbrev Run.ForetellsSome {α β : Type} (missing : Prop) (run : Run Failure α) (later : Option β) :
    Prop :=
  run.Foretells Failure.Unsettled missing (later.isSome = true)

def Enter.Foretells (missing : Prop) (registry : Option Registry) (enter : Enter) (onward : Onward)
    (nested : Nested) : Prop :=
  ∀ place value (ctx : Context), ctx.registry = registry →
    (enter nested place value ctx).ForetellsSome missing (onward nested value)

namespace Ty

theorem foretells_checkAny {types : List Ty} {place : Place} {value : Value} {ctx : Context}
    {P : Ty → Prop} (h : ∀ ty ∈ types,
      (ty.check enter place value ctx).Foretells Failure.Unsettled missing (P ty)) :
    (checkAny enter types place value ctx).Foretells
      (fun failures => ∃ failure ∈ failures, failure.Unsettled) missing (∃ ty ∈ types, P ty) := by
  induction types with
  | nil => exact .of_settled rfl (by simp) (by simp)
  | cons ty types ih =>
    rw [List.forall_mem_cons] at h
    rw [List.exists_mem_cons_iff]
    exact h.1.orCollect (ih h.2)

theorem foretells_checkEach {types : List Ty} {index : Nat} {items : List Value} {ctx : Context}
    {P : Ty → Value → Prop} (size : types.length = items.length) (h : ∀ ty ∈ types, ∀ place value,
      (ty.check enter place value ctx).Foretells Failure.Unsettled missing (P ty value)) :
    (checkEach enter types index items ctx).Foretells Failure.Unsettled missing
      (List.Forall₂ P types items) := by
  induction types generalizing index items with
  | nil =>
    obtain rfl := List.length_eq_zero_iff.mp size.symm
    exact .of_ok rfl .nil
  | cons ty types ih =>
    rw [List.forall_mem_cons] at h
    cases items with
    | nil => cases size
    | cons item items =>
      rw [List.forall₂_cons]
      exact (h.1 _ item).bind fun _ _ => (ih (Nat.succ_inj.mp size) h.2).returning

/-- Nested schemas stand on containers, which return the value that they were given. -/
theorem foretells_check {ty : Ty}
    (containers : ∀ container nested, .keyed container nested ∈ ty.subterms →
      container.isContainer = true)
    (nested : ∀ container nested, .keyed container nested ∈ ty.subterms →
      enter.Foretells missing registry onward nested) {place : Place} {value : Value}
    {ctx : Context} (hctx : ctx.registry = registry) :
    (ty.check enter place value ctx).ForetellsSome missing (ty.output onward value) := by
  induction ty using parts_induction generalizing place value ctx with
  | step ty ih =>
    have part : ∀ sub ∈ ty.parts, ∀ place value (ctx : Context), ctx.registry = registry →
        (sub.check enter place value ctx).ForetellsSome missing (sub.output onward value) :=
      fun sub hsub _ _ _ => ih sub hsub
        (fun container inner h => containers container inner (subterms_of_part hsub h))
        (fun container inner h => nested container inner (subterms_of_part hsub h))
    have mismatch : ¬ (ty.output onward value).isSome →
        (Run.fail (.mismatch ty place value) : Run Failure Value).ForetellsSome missing
          (ty.output onward value) :=
      .of_settled rfl (Failure.not_unsettled_of_kind rfl rfl)
    have inner : (ctx.step place.segment).registry = registry := hctx
    by_cases plain : ty.isPlain = true
    · rw [check_of_isPlain plain]
      have output : ty.output onward value = if ty.admits value then some value else none :=
        output_of_isPlain plain value
      split
      · exact .of_ok rfl (by simp [*])
      · exact mismatch (by simp [*])
    cases ty with
    | mapOf keyTy valueTy =>
      cases value with
      | map pairs =>
        have each : ((mapOf keyTy valueTy).output onward (.map pairs)).isSome ↔ ∀ pair ∈ pairs,
            (keyTy.output onward pair.1).isSome ∧ (valueTy.output onward pair.2).isSome := by
          simp [isSome_output_mapOf_iff]
        rw [check, Run.ForetellsSome, each]
        refine .map (.mapError (.traverse fun pair => ?_) fun _ => Failure.involves_within)
        refine (part keyTy (by simp [parts]) .mapKey pair.1 _ inner).bind fun key _ => ?_
        exact (part valueTy (by simp [parts]) (.mapValue key) pair.2 _ inner).returning
      | _ => exact mismatch Bool.false_ne_true
    | custom validator =>
      rw [check, output]
      cases validator.call value with
      | ok result => exact .of_ok rfl rfl
      | error reason =>
        exact .of_settled rfl (Failure.not_unsettled_of_kind rfl rfl) Bool.false_ne_true
    | union alternatives =>
      rw [check, Run.ForetellsSome, output, outputAny_eq_findSome?, List.findSome?_isSome_iff]
      refine .mapError (foretells_checkAny fun ty hty => ?_) fun _ => Failure.unsettled_exhausted
      exact part ty hty place value ctx hctx
    | listOf item =>
      cases value with
      | list items =>
        have each : ((listOf item).output onward (.list items)).isSome ↔
            ∀ element ∈ items, (item.output onward element).isSome := by
          simp [isSome_output_listOf_iff]
        rw [check, Run.ForetellsSome, each]
        refine .map (.mapError (.traverseFrom fun index element => ?_)
          fun _ => Failure.involves_within)
        exact part item (by simp [parts]) (.position index) element _ inner
      | _ => exact mismatch Bool.false_ne_true
    | tuple types =>
      cases value with
      | tuple items =>
        rw [check]
        by_cases size : types.length = items.length
        · have each : ((tuple types).output onward (.tuple items)).isSome ↔
              List.Forall₂ (fun ty item => (ty.output onward item).isSome) types items := by
            simp [isSome_output_tuple_iff]
          rw [if_pos size, Run.ForetellsSome, each]
          refine .map (.mapError (foretells_checkEach size fun ty hty place value => ?_)
            fun _ => Failure.involves_within)
          exact part ty hty place value _ inner
        · rw [if_neg size]
          refine mismatch ?_
          rw [output, if_neg size]
          exact Bool.false_ne_true
      | _ => exact mismatch Bool.false_ne_true
    | keyed container inner =>
      have plain := isPlain_of_isContainer (containers container inner (self_mem_subterms _))
      have onContainer := part container (by simp [parts]) place value ctx hctx
      have each : ((keyed container inner).output onward value).isSome ↔
          (container.output onward value).isSome ∧ (onward inner value).isSome := by
        rw [isSome_output_keyed_iff plain, output_of_isPlain plain]
        split <;> simp [*]
      rw [check, Run.ForetellsSome, each]
      -- What goes on into the nested schema is the given value, now as later, whatever was matched.
      refine onContainer.bind fun matched hmatched => ?_
      obtain rfl : matched = value := by
        rw [check_of_isPlain plain] at hmatched
        split at hmatched
        · exact (Except.ok.inj hmatched).symm
        · cases hmatched
      exact nested container inner (self_mem_subterms _) place matched ctx hctx
    | _ => exact absurd rfl plain

end Ty

variable {schema : Schema} {ctx : Context} (returns : enter.Returns before registry)

section Key

variable {name own : String} {spec : KeySpec} (keyed : schema.WellKeyed)
  (nested : ∀ nested, schema.Mentions nested → enter.Foretells missing registry onward nested)
  (h : (own, spec) ∈ schema.keys) (hctx : ctx.registry = registry)

include returns keyed nested h hctx

theorem KeySpec.foretells_check {value : Value} :
    (spec.check enter name value ctx).ForetellsSome missing (spec.output onward value) := by
  have keys : spec.nested.isSome → spec.ty.acceptsKeys = true := keyed.keys (own, spec) h
  have checked : (spec.ty.check enter (.key name) value ctx).ForetellsSome missing
      (spec.ty.output onward value) := Ty.foretells_check
    (fun container inner hsub => keyed.keyed container inner (Schema.mem_types h hsub))
    (fun container inner hsub => nested inner (.type (Schema.mem_types h hsub))) hctx
  refine Run.Foretells.congr (checked.bind fun matched hmatched => ?_) (isSome_output keys).symm
  cases hnested : spec.nested with
  | none => exact .of_ok rfl nofun
  | some inner =>
    have output : spec.ty.output before value = some matched := by
      rw [← Ty.result?_check returns spec.ty (.key name) value ctx hctx]
      exact Run.result?_eq_some.mpr hmatched
    obtain rfl := Ty.output_eq_of_acceptsKeys (keys (Option.isSome_of_eq_some hnested)) output
    exact (nested inner (.key h hnested) _ matched ctx hctx).congr (by simp)

theorem KeySpec.foretells_contribute {input : List (String × Value)} :
    (spec.contribute enter input ctx name).ForetellsSome missing
      (contribution onward input (name, spec)) := by
  have checked : ∀ value, (spec.check enter name value ctx).ForetellsSome missing
      (spec.output onward value) := fun _ => foretells_check returns keyed nested h hctx
  rw [contribute, contribution, candidate?]
  cases input.lookup name with
  | some value =>
    have warned : (spec.warn name ctx).Foretells Failure.Unsettled missing True := by
      unfold warn
      cases spec.deprecated <;> exact .of_ok rfl trivial
    exact (warned.bind fun _ _ => (checked value).map).congr (by simp)
  | none =>
    cases spec.required with
    | true => exact .of_settled rfl (Failure.not_unsettled_of_kind rfl rfl) (by simp)
    | false =>
      cases spec.default with
      | none => exact .of_ok rfl (by simp)
      | some value => exact (checked value).map.congr (by simp)

end Key

namespace Schema

theorem foretells_contributions {contribute : String → KeySpec → Run Failure (Option Value)}
    {P : String × KeySpec → Prop} {keys : List (String × KeySpec)}
    (h : ∀ entry ∈ keys,
      (contribute entry.1 entry.2).Foretells Failure.Unsettled missing (P entry)) :
    (contributions contribute keys).Foretells Failure.Unsettled missing
      (∀ entry ∈ keys, P entry) := by
  induction keys with
  | nil => exact .of_ok rfl (fun _ hmem => nomatch hmem)
  | cons entry keys ih =>
    rw [List.forall_mem_cons] at h ⊢
    rw [contributions]
    refine h.1.bind fun given _ => ?_
    cases given with
    | none => exact (ih h.2).returning
    | some value => exact (ih h.2).returning

section Level

variable (keyed : schema.WellKeyed)
  (nested : ∀ nested, schema.Mentions nested → enter.Foretells missing registry onward nested)
  (hctx : ctx.registry = registry)

include returns keyed nested hctx

theorem foretells_walkEntries {input : List (String × Value)} :
    (schema.walkEntries enter input ctx).ForetellsSome missing
      (schema.outputEntries onward input) := by
  rw [walkEntries, Run.ForetellsSome, isSome_outputEntries]
  cases (schema.expand (Entries.names input)).undeclared (Entries.names input) with
  | cons name names =>
    exact .of_settled rfl (Failure.not_unsettled_of_kind rfl rfl) (by simp)
  | nil =>
    have each : ∀ entry ∈ (schema.expand (Entries.names input)).keys,
        (entry.2.contribute enter input ctx entry.1).ForetellsSome missing
          (KeySpec.contribution onward input entry) := fun entry hentry => by
      obtain ⟨own, hown⟩ := mem_of_mem_expand hentry
      exact KeySpec.foretells_contribute returns keyed nested hown hctx
    exact (foretells_contributions each).congr (by simp)

theorem foretells_walk {value : Value} :
    (schema.walk enter value ctx).ForetellsSome missing (schema.outputMapping onward value) := by
  have noted : (Run.note (.entered schema value ctx) : Run Failure Unit).Foretells
      Failure.Unsettled missing True := .of_ok rfl trivial
  suffices (schema.walkMapping enter value ctx).ForetellsSome missing
      (schema.outputMapping onward value) from
    (noted.bind fun _ _ => this).congr (iff_of_eq (true_and _))
  have entries : ∀ input, (schema.walkEntries enter input ctx).ForetellsSome missing
      (schema.outputEntries onward input) :=
    fun _ => foretells_walkEntries returns keyed nested hctx
  cases value with
  | keywords input => exact (entries input).map.congr (by simp [outputMapping])
  | map pairs =>
    rw [walkMapping, outputMapping]
    cases hentries : Value.namedEntries? pairs with
    | none =>
      have hread : (Value.map pairs).entries? = none := hentries
      rw [hread]
      cases (Value.map pairs).duplicateIdentifier? <;>
        exact .of_settled rfl (Failure.not_unsettled_of_kind rfl rfl) Bool.false_ne_true
    | some input =>
      have hread : (Value.map pairs).entries? = some input := hentries
      rw [hread, Value.duplicateIdentifier?_eq_none hentries]
      exact (entries input).returning.congr (by simp)
  | _ => exact .of_settled rfl (Failure.not_unsettled_of_kind rfl rfl) Bool.false_ne_true

theorem foretells_walkNested {value : Value} :
    (schema.walkNested enter value ctx).ForetellsSome missing
      (schema.outputNested onward value) := by
  have whole : (schema.walk enter value ctx).ForetellsSome missing
      (schema.outputMapping onward value) := foretells_walk returns keyed nested hctx
  cases value with
  | list items =>
    rw [walkNested, outputNested, Run.ForetellsSome, Option.isSome_map, isSome_mapM_iff]
    refine .map (.traverseFrom fun index item => .mapError ?_ fun _ => Failure.involves_nest)
    have stepped : (ctx.step (.index index)).registry = registry := hctx
    exact foretells_walk returns keyed nested stepped
  | _ => exact whole

end Level

end Schema

end Walk

/-- What a resolver knows, the one that knows more keeps. -/
def Resolver.Extends (more resolve : Resolver) : Prop :=
  ∀ nested schema, resolve nested = some schema → more nested = some schema

/-- The level lets runs foretell; where a nested schema of it stands for nothing, there is something
`missing`. -/
structure Schema.Foretelling (resolve : Resolver) (missing : Prop) (level : Schema) : Prop where
  keyed : level.WellKeyed
  lacks : ∀ nested, level.Mentions nested → resolve nested = none → missing

theorem Nested.kind_of_resolve {producers : Producers} {nested : Nested} {place : Place}
    {ctx : Context} {failure : Failure} (h : nested.resolve producers place ctx = .error failure) :
    failure.kind = .unresolvedReference := by
  obtain ⟨name, -, -, rfl⟩ := resolve_eq_error h
  rfl

theorem Nested.foretells_enterWithin {producers : Producers} {ctx : Context} {missing : Prop}
    {more : Resolver} (grows : more.Extends (ctx.resolver producers)) (levels : Nat)
    {nested : Nested} (lacks : ctx.resolver producers nested = none → missing)
    (every : ∀ next, ctx.resolver producers nested = some next →
      next.EveryLevel (ctx.resolver producers)
        (Schema.Foretelling (ctx.resolver producers) missing)) :
    (Nested.enterWithin producers levels).Foretells missing ctx.registry
      (Nested.output more levels) nested := by
  induction levels generalizing nested with
  | zero =>
    intro place value here _
    exact .of_settled rfl (Failure.not_unsettled_of_kind rfl rfl) Bool.false_ne_true
  | succ levels ih =>
    intro place value here hctx
    have hresolve := Nested.resolve_toOption producers nested place hctx
    rw [Nested.enterWithin]
    cases hnested : nested.resolve producers place here with
    | error failure =>
      -- The only place where an unsettled failure arises.
      rw [hnested] at hresolve
      have unresolved : failure.Unsettled := .here (kind_of_resolve hnested)
      exact .of_error rfl (fun settled => absurd unresolved settled) fun _ => lacks hresolve.symm
    | ok next =>
      rw [hnested] at hresolve
      have below := every next hresolve.symm
      rw [Nested.output, grows nested next hresolve.symm, Option.bind_some]
      have descended : (here.descend place.segment).registry = ctx.registry := hctx
      refine .mapError (Schema.foretells_walkNested
        (Nested.returns_enterWithin producers ctx levels) below.self.keyed (fun inner mention => ?_)
        descended) fun _ => Failure.involves_nest
      exact ih (below.self.lacks inner mention) fun other resolved => below.nested mention resolved

theorem KeySpec.checkDefault_eq (producers : Producers) {spec : KeySpec}
    (keys : spec.nested.isSome → spec.ty.acceptsKeys = true) (name : String) (value : Value) :
    spec.checkDefault producers name value =
      spec.check (Nested.enter producers) name value .new := by
  rw [checkDefault, check]
  cases hnested : spec.nested with
  | none => rfl
  | some nested => simp only [keys (Option.isSome_of_eq_some hnested), if_true]

theorem KeySpec.foretells_checkDefault {producers : Producers} {missing : Prop} {more : Resolver}
    (grows : more.Extends (Context.new.resolver producers)) {schema : Schema}
    (every : schema.EveryLevel (Context.new.resolver producers)
      (Schema.Foretelling (Context.new.resolver producers) missing)) {own name : String}
    {spec : KeySpec} (h : (own, spec) ∈ schema.keys) (value : Value) :
    (spec.checkDefault producers name value).ForetellsSome missing
      (spec.output (Nested.output more defaultMaxDepth) value) := by
  rw [checkDefault_eq producers (every.self.keyed.keys (own, spec) h)]
  have within : (spec.check (Nested.enterWithin producers defaultMaxDepth) name value
      .new).ForetellsSome missing (spec.output (Nested.output more defaultMaxDepth) value) :=
    foretells_check (Nested.returns_enterWithin producers .new defaultMaxDepth) every.self.keyed
      (fun nested mention => Nested.foretells_enterWithin grows defaultMaxDepth
        (every.self.lacks nested mention) fun next resolved => every.nested mention resolved) h rfl
  exact within.of_outcome (looksLike_check_enter producers spec name value .new).outcome

end OptionSchema
