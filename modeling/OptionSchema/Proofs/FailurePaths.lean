import OptionSchema.Proofs.Echoes
import OptionSchema.Proofs.Schema.Checked
import OptionSchema.Proofs.Schema.Expansion
import OptionSchema.Proofs.Value.Following
/-!
# What a failure points at

The path of a failure is put together from the inside out, a step at each nested schema and at each
list or tuple around one. So a failure of a match is either one of the place itself, without a path,
or it comes from a nested schema below, and its path begins with the step to the place. Types that
rebuild maps are left out: they point at their keys and values by the text of the key.
-/
namespace OptionSchema

abbrev Entered := Schema → Value → Context → Prop

namespace Run

variable {ε δ α β : Type} {entered : Entered} {run : Run ε α} {Q R : ε → Prop}

/-- Where all levels that the run enters are among `entered`, the error it may end in is in `Q`. -/
def Blames (entered : Entered) (run : Run ε α) (Q : ε → Prop) : Prop :=
  (∀ schema value ctx, .entered schema value ctx ∈ run.journal → entered schema value ctx) →
    ∀ error, run.outcome = .error error → Q error

namespace Blames

theorem of_ok {value : α} (h : run.outcome = .ok value) : run.Blames entered Q :=
  fun _ _ failed => nomatch h.symm.trans failed

theorem of_error {error : ε} (failed : run.outcome = .error error) (h : Q error) :
    run.Blames entered Q := by
  intro _ other hother
  cases failed.symm.trans hother
  exact h

theorem imp (h : run.Blames entered Q) (himp : ∀ error, Q error → R error) :
    run.Blames entered R :=
  fun within error failed => himp error (h within error failed)

theorem bind {next : α → Run ε β} (h : run.Blames entered Q)
    (hnext : ∀ value, run.outcome = .ok value → (next value).Blames entered Q) :
    (run >>= next).Blames entered Q := by
  obtain ⟨outcome, journal⟩ := run
  intro within error failed
  cases outcome with
  | error own =>
    cases failed
    exact h within error rfl
  | ok value =>
    refine hnext value rfl (fun schema held ctx hmem => ?_) error failed
    exact within schema held ctx (List.mem_append_right _ hmem)

/-- After the note that a level is entered, the level is known to be among those entered. -/
theorem entering {schema : Schema} {value : Value} {ctx : Context} {rest : Run ε α}
    (h : entered schema value ctx → rest.Blames entered Q) :
    (Run.note (.entered schema value ctx) >>= fun _ => rest).Blames entered Q := by
  intro within error failed
  have here : entered schema value ctx := within schema value ctx List.mem_cons_self
  refine h here (fun level held there hmem => ?_) error failed
  exact within level held there (List.mem_cons_of_mem _ hmem)

theorem returning {f : α → β} (h : run.Blames entered Q) :
    (run >>= fun value => Run.succeed (f value)).Blames entered Q :=
  h.bind fun _ _ => of_ok rfl

theorem map {f : α → β} (h : run.Blames entered Q) : (f <$> run).Blames entered Q := h.returning

theorem mapError {f : ε → δ} {S : δ → Prop} (h : run.Blames entered fun error => S (f error)) :
    (run.mapError f).Blames entered S := by
  obtain ⟨outcome, journal⟩ := run
  intro within error failed
  cases outcome with
  | ok value => cases failed
  | error own =>
    cases failed
    exact h within own rfl

theorem traverseFrom {f : Nat → α → Run ε β} {items : List α} {position : Nat}
    (h : ∀ index item, items[index]? = some item → (f (position + index) item).Blames entered Q) :
    (Run.traverseFrom f position items).Blames entered Q := by
  induction items generalizing position with
  | nil => exact of_ok rfl
  | cons item items ih =>
    refine (h 0 item rfl).bind fun result _ => Blames.returning (ih fun index other hother => ?_)
    have tail := h (index + 1) other hother
    rwa [← Nat.add_assoc, Nat.add_right_comm] at tail

end Blames

end Run

namespace Failure

variable {entered : Entered} {outer path : Path} {place : Place} {value part m : Value}
  {failure : Failure} {segment : Segment}

/-- What the failure says fits the value `m`, which lies at `path`. -/
def Fits (entered : Entered) (path : Path) (failure : Failure) (m : Value) : Prop :=
  match failure.place with
  | .root => failure.value = some m
  | .key name =>
    if failure.kind = .presence then m.isMapping = true ∧ m.find? name = none
    else m.isMapping = true ∧ ∃ held, m.find? name = some held ∧
      ∀ shown, failure.value = some shown → shown = held
  | .unknown names =>
    ∃ level here entries, entered level m here ∧ here.path = path ∧ m.entries? = some entries ∧
      names = (Entries.names entries).filter fun name => (level.specFor? name).isNone
  | .position _ => False
  | .mapKey => False
  | .mapValue _ => False

/-- The failure leads from the value, which lies at `outer`, to what it fits. -/
def Locates (entered : Entered) (outer : Path) (value : Value) (failure : Failure) : Prop :=
  ∃ m, value.follow? failure.path = some m ∧ failure.Fits entered (outer ++ failure.path) m

structure At (place : Place) (value : Value) (failure : Failure) : Prop where
  path : failure.path = .root
  place : failure.place = place
  kind : failure.kind ≠ .presence
  value : ∀ shown, failure.value = some shown → shown = value

inductive Stems (entered : Entered) (outer : Path) (place : Place) (value : Value) :
    Failure → Prop where
  | here {failure : Failure} (h : failure.At place value) : Stems entered outer place value failure
  | below {failure : Failure} (h : failure.Locates entered (outer.push place.segment) value) :
      Stems entered outer place value (failure.nest place.segment)

theorem Locates.nest (h : failure.Locates entered (outer.push segment) part)
    (step : value.step? segment = some part) :
    (failure.nest segment).Locates entered outer value := by
  obtain ⟨m, hfollow, fits⟩ := h
  refine ⟨m, (Value.follow?_cons step failure.path).trans hfollow, ?_⟩
  rw [Path.push, List.append_assoc] at fits
  exact fits

theorem at_mismatch (ty : Ty) (place : Place) (value : Value) :
    (mismatch ty place value).At place value where
  path := rfl
  place := rfl
  kind := nofun
  value _ h := (Option.some.inj h).symm

theorem At.of_silent (path : failure.path = .root) (hplace : failure.place = place)
    (kind : (failure.kind == .presence) = false) (silent : failure.value = none) :
    failure.At place value where
  path := path
  place := hplace
  kind := beq_eq_false_iff_ne.mp kind
  value shown h := by
    rw [silent] at h
    cases h

/-- What fails in a composite is said of the composite, or has come from below it. -/
theorem Stems.within {index : Nat}
    (h : failure.Stems entered (outer.push place.segment) (.position index) part)
    (step : value.step? (.index index) = some part) (noun : String) :
    (failure.within noun place value).Stems entered outer place value := by
  cases h with
  | here h =>
    have plain : failure.isNested = false := by rw [isNested, h.path]; rfl
    rw [Failure.within, plain]
    exact .here ⟨rfl, rfl, h.kind, fun _ hshown => (Option.some.inj hshown).symm⟩
  | below h => exact .below (h.nest step)

/-- A failure at a key that the mapping holds leads from the mapping to what it fits. -/
theorem Stems.locates {name : String} (h : failure.Stems entered outer (.key name) part)
    (mapping : value.isMapping = true) (held : value.find? name = some part) :
    failure.Locates entered outer value := by
  cases h with
  | here h =>
    refine ⟨value, by rw [h.path]; rfl, ?_⟩
    rw [Fits, h.place]
    simp only [if_neg h.kind]
    exact ⟨mapping, part, held, h.value⟩
  | below h => exact h.nest held

end Failure

open Failure

variable {entered : Entered} {enter : Enter} {before : Onward} {registry : Option Registry}

def Enter.Blames (entered : Entered) (registry : Option Registry) (enter : Enter)
    (nested : Nested) : Prop :=
  ∀ place value (ctx : Context), ctx.registry = registry →
    (enter nested place value ctx).Blames entered (Stems entered ctx.path place value)

namespace Ty

theorem blames_checkEach {types : List Ty} {items : List Value} {index : Nat} {ctx : Context}
    {Q : Failure → Prop}
    (h : ∀ ty ∈ types, ∀ offset item, items[offset]? = some item →
      (ty.check enter (.position (index + offset)) item ctx).Blames entered Q) :
    (checkEach enter types index items ctx).Blames entered Q := by
  induction types generalizing items index with
  | nil => exact .of_ok rfl
  | cons ty types ih =>
    rw [List.forall_mem_cons] at h
    cases items with
    | nil => exact .of_ok rfl
    | cons item items =>
      refine (h.1 0 item rfl).bind fun _ _ => .returning (ih ?_)
      intro other hother offset held hheld
      have tail := h.2 other hother (offset + 1) held hheld
      rwa [← Nat.add_assoc, Nat.add_right_comm] at tail

theorem blames_check {ty : Ty}
    (containers : ∀ container nested, .keyed container nested ∈ ty.subterms →
      container.isContainer = true)
    (noMaps : ∀ key value, .mapOf key value ∉ ty.subterms)
    (nested : ∀ container nested, .keyed container nested ∈ ty.subterms →
      enter.Blames entered registry nested) {place : Place} {value : Value} {ctx : Context}
    (hctx : ctx.registry = registry) :
    (ty.check enter place value ctx).Blames entered (Stems entered ctx.path place value) := by
  induction ty using parts_induction generalizing place value ctx with
  | step ty ih =>
    have part : ∀ sub ∈ ty.parts, ∀ place value (ctx : Context), ctx.registry = registry →
        (sub.check enter place value ctx).Blames entered (Stems entered ctx.path place value) :=
      fun sub hsub _ _ _ => ih sub hsub
        (fun container inner h => containers container inner (subterms_of_part hsub h))
        (fun key value h => noMaps key value (subterms_of_part hsub h))
        (fun container inner h => nested container inner (subterms_of_part hsub h))
    have mismatch : (Run.fail (.mismatch ty place value) : Run Failure Value).Blames entered
        (Stems entered ctx.path place value) := .of_error rfl (.here (at_mismatch ty place value))
    by_cases plain : ty.isPlain = true
    · rw [check_of_isPlain plain]
      split
      · exact .of_ok rfl
      · exact mismatch
    cases ty with
    | mapOf keyTy valueTy => exact absurd (self_mem_subterms _) (noMaps keyTy valueTy)
    | custom validator =>
      rw [check]
      cases hcall : validator.call value with
      | ok result => exact .of_ok rfl
      | error reason =>
        exact .of_error rfl (.here ⟨rfl, rfl, nofun, fun _ h => (Option.some.inj h).symm⟩)
    | union alternatives =>
      -- Whatever the alternatives report, the union fails at its own place.
      rw [check]
      intro _ failure failed
      cases hany : (checkAny enter alternatives place value ctx).outcome with
      | ok result => simp [Run.mapError, hany, Except.mapError] at failed
      | error causes =>
        simp only [Run.mapError, hany, Except.mapError, Except.error.injEq] at failed
        subst failed
        exact .here ⟨rfl, rfl, nofun, fun _ h => (Option.some.inj h).symm⟩
    | listOf item =>
      cases value with
      | list items =>
        rw [check]
        refine .map (.mapError (.traverseFrom fun index element held => ?_))
        rw [Nat.zero_add]
        refine (part item (by simp [parts]) (.position index) element (ctx.step place.segment)
          hctx).imp fun failure stems => ?_
        have step : (Value.list items).step? (.index index) = some element := held
        exact stems.within step "list"
      | _ => exact mismatch
    | tuple types =>
      cases value with
      | tuple items =>
        rw [check]
        split
        · refine .map (.mapError (blames_checkEach fun ty hty index element held => ?_))
          rw [Nat.zero_add]
          refine (part ty hty (.position index) element (ctx.step place.segment) hctx).imp
            fun failure stems => ?_
          have step : (Value.tuple items).step? (.index index) = some element := held
          exact stems.within step "tuple"
        · exact mismatch
      | _ => exact mismatch
    | keyed container inner =>
      have plain := isPlain_of_isContainer (containers container inner (self_mem_subterms _))
      rw [check]
      refine (part container (by simp [parts]) place value ctx hctx).bind fun matched hmatched => ?_
      obtain rfl : matched = value := by
        rw [check_of_isPlain plain] at hmatched
        split at hmatched
        · exact (Except.ok.inj hmatched).symm
        · cases hmatched
      exact nested container inner (self_mem_subterms _) place matched ctx hctx
    | _ => exact absurd rfl plain

end Ty

/-- The level rebuilds no maps and fills in nothing, and nested schemas stand on containers. -/
structure Schema.Pointing (level : Schema) : Prop where
  keyed : level.WellKeyed
  noMaps : ∀ key value, .mapOf key value ∉ level.types
  noDefaults : ∀ entry ∈ level.keys, entry.2.default = none

variable {schema : Schema} {ctx : Context} (returns : enter.Returns before registry)

section Level

variable (pointing : schema.Pointing)
  (nested : ∀ nested, schema.Mentions nested → enter.Blames entered registry nested)
  (hctx : ctx.registry = registry)

include returns pointing nested hctx

theorem KeySpec.blames_check {own name : String} {spec : KeySpec} (h : (own, spec) ∈ schema.keys)
    {value : Value} : (spec.check enter name value ctx).Blames entered
      (Stems entered ctx.path (.key name) value) := by
  have checked : (spec.ty.check enter (.key name) value ctx).Blames entered
      (Stems entered ctx.path (.key name) value) := Ty.blames_check
    (fun container inner hsub => pointing.keyed.keyed container inner (Schema.mem_types h hsub))
    (fun key held hsub => pointing.noMaps key held (Schema.mem_types h hsub))
    (fun container inner hsub => nested inner (.type (Schema.mem_types h hsub))) hctx
  refine checked.bind fun matched hmatched => ?_
  cases hnested : spec.nested with
  | none => exact .of_ok rfl
  | some inner =>
    have keys : spec.ty.acceptsKeys = true :=
      pointing.keyed.keys (own, spec) h (Option.isSome_of_eq_some hnested)
    have output : spec.ty.output before value = some matched := by
      rw [← Ty.result?_check returns spec.ty (.key name) value ctx hctx]
      exact Run.result?_eq_some.mpr hmatched
    obtain rfl := Ty.output_eq_of_acceptsKeys keys output
    exact nested inner (.key h hnested) (.key name) matched ctx hctx

theorem KeySpec.blames_contribute {own name : String} {spec : KeySpec}
    (h : (own, spec) ∈ schema.keys) {value : Value} {input : List (String × Value)}
    (reads : value.Reads input) : (spec.contribute enter input ctx name).Blames entered
      (Locates entered ctx.path value) := by
  rw [contribute]
  cases hgiven : input.lookup name with
  | some held =>
    have warned : (spec.warn name ctx).Blames entered (Locates entered ctx.path value) := by
      unfold warn
      cases spec.deprecated <;> exact .of_ok rfl
    refine warned.bind fun _ _ => .map ?_
    exact (KeySpec.blames_check returns pointing nested hctx h).imp fun failure stems =>
      stems.locates reads.isMapping ((reads.find? name).trans hgiven)
  | none =>
    have absent : value.find? name = none := (reads.find? name).trans hgiven
    cases spec.required with
    | true => exact .of_error rfl ⟨value, rfl, reads.isMapping, absent⟩
    | false =>
      rw [pointing.noDefaults (own, spec) h]
      exact .of_ok rfl

namespace Schema

omit returns pointing nested hctx in
theorem blames_contributions {contribute : String → KeySpec → Run Failure (Option Value)}
    {Q : Failure → Prop} {keys : List (String × KeySpec)}
    (h : ∀ entry ∈ keys, (contribute entry.1 entry.2).Blames entered Q) :
    (contributions contribute keys).Blames entered Q := by
  induction keys with
  | nil => exact .of_ok rfl
  | cons entry keys ih =>
    rw [List.forall_mem_cons] at h
    rw [contributions]
    refine h.1.bind fun given _ => (ih h.2).bind fun others _ => ?_
    cases given <;> exact .of_ok rfl

theorem blames_walkEntries {value : Value} {input : List (String × Value)}
    (here : entered schema value ctx) (reads : value.Reads input) :
    (schema.walkEntries enter input ctx).Blames entered (Locates entered ctx.path value) := by
  rw [walkEntries]
  cases hunknown : (schema.expand (Entries.names input)).undeclared (Entries.names input) with
  | cons name names =>
    rw [undeclared_expand] at hunknown
    refine .of_error rfl ⟨value, rfl, schema, ctx, input, here, ?_, Value.reads_iff.mp reads,
      hunknown.symm⟩
    exact (List.append_nil ctx.path).symm
  | nil =>
    refine blames_contributions fun entry hentry => ?_
    obtain ⟨own, hown⟩ := mem_of_mem_expand hentry
    exact KeySpec.blames_contribute returns pointing nested hctx hown reads

theorem blames_walk {value : Value} :
    (schema.walk enter value ctx).Blames entered (Locates entered ctx.path value) := by
  refine .entering fun here => ?_
  have entries : ∀ input, value.Reads input →
      (schema.walkEntries enter input ctx).Blames entered (Locates entered ctx.path value) :=
    fun _ => blames_walkEntries returns pointing nested hctx here
  cases value with
  | keywords input => exact (entries input (.keywords input)).map
  | map pairs =>
    rw [walkMapping]
    cases (Value.map pairs).duplicateIdentifier? with
    | some name => exact .of_error rfl ⟨_, rfl, rfl⟩
    | none =>
      cases hread : (Value.map pairs).entries? with
      | none => exact .of_error rfl ⟨_, rfl, rfl⟩
      | some input => exact (entries input (Value.reads_iff.mpr hread)).returning
  | _ => exact .of_error rfl ⟨_, rfl, rfl⟩

theorem blames_walkNested {value : Value} :
    (schema.walkNested enter value ctx).Blames entered (Locates entered ctx.path value) := by
  have whole : (schema.walk enter value ctx).Blames entered (Locates entered ctx.path value) :=
    blames_walk returns pointing nested hctx
  cases value with
  | list items =>
    refine .map (.traverseFrom fun index item held => .mapError ?_)
    rw [Nat.zero_add]
    have stepped : (ctx.step (.index index)).registry = registry := hctx
    refine (blames_walk returns pointing nested stepped).imp fun failure locates => ?_
    exact locates.nest (held : (Value.list items).step? (.index index) = some item)
  | _ => exact whole

end Schema

end Level

theorem Nested.blames_enterWithin {producers : Producers} {ctx : Context} (levels : Nat)
    {nested : Nested} (every : ∀ next, ctx.resolver producers nested = some next →
      next.EveryLevel (ctx.resolver producers) Schema.Pointing) :
    (Nested.enterWithin producers levels).Blames entered ctx.registry nested := by
  induction levels generalizing nested with
  | zero => exact fun place value here _ => .of_error rfl (.here (.of_silent rfl rfl rfl rfl))
  | succ levels ih =>
    intro place value here hctx
    rcases Nested.enterWithin_succ producers levels nested place value hctx with
      ⟨name, -, failed⟩ | ⟨next, resolved, walks⟩
    · rw [failed]
      exact .of_error rfl (.here (.of_silent rfl rfl rfl rfl))
    · rw [walks]
      have below := every next resolved
      have descended : (here.descend place.segment).registry = ctx.registry := hctx
      refine .mapError ((Schema.blames_walkNested (Nested.returns_enterWithin producers ctx levels)
        below.self (fun inner mention => ?_) descended).imp fun failure => .below)
      exact ih fun other resolved => below.nested mention resolved

theorem Schema.blames_validate {producers : Producers} (schema : Schema) {value : Value}
    {ctx : Context} (pointing : schema.EveryLevel (ctx.resolver producers) Schema.Pointing) :
    (schema.validate producers value ctx).Blames entered (Locates entered ctx.path value) :=
  blames_walk (Nested.returns_enterWithin producers ctx ctx.remaining) pointing.self
    (fun _ mention => Nested.blames_enterWithin ctx.remaining
      fun _ resolved => pointing.nested mention resolved) rfl

/-- The path of a failure leads from the input to the value that the failure is about: it is the
failing value itself, or the mapping that lacks the key, that holds the failing value under it, or
whose keys are unknown to the level walked there. -/
theorem failure_path_leads_to_value (producers : Producers) (schema : Schema) (value : Value)
    (ctx : Context)
    (every : schema.EveryLevel (ctx.resolver producers) fun level => level.Passes producers ∧
      (∀ entry ∈ level.keys, entry.2.default = none) ∧ ∀ key held, .mapOf key held ∉ level.types)
    (failure : Failure) (failed : (schema.validate producers value ctx).outcome = .error failure) :
    ∃ m, value.follow? failure.path = some m ∧
      failure.Fits (fun level mapping here =>
          .entered level mapping here ∈ (schema.validate producers value ctx).journal)
        (ctx.path ++ failure.path) m := by
  have pointing : schema.EveryLevel (ctx.resolver producers) Schema.Pointing := by
    intro level reached
    obtain ⟨passes, noDefaults, noMaps⟩ := every level reached
    exact ⟨passes.wellKeyed, noMaps, noDefaults⟩
  exact schema.blames_validate pointing (fun _ _ _ hmem => hmem) failure failed

section Fleet

def hostSchema : Schema := ⟨[("host", { ty := .string, required := true })]⟩

def fleetSchema : Schema := ⟨[("servers", { ty := .listOf (.keyed .map (.inline hostSchema)) })]⟩

def fleet : Value :=
  .keywords [("servers", .list [.map [(.string "host", .string "a")],
    .map [(.atom "host", .integer 7)]])]

theorem fleetSchema_everyLevel {resolve : Resolver} {P : Schema → Prop}
    (inline : ∀ schema, resolve (.inline schema) = some schema) (fleet : P fleetSchema)
    (host : P hostSchema) : fleetSchema.EveryLevel resolve P := by
  refine .of_mentions fleet fun nested next mention resolved => ?_
  have heq : nested = .inline hostSchema := by
    simpa [Schema.mentions_iff, fleetSchema, Schema.types, Ty.subterms] using mention
  rw [heq, inline] at resolved
  obtain rfl := Option.some.inj resolved
  exact .of_mentions host fun _ _ mention => absurd mention
    (Schema.not_mentions_of_isPlain (by simp [hostSchema, Ty.isPlain]))

theorem fleet_second_host : ∃ failure m,
    (fleetSchema.validate (fun _ => .empty) fleet .new).outcome = .error failure ∧
      failure.path = [.key "servers", .index 1] ∧ failure.place = .key "host" ∧
      fleet.follow? failure.path = some m ∧
      failure.Fits (fun level mapping here => .entered level mapping here ∈
        (fleetSchema.validate (fun _ => .empty) fleet .new).journal) failure.path m := by
  have every : fleetSchema.EveryLevel (Context.new.resolver fun _ => .empty) fun level =>
      level.Passes (fun _ => .empty) ∧ (∀ entry ∈ level.keys, entry.2.default = none) ∧
        ∀ key held, .mapOf key held ∉ level.types := fleetSchema_everyLevel (fun _ => rfl)
    ⟨rfl, by simp [fleetSchema], by simp [fleetSchema, Schema.types, Ty.subterms]⟩
    ⟨rfl, by simp [hostSchema], by simp [hostSchema, Schema.types, Ty.subterms]⟩
  have failed : (fleetSchema.validate (fun _ => .empty) fleet .new).outcome = .error _ := rfl
  obtain ⟨m, hfollow, fits⟩ :=
    failure_path_leads_to_value (fun _ => .empty) fleetSchema fleet .new every _ failed
  exact ⟨_, m, failed, rfl, rfl, hfollow, fits⟩

end Fleet

end OptionSchema
