import OptionSchema.Proofs.Output
import OptionSchema.Proofs.Schema.Expansion
/-!
# What every step of a validation keeps

Much of what can be said about validation is said of the error that a run ends in, if it fails, and
of what it has met until then. An `Invariant` says such a thing of every match, of what happens
inside a level and of every walk of a level, and has one rule for each step that validation takes.
That the rules suffice for whole validations is shown once, for all invariants.
-/
namespace OptionSchema

namespace Run

variable {ε δ α β : Type}

def error? (run : Run ε α) : Option ε :=
  match run.outcome with
  | .ok _ => none
  | .error error => some error

theorem error?_eq_some {run : Run ε α} {error : ε} :
    run.error? = some error ↔ run.outcome = .error error := by
  obtain ⟨outcome, journal⟩ := run
  cases outcome <;> simp [error?]

theorem bind_of_ok {run : Run ε α} {value : α} (h : run.outcome = .ok value) {next : α → Run ε β} :
    (run >>= next) = ⟨(next value).outcome, run.journal ++ (next value).journal⟩ := by
  rw [bind_eq, Run.bind, h]

theorem bind_of_error {run : Run ε α} {error : ε} (h : run.outcome = .error error)
    {next : α → Run ε β} : (run >>= next) = ⟨.error error, run.journal⟩ := by
  rw [bind_eq, Run.bind, h]

theorem bind_eq_error {run : Run ε α} {next : α → Run ε β} {error : ε}
    (failed : (run >>= next).outcome = .error error) :
    run.outcome = .error error ∨
      ∃ value, run.outcome = .ok value ∧ (next value).outcome = .error error := by
  obtain ⟨outcome, journal⟩ := run
  cases outcome with
  | error own =>
    cases failed
    exact .inl rfl
  | ok value => exact .inr ⟨value, rfl, failed⟩

theorem map_eq_error {run : Run ε α} {f : α → β} {error : ε}
    (failed : (f <$> run).outcome = .error error) : run.outcome = .error error := by
  rcases bind_eq_error failed with failed | ⟨value, -, failed⟩
  · exact failed
  · cases failed

theorem mapError_eq_error {run : Run ε α} {f : ε → δ} {error : δ}
    (failed : (run.mapError f).outcome = .error error) :
    ∃ own, run.outcome = .error own ∧ error = f own := by
  obtain ⟨outcome, journal⟩ := run
  cases outcome with
  | ok value => cases failed
  | error own => exact ⟨own, rfl, (Except.error.inj failed).symm⟩

/-- Something said of the error of a run, if it fails, and of its journal. -/
abbrev Promise (ε : Type) := Option ε → List Note → Prop

def Keeps (promise : Promise ε) (run : Run ε α) : Prop := promise run.error? run.journal

/-- Doing nothing keeps the promise, and so do steps taken one after the other. -/
structure Promise.Sequential (promise : Promise ε) : Prop where
  nothing : promise none []
  append : ∀ {before error journal}, promise none before → promise error journal →
    promise error (before ++ journal)

/-- The promise about errors that are still to be translated. -/
def Promise.before (promise : Promise δ) (f : ε → δ) : Promise ε :=
  fun error journal => promise (error.map f) journal

theorem Promise.Sequential.before {promise : Promise δ} (h : promise.Sequential) (f : ε → δ) :
    (promise.before f).Sequential := ⟨h.nothing, h.append⟩

namespace Keeps

variable {promise : Promise ε} {run : Run ε α}

theorem succeed (h : promise.Sequential) (value : α) :
    (Run.succeed value : Run ε α).Keeps promise := h.nothing

/-- The second step follows with what the first has returned. -/
theorem bind_outcome {next : α → Run ε β} (seq : promise.Sequential) (h : run.Keeps promise)
    (hnext : ∀ value, run.outcome = .ok value → (next value).Keeps promise) :
    (run >>= next).Keeps promise := by
  obtain ⟨outcome, journal⟩ := run
  cases outcome with
  | error error => exact h
  | ok value => exact seq.append h (hnext value rfl)

theorem bind {next : α → Run ε β} (seq : promise.Sequential) (h : run.Keeps promise)
    (hnext : ∀ value, (next value).Keeps promise) : (run >>= next).Keeps promise :=
  h.bind_outcome seq fun value _ => hnext value

theorem returning {f : α → β} (seq : promise.Sequential) (h : run.Keeps promise) :
    (run >>= fun value => Run.succeed (f value)).Keeps promise :=
  h.bind seq fun _ => succeed seq _

theorem map {f : α → β} (seq : promise.Sequential) (h : run.Keeps promise) :
    (f <$> run).Keeps promise := h.returning seq

theorem mapError {promise : Promise δ} {f : ε → δ} (h : run.Keeps (promise.before f)) :
    (run.mapError f).Keeps promise := by
  obtain ⟨outcome, journal⟩ := run
  cases outcome <;> exact h

theorem traverse {f : α → Run ε β} {items : List α} (seq : promise.Sequential)
    (h : ∀ item ∈ items, (f item).Keeps promise) : (Run.traverse f items).Keeps promise := by
  induction items with
  | nil => exact succeed seq []
  | cons item items ih =>
    rw [List.forall_mem_cons] at h
    exact h.1.bind seq fun _ => (ih h.2).returning seq

theorem traverseFrom {f : Nat → α → Run ε β} {items : List α} {position : Nat}
    (seq : promise.Sequential) (h : ∀ index, ∀ item ∈ items, (f index item).Keeps promise) :
    (Run.traverseFrom f position items).Keeps promise := by
  induction items generalizing position with
  | nil => exact succeed seq []
  | cons item items ih =>
    refine (h position item List.mem_cons_self).bind seq fun _ => Keeps.returning seq (ih ?_)
    exact fun index other hother => h index other (List.mem_cons_of_mem item hother)

theorem contribute {promise : Promise Failure} {spec : KeySpec} {enter : Enter}
    {input : List (String × Value)} {ctx : Context} {name : String} (seq : promise.Sequential)
    (warning : ∀ advice, promise none [.deprecated name advice (ctx.path.pushKey name)])
    (missing : input.lookup name = none → spec.required = true →
      promise (some (.missing name (Entries.names input))) [])
    (checked : ∀ value, (spec.check enter name value ctx).Keeps promise) :
    (spec.contribute enter input ctx name).Keeps promise := by
  rw [KeySpec.contribute]
  cases given : input.lookup name with
  | some value =>
    have warned : (spec.warn name ctx).Keeps promise := by
      unfold KeySpec.warn
      cases spec.deprecated with
      | none => exact succeed seq ()
      | some advice => exact warning advice
    exact warned.bind seq fun _ => (checked value).map seq
  | none =>
    cases required : spec.required with
    | true => exact missing given required
    | false =>
      cases spec.default with
      | none => exact succeed seq none
      | some value => exact (checked value).map seq

theorem contributions {contribute : String → KeySpec → Run Failure (Option Value)}
    {promise : Promise Failure} (seq : promise.Sequential) {keys : List (String × KeySpec)}
    (h : ∀ entry ∈ keys, (contribute entry.1 entry.2).Keeps promise) :
    (Schema.contributions contribute keys).Keeps promise := by
  induction keys with
  | nil => exact succeed seq []
  | cons entry keys ih =>
    rw [List.forall_mem_cons] at h
    rw [Schema.contributions]
    refine h.1.bind seq fun given => (ih h.2).bind seq fun others => ?_
    cases given <;> exact succeed seq _

section Level

variable {promise : Promise Failure} {schema : Schema} {enter : Enter} {ctx : Context}

theorem walkEntries {input : List (String × Value)} (seq : promise.Sequential)
    (unknown : ∀ names, (schema.expand (Entries.names input)).undeclared (Entries.names input) =
      names → names ≠ [] →
        promise (some (.unknownKeys names (schema.expand (Entries.names input)).names)) [])
    (contributed : ∀ name own spec, (own, spec) ∈ schema.keys →
      (name, spec) ∈ (schema.expand (Entries.names input)).keys →
        (spec.contribute enter input ctx name).Keeps promise) :
    (schema.walkEntries enter input ctx).Keeps promise := by
  rw [Schema.walkEntries]
  cases undeclared : (schema.expand (Entries.names input)).undeclared (Entries.names input) with
  | cons name names => exact unknown _ undeclared (List.cons_ne_nil name names)
  | nil =>
    refine contributions seq fun entry hentry => ?_
    obtain ⟨own, hown⟩ := Schema.mem_of_mem_expand hentry
    exact contributed entry.1 own entry.2 hown hentry

theorem walk {value : Value} (seq : promise.Sequential)
    (entered : promise none [.entered schema value ctx])
    (ambiguous : ∀ name, value.duplicateIdentifier? = some name →
      promise (some (.ambiguousKey name value)) [])
    (unread : value.duplicateIdentifier? = none → value.entries? = none →
      promise (some (.notAMapping value)) [])
    (entries : ∀ input, (schema.walkEntries enter input ctx).Keeps promise) :
    (schema.walk enter value ctx).Keeps promise := by
  have noted : (Run.note (.entered schema value ctx) : Run Failure Unit).Keeps promise := entered
  refine noted.bind seq fun _ => ?_
  cases value with
  | keywords input => exact (entries input).map seq
  | map pairs =>
    rw [Schema.walkMapping]
    cases duplicate : (Value.map pairs).duplicateIdentifier? with
    | some name => exact ambiguous name duplicate
    | none =>
      cases reads : (Value.map pairs).entries? with
      | none => exact unread duplicate reads
      | some input => exact (entries input).returning seq
  | _ => exact unread rfl rfl

end Level

end Keeps

end Run

/-- A promise for matching a value at a place, with what each step contributes to it, at levels
among `levels`. -/
structure MatchInvariant (producers : Producers) (levels : Schema → Prop) where
  matching : Place → Context → Run.Promise Failure
  matching_sequential : ∀ place ctx, (matching place ctx).Sequential
  /-- A match fails for a reason that arises at its place. -/
  own : ∀ {place ctx failure}, failure.path = .root → failure.place = place →
    matching place ctx (some failure) []
  /-- An element, key or held value of the composite at `place` has been matched. -/
  part : ∀ {place inner ctx error journal} noun composite,
    matching inner (ctx.step place.segment) error journal →
      matching place ctx (error.map (·.within noun place composite)) journal
  /-- An alternative of a union has failed, and the next one is tried. -/
  alternative : ∀ {level alternatives ty place value ctx failure}, levels level →
    .union alternatives ∈ level.types → ty ∈ alternatives →
    let run := ty.check (Nested.enterWithin producers ctx.remaining) place value ctx
    run.outcome = .error failure → run.Keeps (matching place ctx) →
      matching place ctx none run.journal
  exhausted : ∀ {place ctx journal} value causes, matching place ctx none journal →
    matching place ctx (some (.exhausted place value causes)) journal

structure Invariant (producers : Producers) (levels : Schema → Prop) extends
    MatchInvariant producers levels where
  /-- The promise for what is done inside a level that has been entered. -/
  inside : Context → Run.Promise Failure
  /-- The promise for walking a level. -/
  walking : Context → Run.Promise Failure
  inside_sequential : ∀ ctx, (inside ctx).Sequential
  walking_sequential : ∀ ctx, (walking ctx).Sequential
  tooDeep : ∀ place ctx,
    matching place ctx (some (.tooDeep ctx.maxDepth place)) [.limitReached place ctx]
  /-- A nested schema has been walked. -/
  nested : ∀ {place ctx error journal}, walking (ctx.descend place.segment) error journal →
    matching place ctx (error.map (·.nest place.segment)) journal
  /-- An element of a list has been walked against the nested schema of the list. -/
  item : ∀ {index ctx error journal}, walking (ctx.step (.index index)) error journal →
    walking ctx (error.map (·.nest (.index index))) journal
  /-- A level is at fault as a whole, or lacks a key. -/
  fault : ∀ {ctx failure}, failure.path = .root → inside ctx (some failure) []
  warning : ∀ name advice (ctx : Context),
    inside ctx none [.deprecated name advice (ctx.path.pushKey name)]
  key : ∀ {name ctx error journal}, matching (.key name) ctx error journal →
    inside ctx error journal
  entered : ∀ {level} value ctx, levels level → inside ctx none [.entered level value ctx]
  walk : ∀ {level value ctx}, levels level →
    (level.validate producers value ctx).Keeps (inside ctx) →
      (level.validate producers value ctx).Keeps (walking ctx)

section Preservation

variable {producers : Producers} {levels : Schema → Prop} {schema : Schema}
  {registry : Option Registry} {remaining : Nat} {ctx : Context}

namespace MatchInvariant

variable (invariant : MatchInvariant producers levels)

def KeepsInto (registry : Option Registry) (remaining : Nat) (nested : Nested) : Prop :=
  ∀ place value (ctx : Context), ctx.registry = registry → ctx.remaining = remaining →
    (Nested.enterWithin producers remaining nested place value ctx).Keeps
      (invariant.matching place ctx)

theorem keeps_checkAny {enter : Enter} {types : List Ty} {place : Place} {value : Value}
    (h : ∀ ty ∈ types, (ty.check enter place value ctx).Keeps (invariant.matching place ctx))
    (failed : ∀ ty ∈ types, ∀ failure, (ty.check enter place value ctx).outcome = .error failure →
      invariant.matching place ctx none (ty.check enter place value ctx).journal) :
    (Ty.checkAny enter types place value ctx).Keeps
      fun _ journal => invariant.matching place ctx none journal := by
  have seq := invariant.matching_sequential place ctx
  induction types with
  | nil => exact seq.nothing
  | cons ty types ih =>
    rw [List.forall_mem_cons] at h failed
    have later := ih h.2 failed.2
    rw [Ty.checkAny, Run.orCollect]
    cases hfirst : (ty.check enter place value ctx).outcome with
    | ok result =>
      have first := h.1
      rw [Run.Keeps, Run.error?, hfirst] at first
      exact first
    | error failure => exact seq.append (failed.1 failure hfirst) later

theorem keeps_union {enter : Enter} {alternatives : List Ty} {place : Place} {value : Value}
    (h : ∀ ty ∈ alternatives,
      (ty.check enter place value ctx).Keeps (invariant.matching place ctx))
    (failed : ∀ ty ∈ alternatives, ∀ failure,
      (ty.check enter place value ctx).outcome = .error failure →
        invariant.matching place ctx none (ty.check enter place value ctx).journal) :
    ((Ty.union alternatives).check enter place value ctx).Keeps (invariant.matching place ctx) := by
  have tried := invariant.keeps_checkAny h failed
  have collected : (Ty.checkAny enter alternatives place value ctx).Keeps
      ((invariant.matching place ctx).before (.exhausted place value)) := by
    rw [Run.Keeps, Run.Promise.before]
    cases (Ty.checkAny enter alternatives place value ctx).error? with
    | none => exact tried
    | some causes => exact invariant.exhausted value causes tried
  rw [Ty.check]
  exact .mapError collected

theorem keeps_checkEach {enter : Enter} {types : List Ty} {index : Nat} {items : List Value}
    {promise : Run.Promise Failure} (seq : promise.Sequential)
    (h : ∀ ty ∈ types, ∀ index item,
      (ty.check enter (.position index) item ctx).Keeps promise) :
    (Ty.checkEach enter types index items ctx).Keeps promise := by
  induction types generalizing index items with
  | nil => exact .succeed seq []
  | cons ty types ih =>
    rw [List.forall_mem_cons] at h
    cases items with
    | nil => exact .succeed seq []
    | cons item items => exact (h.1 index item).bind seq fun _ => (ih h.2).returning seq

variable (level : levels schema)
  (nested : ∀ nested, schema.Mentions nested → invariant.KeepsInto registry remaining nested)
  (hregistry : ctx.registry = registry) (hremaining : ctx.remaining = remaining)

include level nested hregistry hremaining

theorem keeps_check {ty : Ty} (hty : ty ∈ schema.types) {place : Place} {value : Value} :
    (ty.check (Nested.enterWithin producers remaining) place value ctx).Keeps
      (invariant.matching place ctx) := by
  induction ty using Ty.parts_induction generalizing place value ctx with
  | step ty ih =>
    have seq := invariant.matching_sequential place ctx
    have parts : ∀ sub ∈ ty.parts, ∀ {inner item} {here : Context}, here.registry = registry →
        here.remaining = remaining →
          (sub.check (Nested.enterWithin producers remaining) inner item here).Keeps
            (invariant.matching inner here) := fun sub hsub _ _ here hregistry hremaining =>
      ih sub hsub hregistry hremaining (Schema.mem_types_of_subterm hty
        (Ty.subterms_of_part hsub (Ty.self_mem_subterms sub)))
    -- Elements are matched one step further in, and what fails there is reported at `place`.
    have within : ∀ noun composite, ∀ sub ∈ ty.parts, ∀ inner item,
        (sub.check (Nested.enterWithin producers remaining) inner item
          (ctx.step place.segment)).Keeps ((invariant.matching place ctx).before
            (·.within noun place composite)) := fun noun composite sub hsub inner item =>
      invariant.part noun composite (parts sub hsub hregistry hremaining)
    have mismatch : (Run.fail (.mismatch ty place value) : Run Failure Value).Keeps
        (invariant.matching place ctx) := invariant.own rfl rfl
    by_cases plain : ty.isPlain = true
    · rw [Ty.check_of_isPlain plain]
      split
      · exact .succeed seq value
      · exact mismatch
    cases ty with
    | mapOf keyTy valueTy =>
      cases value with
      | map pairs =>
        rw [Ty.check]
        refine .map seq (.mapError (.traverse (seq.before _) fun pair _ => ?_))
        refine (within "map" _ keyTy (by simp [Ty.parts]) _ _).bind (seq.before _) fun key => ?_
        exact (within "map" _ valueTy (by simp [Ty.parts]) _ _).returning (seq.before _)
      | _ => exact mismatch
    | custom validator =>
      rw [Ty.check]
      cases validator.call value with
      | ok result => exact .succeed seq result
      | error reason => exact invariant.own rfl rfl
    | union alternatives =>
      have each : ∀ ty ∈ alternatives,
          (ty.check (Nested.enterWithin producers remaining) place value ctx).Keeps
            (invariant.matching place ctx) := fun ty hmem => parts ty hmem hregistry hremaining
      refine invariant.keeps_union each fun ty hmem failure failed => ?_
      subst hremaining
      exact invariant.alternative level hty hmem failed (each ty hmem)
    | listOf item =>
      cases value with
      | list items =>
        rw [Ty.check]
        refine .map seq (.mapError (.traverseFrom (seq.before _) fun index element _ => ?_))
        exact within "list" _ item (by simp [Ty.parts]) _ _
      | _ => exact mismatch
    | tuple types =>
      cases value with
      | tuple items =>
        rw [Ty.check]
        split
        · refine .map seq (.mapError (keeps_checkEach (seq.before _) fun ty hmem _ _ => ?_))
          exact within "tuple" _ ty hmem _ _
        · exact mismatch
      | _ => exact mismatch
    | keyed container inner =>
      rw [Ty.check]
      refine (parts container (by simp [Ty.parts]) hregistry hremaining).bind seq fun matched => ?_
      exact nested inner (.type hty) place matched ctx hregistry hremaining
    | _ => exact absurd rfl plain

theorem keeps_checkKey {own name : String} {spec : KeySpec} (h : (own, spec) ∈ schema.keys)
    (value : Value) : (spec.check (Nested.enterWithin producers remaining) name value ctx).Keeps
      (invariant.matching (.key name) ctx) := by
  have seq := invariant.matching_sequential (.key name) ctx
  have hty := Schema.mem_types h (Ty.self_mem_subterms spec.ty)
  refine (invariant.keeps_check level nested hregistry hremaining hty).bind seq fun matched => ?_
  cases hnested : spec.nested with
  | none => exact .succeed seq matched
  | some inner => exact nested inner (.key h hnested) _ matched ctx hregistry hremaining

end MatchInvariant

namespace Invariant

variable (invariant : Invariant producers levels)

section Level

variable (level : levels schema)
  (nested : ∀ nested, schema.Mentions nested → invariant.KeepsInto registry remaining nested)
  (hregistry : ctx.registry = registry) (hremaining : ctx.remaining = remaining)

include level nested hregistry hremaining

theorem keeps_contribute {own name : String} {spec : KeySpec} (h : (own, spec) ∈ schema.keys)
    (input : List (String × Value)) :
    (spec.contribute (Nested.enterWithin producers remaining) input ctx name).Keeps
      (invariant.inside ctx) :=
  .contribute (invariant.inside_sequential ctx) (fun advice => invariant.warning name advice ctx)
    (fun _ _ => invariant.fault rfl)
    fun value => invariant.key (invariant.keeps_checkKey level nested hregistry hremaining h value)

theorem keeps_walkEntries (input : List (String × Value)) :
    (schema.walkEntries (Nested.enterWithin producers remaining) input ctx).Keeps
      (invariant.inside ctx) :=
  .walkEntries (invariant.inside_sequential ctx) (fun _ _ _ => invariant.fault rfl)
    fun _ _ _ h _ => invariant.keeps_contribute level nested hregistry hremaining h input

theorem keeps_walk (value : Value) :
    (schema.walk (Nested.enterWithin producers remaining) value ctx).Keeps
      (invariant.walking ctx) := by
  have inside : (schema.walk (Nested.enterWithin producers remaining) value ctx).Keeps
      (invariant.inside ctx) :=
    .walk (invariant.inside_sequential ctx) (invariant.entered value ctx level)
      (fun _ _ => invariant.fault rfl) (fun _ _ => invariant.fault rfl)
      (invariant.keeps_walkEntries level nested hregistry hremaining)
  subst hremaining
  exact invariant.walk level inside

theorem keeps_walkNested (value : Value) :
    (schema.walkNested (Nested.enterWithin producers remaining) value ctx).Keeps
      (invariant.walking ctx) := by
  have whole := invariant.keeps_walk level nested hregistry hremaining value
  have seq := invariant.walking_sequential ctx
  cases value with
  | list items =>
    refine .map seq (.traverseFrom seq fun index item _ => .mapError ?_)
    have stepped : (ctx.step (.index index)).registry = registry := hregistry
    exact invariant.item (invariant.keeps_walk level nested stepped hremaining item)
  | _ => exact whole

end Level

theorem keepsInto (remaining : Nat) {nested : Nested}
    (every : ∀ next, ctx.resolver producers nested = some next →
      next.EveryLevel (ctx.resolver producers) levels) :
    invariant.KeepsInto ctx.registry remaining nested := by
  induction remaining generalizing nested with
  | zero => exact fun place value here _ _ => invariant.tooDeep place here
  | succ remaining ih =>
    intro place value here hregistry hremaining
    rcases Nested.enterWithin_succ producers remaining nested place value hregistry with
      ⟨name, -, failed⟩ | ⟨next, resolved, walks⟩
    · rw [failed]
      exact invariant.own rfl rfl
    · rw [walks]
      have below := every next resolved
      have registered : (here.descend place.segment).registry = ctx.registry := hregistry
      have descended : (here.descend place.segment).remaining = remaining := by
        rw [Context.remaining_descend, hremaining, Nat.add_sub_cancel]
      have walked : (next.walkNested (Nested.enterWithin producers remaining) value
          (here.descend place.segment)).Keeps (invariant.walking (here.descend place.segment)) :=
        invariant.keeps_walkNested below.self
          (fun _ mention => ih fun _ resolved => below.nested mention resolved) registered descended
          value
      exact .mapError (invariant.nested walked)

/-- What each step contributes to, every validation keeps. -/
theorem keeps_validate (schema : Schema) (value : Value) (ctx : Context)
    (every : schema.EveryLevel (ctx.resolver producers) levels) :
    (schema.validate producers value ctx).Keeps (invariant.walking ctx) :=
  invariant.keeps_walk every.self
    (fun _ mention => invariant.keepsInto ctx.remaining
      fun _ resolved => every.nested mention resolved) rfl rfl value

end Invariant

end Preservation

end OptionSchema
