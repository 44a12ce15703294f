import Mathlib.Logic.Relation
import OptionSchema.Proofs.NestedMappings
import OptionSchema.Proofs.Refusal
/-!
# The trees of failures

Failures are made in many places and made again at each composite on their way out. Still every
failure behind a reported one has one of three forms: something is wrong where it arises and nothing
has caused it, or it passes on the failure of one element, or it lists those of all alternatives of
a union. So the kind and the end of the message of a composite's failure are those of an element
that has failed by itself.
-/
namespace OptionSchema

namespace Failure

theorem sizeOf_cause {failure cause : Failure} (h : cause ∈ failure.causes) :
    sizeOf cause < sizeOf failure := by
  obtain ⟨kind, place, value, message, path, causes⟩ := failure
  have listed : sizeOf cause < sizeOf causes := List.sizeOf_lt_of_mem h
  simp only [Failure.mk.sizeOf_spec]
  omega

theorem causes_induction {motive : Failure → Prop}
    (step : ∀ failure, (∀ cause ∈ failure.causes, motive cause) → motive failure)
    (failure : Failure) : motive failure :=
  step failure fun cause _ => causes_induction step cause
termination_by sizeOf failure
decreasing_by exact sizeOf_cause ‹_›

/-- The failure of a composite passes on that of its one failing element. -/
structure Relays (failure cause : Failure) : Prop where
  causes : failure.causes = [cause]
  path : cause.path = .root
  kind : failure.kind = cause.kind
  message : ∃ noun, failure.value.bind Value.noun? = some noun ∧
    failure.message = "invalid " ++ noun ++ " in " ++ failure.place.text ++ ": " ++ cause.message

/-- Somewhere in a validation, matching the value against the type at the place fails with the
failure. -/
structure Arises (producers : Producers) (levels : Schema → Prop) (registry : Option Registry)
    (ty : Ty) (place : Place) (value : Value) (ctx : Context) (failure : Failure) : Prop where
  type : ∃ level, levels level ∧ ty ∈ level.types
  registry : ctx.registry = registry
  failed : (ty.check (Nested.enterWithin producers ctx.remaining) place value ctx).outcome =
    .error failure

/-- Somewhere in a validation something is wrong at this very place, and the failure says what. -/
inductive Original (producers : Producers) (levels : Schema → Prop) (registry : Option Registry) :
    Failure → Prop where
  | mismatch {ty : Ty} {place : Place} {value : Value} {ctx : Context}
      (other : ¬ ty.Outlines value)
      (arises : Arises producers levels registry ty place value ctx (.mismatch ty place value)) :
      Original producers levels registry (.mismatch ty place value)
  | refused {validator : Validator} {reason : String} {place : Place} {value : Value}
      {ctx : Context} (call : validator.call value = .error reason)
      (arises : Arises producers levels registry (.custom validator) place value ctx
        (.refused reason place value)) :
      Original producers levels registry (.refused reason place value)
  | missing {level : Schema} {name : String} {spec : KeySpec} {input : List (String × Value)}
      (hlevel : levels level) (h : (name, spec) ∈ (level.expand (Entries.names input)).keys)
      (required : spec.required = true) (absent : name ∉ Entries.names input) :
      Original producers levels registry (.missing name (Entries.names input))
  | unknownKeys {level : Schema} {input : List (String × Value)} {names : List String}
      (hlevel : levels level) (undeclared : (level.expand (Entries.names input)).undeclared
        (Entries.names input) = names) (some : names ≠ []) :
      Original producers levels registry
        (.unknownKeys names (level.expand (Entries.names input)).names)
  | notAMapping {value : Value} (alone : value.duplicateIdentifier? = none)
      (unread : value.entries? = none) : Original producers levels registry (.notAMapping value)
  | ambiguousKey {name : String} {value : Value}
      (twice : value.duplicateIdentifier? = some name) :
      Original producers levels registry (.ambiguousKey name value)
  | unresolved {level : Schema} {name : String} {place : Place} (hlevel : levels level)
      (mention : level.Mentions (.ref name))
      (unregistered : (registry.bind fun registry => registry.schema? name) = none) :
      Original producers levels registry (.unresolved name place)
  | tooDeep {level : Schema} {nested : Nested} {place : Place} {ctx : Context}
      (hlevel : levels level) (mention : level.Mentions nested) (limit : ctx.atLimit = true) :
      Original producers levels registry (.tooDeep ctx.maxDepth place)

inductive Form where
  | leaf
  | composite
  | union

/-- The failure has the form, in a validation that meets these levels under the registry. -/
inductive HasForm (producers : Producers) (levels : Schema → Prop) (registry : Option Registry)
    (failure : Failure) : Form → Prop where
  | leaf (own : failure.unnested.Original producers levels registry)
      (alone : failure.causes = []) : HasForm producers levels registry failure .leaf
  /-- The value is the whole composite, and the cause is the failure of a part of it. -/
  | composite {ty sub : Ty} {value item : Value} {inner : Place} {ctx : Context} {cause : Failure}
      (relays : failure.Relays cause) (shown : failure.value = some value)
      (arises : Arises producers levels registry ty failure.place value ctx failure.unnested)
      (hsub : sub ∈ ty.parts) (hitem : item ∈ value.parts)
      (element : Arises producers levels registry sub inner item (ctx.step failure.place.segment)
        cause) : HasForm producers levels registry failure .composite
  /-- The causes are the failures of the alternatives, in their order, on the same value. -/
  | union {alternatives : List Ty} {value : Value} {ctx : Context}
      (kind : failure.kind = .unionExhausted) (shown : failure.value = some value)
      (arises : Arises producers levels registry (.union alternatives) failure.place value ctx
        failure.unnested)
      (each : List.Forall₂ (fun ty cause =>
        Arises producers levels registry ty failure.place value ctx cause) alternatives
          failure.causes)
      (message : failure.message = "expected " ++ failure.place.text
        ++ " to match at least one given type, but didn't match any. "
        ++ "Here are the reasons why it didn't match each of the allowed types:"
        ++ String.join (failure.causes.map fun cause => "\n  * " ++ cause.text)) :
      HasForm producers levels registry failure .union

def Grounded (producers : Producers) (levels : Schema → Prop) (registry : Option Registry)
    (failure : Failure) : Prop :=
  ∀ part, failure.Includes part → ∃ form, part.HasForm producers levels registry form

variable {producers : Producers} {levels : Schema → Prop} {registry : Option Registry}
  {failure cause : Failure} {form : Form}

theorem Includes.trans {part : Failure} (h : failure.Includes cause) (rest : cause.Includes part) :
    failure.Includes part := by
  induction h with
  | self => exact rest
  | cause hcause _ ih => exact .cause hcause (ih rest)

theorem grounded_iff : failure.Grounded producers levels registry ↔
    (∃ form, failure.HasForm producers levels registry form) ∧
      ∀ cause ∈ failure.causes, cause.Grounded producers levels registry := by
  constructor
  · intro h
    exact ⟨h failure (.self failure), fun cause hcause part hpart => h part (.cause hcause hpart)⟩
  · rintro ⟨here, behind⟩ part (_ | ⟨hcause, hpart⟩)
    · exact here
    · exact behind _ hcause part hpart

theorem Original.grounded (h : failure.Original producers levels registry) :
    failure.Grounded producers levels registry := by
  have here : failure.unnested = failure := by cases h <;> rfl
  have alone : failure.causes = [] := by cases h <;> rfl
  refine grounded_iff.mpr ⟨⟨.leaf, .leaf (here ▸ h) alone⟩, fun cause hcause => ?_⟩
  rw [alone] at hcause
  cases hcause

/-- The forms do not depend on where the failure is seen from. -/
theorem HasForm.nest (h : failure.HasForm producers levels registry form) (segment : Segment) :
    (failure.nest segment).HasForm producers levels registry form := by
  cases h with
  | leaf own alone => exact .leaf own alone
  | composite relays shown arises hsub hitem element =>
    exact .composite ⟨relays.causes, relays.path, relays.kind, relays.message⟩ shown arises hsub
      hitem element
  | union kind shown arises each message => exact .union kind shown arises each message

theorem Grounded.nest (h : failure.Grounded producers levels registry) (segment : Segment) :
    (failure.nest segment).Grounded producers levels registry := by
  obtain ⟨⟨form, here⟩, behind⟩ := grounded_iff.mp h
  exact grounded_iff.mpr ⟨⟨form, here.nest segment⟩, behind⟩

/-- A composite with a part that fails: the failure is that of the part, seen from further out, or
relays it. -/
theorem Grounded.within {ty sub : Ty} {place inner : Place} {value item : Value} {ctx : Context}
    {noun : String} (h : cause.Grounded producers levels registry)
    (arises : Arises producers levels registry ty place value ctx (cause.within noun place value))
    (hsub : sub ∈ ty.parts) (hitem : item ∈ value.parts) (hnoun : value.noun? = some noun)
    (element : Arises producers levels registry sub inner item (ctx.step place.segment) cause) :
    (cause.within noun place value).Grounded producers levels registry := by
  by_cases own : cause.path = .root
  · rw [within_of_own own] at arises ⊢
    refine grounded_iff.mpr ⟨⟨.composite, ?_⟩, fun other hother => ?_⟩
    · refine .composite ?_ rfl arises hsub hitem element
      exact ⟨rfl, own, rfl, noun, hnoun, rfl⟩
    · obtain rfl := List.mem_singleton.mp hother
      exact h
  · rw [within_of_nested own]
    exact h.nest place.segment

theorem Grounded.exhausted {alternatives : List Ty} {place : Place} {value : Value} {ctx : Context}
    {causes : List Failure} (h : ∀ cause ∈ causes, cause.Grounded producers levels registry)
    (arises : Arises producers levels registry (.union alternatives) place value ctx
      (.exhausted place value causes))
    (each : List.Forall₂ (fun ty cause => Arises producers levels registry ty place value ctx cause)
      alternatives causes) :
    (Failure.exhausted place value causes).Grounded producers levels registry :=
  grounded_iff.mpr ⟨⟨.union, .union rfl rfl arises each rfl⟩, h⟩

def shape (failure : Failure) : Form :=
  if failure.causes.isEmpty then .leaf
  else if failure.message.toList.head? = some 'i' then .composite
  else .union

theorem Relays.shape_eq (h : failure.Relays cause) : failure.shape = .composite := by
  obtain ⟨noun, -, message⟩ := h.message
  simp [shape, h.causes, message]

theorem shape_eq_union (some : failure.causes ≠ []) (message : ∃ reasons, failure.message =
    "expected " ++ failure.place.text ++ " to match at least one given type, but didn't match any. "
      ++ "Here are the reasons why it didn't match each of the allowed types:" ++ reasons) :
    failure.shape = .union := by
  obtain ⟨reasons, message⟩ := message
  simp [shape, some, message]

/-- Where unions have alternatives, no failure has two of the forms. -/
theorem HasForm.eq_shape (wellDefined : ∀ level, levels level → level.WellDefined)
    (h : failure.HasForm producers levels registry form) : form = failure.shape := by
  cases h with
  | leaf own alone => simp [shape, alone]
  | composite relays => exact relays.shape_eq.symm
  | union kind shown arises each message =>
    obtain ⟨level, hlevel, hty⟩ := arises.type
    have alternatives := (wellDefined level hlevel).of_type hty
    have some : failure.causes ≠ [] := by
      intro none
      rw [none] at each
      cases each
      exact alternatives rfl
    exact (shape_eq_union some ⟨_, message⟩).symm

/-- Going from composite to composite ends at a failure that is not that of a composite. On the way
the kind stays, and messages lose their beginning only. -/
theorem Grounded.exists_element (h : failure.Grounded producers levels registry) :
    ∃ element form, Relation.ReflTransGen Relays failure element ∧
      element.HasForm producers levels registry form ∧ form ≠ .composite ∧
      element.kind = failure.kind ∧ ∃ before, failure.message = before ++ element.message := by
  induction failure using causes_induction with
  | step failure ih =>
    obtain ⟨⟨form, here⟩, behind⟩ := grounded_iff.mp h
    cases here with
    | composite relays =>
      obtain ⟨cause, relays⟩ : ∃ cause, failure.Relays cause := ⟨_, relays⟩
      have hcause : cause ∈ failure.causes := by simp [relays.causes]
      obtain ⟨element, form, leads, hform, own, kind, before, message⟩ :=
        ih cause hcause (behind cause hcause)
      obtain ⟨noun, -, relayed⟩ := relays.message
      refine ⟨element, form, leads.head relays, hform, own, kind.trans relays.kind.symm, ?_⟩
      exact ⟨_, by rw [relayed, message, ← String.append_assoc]⟩
    | leaf own alone =>
      exact ⟨failure, .leaf, .refl, .leaf own alone, nofun, rfl, "", by simp⟩
    | union kind shown arises each message =>
      exact ⟨failure, .union, .refl, .union kind shown arises each message, nofun, rfl, "", by simp⟩

end Failure

def groundedFailures (producers : Producers) (levels : Schema → Prop)
    (registry : Option Registry) : Run.Promise Failure := fun error _ =>
  ∀ failure, error = some failure → failure.Grounded producers levels registry

namespace GroundedFailures

variable {producers : Producers} {levels : Schema → Prop} {registry : Option Registry}
  {schema : Schema} {remaining : Nat} {ctx : Context} {failure : Failure}

theorem sequential : (groundedFailures producers levels registry).Sequential :=
  ⟨nofun, fun _ h => h⟩

theorem of_failures {α : Type} {run : Run Failure α} (h : ∀ failure, run.outcome = .error failure →
    failure.Grounded producers levels registry) :
    run.Keeps (groundedFailures producers levels registry) :=
  fun failure failed => h failure (Run.error?_eq_some.mp failed)

theorem of_original {journal : List Note} (h : failure.Original producers levels registry) :
    groundedFailures producers levels registry (some failure) journal := by
  rintro _ ⟨⟩
  exact h.grounded

theorem nest {error : Option Failure} {journal : List Note}
    (h : groundedFailures producers levels registry error journal) (segment : Segment) :
    groundedFailures producers levels registry (error.map (·.nest segment)) journal := by
  intro failure heq
  obtain ⟨own, hown, rfl⟩ := Option.map_eq_some_iff.mp heq
  exact (h own hown).nest segment

def Enters (producers : Producers) (levels : Schema → Prop) (registry : Option Registry)
    (remaining : Nat) (nested : Nested) : Prop :=
  ∀ level, levels level → level.Mentions nested →
    ∀ place value (ctx : Context), ctx.registry = registry → ctx.remaining = remaining →
    (Nested.enterWithin producers remaining nested place value ctx).Keeps
      (groundedFailures producers levels registry)

variable (level : levels schema)
  (nested : ∀ nested, schema.Mentions nested → Enters producers levels registry remaining nested)
  (hregistry : ctx.registry = registry) (hremaining : ctx.remaining = remaining)

include level nested hregistry hremaining

theorem grounded_of_check {ty : Ty} (hty : ty ∈ schema.types) {place : Place} {value : Value}
    (failed : (ty.check (Nested.enterWithin producers remaining) place value ctx).outcome =
      .error failure) : failure.Grounded producers levels registry := by
  -- A part is matched at a place of its own, but at the same level: only the place, the value and
  -- the path of the context change on the way to it.
  induction ty using Ty.parts_induction generalizing place value ctx failure with
  | step ty ih =>
    have mem : ∀ sub ∈ ty.parts, sub ∈ schema.types := fun sub hsub =>
      Schema.mem_types_of_subterm hty (Ty.subterms_of_part hsub (Ty.self_mem_subterms sub))
    have arises : ∀ {ty inner item failure} {here : Context}, ty ∈ schema.types →
        here.registry = registry → here.remaining = remaining →
        (ty.check (Nested.enterWithin producers remaining) inner item here).outcome =
          .error failure →
        failure.Arises producers levels registry ty inner item here := by
      intro ty inner item failure here hmem hregistry hremaining stopped
      rw [← hremaining] at stopped
      exact ⟨⟨schema, level, hmem⟩, hregistry, stopped⟩
    have own := arises hty hregistry hremaining failed
    cases Ty.refuses_of_check failed with
    | mismatch other => exact Failure.Original.grounded (.mismatch other own)
    | refused call => exact Failure.Original.grounded (.refused call own)
    | part hsub hitem hnoun stopped =>
      have inward : (ctx.step place.segment).registry = registry := hregistry
      have element := arises (mem _ hsub) inward hremaining stopped
      have grounded := ih _ hsub inward hremaining (mem _ hsub) stopped
      exact grounded.within own hsub hitem hnoun element
    | exhausted each =>
      refine .exhausted (fun cause hcause => ?_) own (forall₂_imp_mem each ?_)
      · obtain ⟨ty, hmem, stopped⟩ := (Rearranged.of_forall₂ each).back hcause
        exact ih ty hmem hregistry hremaining (mem ty hmem) stopped
      · exact fun ty hmem cause _ stopped => arises (mem ty hmem) hregistry hremaining stopped
    | container stopped =>
      exact ih _ (by simp [Ty.parts]) hregistry hremaining (mem _ (by simp [Ty.parts])) stopped
    | onward stopped =>
      have mention : schema.Mentions _ := .type hty
      exact nested _ mention schema level mention place _ ctx hregistry hremaining failure
        (Run.error?_eq_some.mpr stopped)

theorem keeps_checkKey {own name : String} {spec : KeySpec} (h : (own, spec) ∈ schema.keys)
    (value : Value) : (spec.check (Nested.enterWithin producers remaining) name value ctx).Keeps
      (groundedFailures producers levels registry) := by
  have hty := Schema.mem_types h (Ty.self_mem_subterms spec.ty)
  have matched : (spec.ty.check (Nested.enterWithin producers remaining) (.key name) value
      ctx).Keeps (groundedFailures producers levels registry) :=
    of_failures fun _ => grounded_of_check level nested hregistry hremaining hty
  refine matched.bind sequential fun matched => ?_
  cases hnested : spec.nested with
  | none => exact .succeed sequential matched
  | some inner =>
    have mention : schema.Mentions inner := .key h hnested
    exact nested inner mention schema level mention _ matched ctx hregistry hremaining

theorem keeps_walk (value : Value) :
    (schema.walk (Nested.enterWithin producers remaining) value ctx).Keeps
      (groundedFailures producers levels registry) := by
  refine .walk sequential nofun (fun _ twice => of_original (.ambiguousKey twice))
    (fun alone unread => of_original (.notAMapping alone unread)) fun input => ?_
  refine .walkEntries sequential
    (fun _ undeclared some => of_original (.unknownKeys level undeclared some))
    fun name own spec hown hspec => ?_
  refine .contribute sequential (fun _ => nofun) (fun absent required => of_original ?_)
    fun held => keeps_checkKey level nested hregistry hremaining hown held
  exact .missing level hspec required (Entries.lookup_eq_none.mp absent)

theorem keeps_walkNested (value : Value) :
    (schema.walkNested (Nested.enterWithin producers remaining) value ctx).Keeps
      (groundedFailures producers levels registry) := by
  cases value with
  | list items =>
    refine .map sequential (.traverseFrom sequential fun index item _ => .mapError ?_)
    have stepped : (ctx.step (.index index)).registry = registry := hregistry
    exact nest (keeps_walk level nested stepped hremaining item) _
  | _ => exact keeps_walk level nested hregistry hremaining _

omit level nested hregistry hremaining in
theorem enters (remaining : Nat) {nested : Nested}
    (every : ∀ next, ctx.resolver producers nested = some next →
      next.EveryLevel (ctx.resolver producers) levels) :
    Enters producers levels ctx.registry remaining nested := by
  induction remaining generalizing nested with
  | zero =>
    intro level hlevel mention place value here _ hremaining
    have limit : groundedFailures producers levels ctx.registry
        (some (.tooDeep here.maxDepth place)) [.limitReached place here] :=
      of_original (.tooDeep hlevel mention (here.atLimit_iff_remaining.mpr hremaining))
    exact limit
  | succ remaining ih =>
    intro level hlevel mention place value here hregistry hremaining
    rcases Nested.enterWithin_succ producers remaining nested place value hregistry with
      ⟨name, ⟨rfl, unregistered⟩, failed⟩ | ⟨next, resolved, walks⟩
    · rw [failed]
      exact of_original (.unresolved hlevel mention unregistered)
    · rw [walks]
      have below := every next resolved
      have registered : (here.descend place.segment).registry = ctx.registry := hregistry
      have descended : (here.descend place.segment).remaining = remaining := by
        rw [Context.remaining_descend, hremaining, Nat.add_sub_cancel]
      have walked := keeps_walkNested below.self
        (fun _ mention => ih fun _ resolved => below.nested mention resolved) registered descended
        value
      exact .mapError (nest walked _)

omit level nested hregistry hremaining in
theorem grounded_of_validate {value : Value}
    (every : schema.EveryLevel (ctx.resolver producers) levels)
    (failed : (schema.validate producers value ctx).outcome = .error failure) :
    failure.Grounded producers levels ctx.registry :=
  keeps_walk every.self
    (fun _ mention => enters ctx.remaining fun _ resolved => every.nested mention resolved) rfl rfl
    value failure (Run.error?_eq_some.mpr failed)

end GroundedFailures

/-- Every failure behind the reported one has exactly one of the forms. Going from composite to
composite leads to a failing element with the same kind, whose message ends the one reported. -/
theorem failure_tree_wellFormed (producers : Producers) (schema : Schema) (value : Value)
    (ctx : Context) (failure part : Failure)
    (passes : schema.EveryLevel (ctx.resolver producers) (·.Passes producers))
    (failed : (schema.validate producers value ctx).outcome = .error failure)
    (included : failure.Includes part) :
    let levels := schema.Reaches (ctx.resolver producers)
    (∃! form, part.HasForm producers levels ctx.registry form) ∧
      ∃ element form, Relation.ReflTransGen Failure.Relays part element ∧
        element.HasForm producers levels ctx.registry form ∧ form ≠ .composite ∧
        element.kind = part.kind ∧ ∃ before, part.message = before ++ element.message := by
  intro levels
  have wellDefined : ∀ level, levels level → level.WellDefined := fun level reached =>
    ((passes level reached).clean .self).wellDefined
  have grounded : failure.Grounded producers levels ctx.registry :=
    GroundedFailures.grounded_of_validate (fun _ reached => reached) failed
  obtain ⟨form, hform⟩ := grounded part included
  refine ⟨⟨form, hform, fun other hother => ?_⟩, ?_⟩
  · exact (hother.eq_shape wellDefined).trans (hform.eq_shape wellDefined).symm
  · exact Failure.Grounded.exists_element fun inner hinner => grounded inner (included.trans hinner)

section Listen

def listenSchema : Schema :=
  ⟨[("listen", { ty := .listOf (.union [.posInteger, .tuple [.string, .posInteger]]) })]⟩

def listen : Value :=
  .keywords [("listen", .list [.integer 80, .tuple [.string "db", .integer 0]])]

def zeroRefused : Failure := .mismatch .posInteger (.position 1) (.integer 0)

def pairRefused : Failure :=
  zeroRefused.within "tuple" (.position 1) (.tuple [.string "db", .integer 0])

def numberRefused : Failure :=
  .mismatch .posInteger (.position 1) (.tuple [.string "db", .integer 0])

def portRefused : Failure :=
  .exhausted (.position 1) (.tuple [.string "db", .integer 0]) [numberRefused, pairRefused]

def portsRefused : Failure :=
  portRefused.within "list" (.key "listen") (.list [.integer 80, .tuple [.string "db", .integer 0]])

theorem listenSchema_everyLevel {resolve : Resolver} {P : Schema → Prop} (self : P listenSchema) :
    listenSchema.EveryLevel resolve P := by
  refine .of_mentions self fun nested next mention => ?_
  simp [Schema.mentions_iff, listenSchema, Schema.types, Ty.subterms, Ty.subtermsOfAll] at mention

/-- The list relays the failure of its second port. That one was tried as a number and as a pair,
and the pair relays the failure of the number in it. -/
theorem listen_refused :
    (listenSchema.validate (fun _ => .empty) listen .new).outcome = .error portsRefused ∧
    (portsRefused.causes = [portRefused] ∧ portRefused.causes = [numberRefused, pairRefused] ∧
      pairRefused.causes = [zeroRefused]) ∧
    (∀ part form, (part, form) ∈ [(portsRefused, Failure.Form.composite), (portRefused, .union),
        (numberRefused, .leaf), (pairRefused, .composite), (zeroRefused, .leaf)] →
      part.HasForm (fun _ => .empty) (listenSchema.Reaches (Context.new.resolver fun _ => .empty))
        none form) ∧
    ∃ element, Relation.ReflTransGen Failure.Relays portsRefused element ∧
      element.kind = .unionExhausted ∧
      ∃ before, portsRefused.message = before ++ element.message := by
  have passes : listenSchema.EveryLevel (Context.new.resolver fun _ => .empty)
      (·.Passes fun _ => .empty) := listenSchema_everyLevel rfl
  have failed : (listenSchema.validate (fun _ => .empty) listen .new).outcome =
      .error portsRefused := rfl
  have tree := fun part => failure_tree_wellFormed (fun _ => .empty) listenSchema listen .new
    portsRefused part passes failed
  have formed : ∀ {part}, portsRefused.Includes part → part.HasForm (fun _ => .empty)
      (listenSchema.Reaches (Context.new.resolver fun _ => .empty)) none part.shape := by
    intro part included
    obtain ⟨form, hform, -⟩ := (tree part included).1
    exact hform.eq_shape (fun level reached => ((passes level reached).clean .self).wellDefined) ▸
      hform
  have ports : portsRefused.Relays portRefused := ⟨rfl, rfl, rfl, "list", rfl, rfl⟩
  have pair : pairRefused.Relays zeroRefused := ⟨rfl, rfl, rfl, "tuple", rfl, rfl⟩
  have port : portRefused.shape = .union := Failure.shape_eq_union (List.cons_ne_nil _ _) ⟨_, rfl⟩
  have inPorts : portsRefused.Includes portRefused := .cause List.mem_cons_self (.self _)
  have inPort : ∀ {part}, part ∈ portRefused.causes → portsRefused.Includes part :=
    fun h => inPorts.trans (.cause h (.self _))
  have inPair : portsRefused.Includes zeroRefused :=
    (inPort (List.mem_cons_of_mem _ List.mem_cons_self)).trans
      (.cause List.mem_cons_self (.self _))
  obtain ⟨-, element, form, leads, -, -, kind, message⟩ := tree _ (.self _)
  refine ⟨failed, ⟨rfl, rfl, rfl⟩, ?_, element, leads, kind, message⟩
  simp only [List.mem_cons, List.not_mem_nil, or_false, Prod.mk.injEq]
  rintro _ _ (⟨rfl, rfl⟩ | ⟨rfl, rfl⟩ | ⟨rfl, rfl⟩ | ⟨rfl, rfl⟩ | ⟨rfl, rfl⟩)
  · exact ports.shape_eq ▸ formed (.self _)
  · exact port ▸ formed inPorts
  · exact formed (inPort List.mem_cons_self)
  · exact pair.shape_eq ▸ formed (inPort (List.mem_cons_of_mem _ List.mem_cons_self))
  · exact formed inPair

end Listen

end OptionSchema
