import OptionSchema.Log
import OptionSchema.Proofs.Output
import OptionSchema.Proofs.Schema.Likeness
/-!
# Runs that look alike

Two runs look alike if they end with the same value or the same failure and leave the same lines in
the log. Levels that differ in what is nested in them only are walked alike, provided that their
nested schemas are entered alike. The contexts of the two runs may differ in all but the path.
-/
namespace OptionSchema

namespace Run

variable {ε δ α β : Type}

structure LooksLike (run other : Run ε α) : Prop where
  outcome : run.outcome = other.outcome
  log : run.log = other.log

namespace LooksLike

variable {run other : Run ε α}

theorem refl (run : Run ε α) : run.LooksLike run := ⟨rfl, rfl⟩

theorem log_append {as as' bs bs' : List Note}
    (ha : as.filterMap Note.line? = as'.filterMap Note.line?)
    (hb : bs.filterMap Note.line? = bs'.filterMap Note.line?) :
    (as ++ bs).filterMap Note.line? = (as' ++ bs').filterMap Note.line? := by
  rw [List.filterMap_append, List.filterMap_append, ha, hb]

theorem bind {next next' : α → Run ε β} (h : run.LooksLike other)
    (hnext : ∀ value, (next value).LooksLike (next' value)) :
    (run >>= next).LooksLike (other >>= next') := by
  obtain ⟨outcome, journal⟩ := run
  obtain ⟨outcome', journal'⟩ := other
  obtain ⟨rfl, hlog⟩ := h
  cases outcome with
  | error error => exact ⟨rfl, hlog⟩
  | ok value => exact ⟨(hnext value).outcome, log_append hlog (hnext value).log⟩

theorem map {f : α → β} (h : run.LooksLike other) : (f <$> run).LooksLike (f <$> other) := by
  change (run >>= fun value => Run.succeed (f value)).LooksLike
    (other >>= fun value => Run.succeed (f value))
  exact h.bind fun _ => refl _

theorem mapError {f : ε → δ} (h : run.LooksLike other) :
    (run.mapError f).LooksLike (other.mapError f) :=
  ⟨congrArg (Except.mapError f) h.outcome, h.log⟩

theorem orCollect {next next' : Unit → Run (List ε) α} (h : run.LooksLike other)
    (hnext : (next ()).LooksLike (next' ())) :
    (run.orCollect next).LooksLike (other.orCollect next') := by
  obtain ⟨outcome, journal⟩ := run
  obtain ⟨outcome', journal'⟩ := other
  obtain ⟨rfl, hlog⟩ := h
  cases outcome with
  | ok value => exact ⟨rfl, hlog⟩
  | error error =>
    exact ⟨congrArg (Except.mapError (error :: ·)) hnext.outcome, log_append hlog hnext.log⟩

theorem traverse {f g : α → Run ε β} {items : List α} (h : ∀ item, (f item).LooksLike (g item)) :
    (Run.traverse f items).LooksLike (Run.traverse g items) := by
  induction items with
  | nil => exact refl _
  | cons item items ih => exact (h item).bind fun _ => ih.bind fun _ => refl _

theorem traverseFrom {f g : Nat → α → Run ε β} {items : List α} {position : Nat}
    (h : ∀ index item, (f index item).LooksLike (g index item)) :
    (Run.traverseFrom f position items).LooksLike (Run.traverseFrom g position items) := by
  induction items generalizing position with
  | nil => exact refl _
  | cons item items ih => exact (h position item).bind fun _ => ih.bind fun _ => refl _

end LooksLike

end Run

def Enter.LooksLike (C : Context → Prop) (R : Nested → Nested → Prop) (enter other : Enter) :
    Prop :=
  ∀ nested nested' place value ctx, C ctx → R nested nested' →
    (enter nested place value ctx).LooksLike (other nested' place value ctx)

/-- Where `C` relates the contexts of the two runs, nested schemas that `R` relates are entered
alike. -/
def Enter.LooksLikeAcross (C : Context → Context → Prop) (R : Nested → Nested → Prop)
    (enter other : Enter) : Prop :=
  ∀ nested nested' place value ctx ctx', C ctx ctx' → R nested nested' →
    (enter nested place value ctx).LooksLike (other nested' place value ctx')

theorem Enter.LooksLike.across {C : Context → Prop} {R : Nested → Nested → Prop}
    {enter other : Enter} (h : enter.LooksLike C R other) :
    enter.LooksLikeAcross (fun ctx ctx' => ctx = ctx' ∧ C ctx) R other := by
  rintro nested nested' place value ctx ctx' ⟨rfl, hctx⟩ hnested
  exact h nested nested' place value ctx hctx hnested

/-- Related contexts stand at one path and remain related on the way into a value. -/
structure Context.Abreast (C : Context → Context → Prop) : Prop where
  path : ∀ {ctx ctx'}, C ctx ctx' → ctx.path = ctx'.path
  step : ∀ {ctx ctx'} segment, C ctx ctx' → C (ctx.step segment) (ctx'.step segment)

theorem Context.Abreast.of_eq {C : Context → Prop}
    (step : ∀ ctx segment, C ctx → C (ctx.step segment)) :
    Context.Abreast fun ctx ctx' => ctx = ctx' ∧ C ctx where
  path h := congrArg Context.path h.1
  step segment h := ⟨congrArg (Context.step · segment) h.1, step _ segment h.2⟩

theorem Failure.mismatch_congr {ty other : Ty} (h : ty.expectation = other.expectation)
    (place : Place) (value : Value) : mismatch ty place value = mismatch other place value := by
  rw [mismatch, mismatch, h]

section Walk

variable {C : Context → Context → Prop} {R : Nested → Nested → Prop} {enter other : Enter}
  {ctx ctx' : Context} (abreast : Context.Abreast C) (alike : enter.LooksLikeAcross C R other)

namespace Ty

theorem looksLike_checkAny {types others : List Ty} {place : Place} {value : Value}
    (h : List.Forall₂ (fun ty ty' =>
      (ty.check enter place value ctx).LooksLike (ty'.check other place value ctx')) types others) :
    (checkAny enter types place value ctx).LooksLike (checkAny other others place value ctx') := by
  induction h with
  | nil => exact .refl _
  | cons head _ ih => exact head.orCollect ih

theorem looksLike_checkEach {types others : List Ty} {index : Nat} {items : List Value}
    (h : List.Forall₂ (fun ty ty' => ∀ place value,
      (ty.check enter place value ctx).LooksLike (ty'.check other place value ctx')) types others) :
    (checkEach enter types index items ctx).LooksLike
      (checkEach other others index items ctx') := by
  induction h generalizing index items with
  | nil => exact .refl _
  | cons head _ ih =>
    cases items with
    | nil => exact .refl _
    | cons item items => exact (head _ item).bind fun _ => ih.bind fun _ => .refl _

include abreast alike

theorem SameUpTo.looksLike_check {ty ty' : Ty} (h : ty.SameUpTo R ty') {place : Place}
    {value : Value} (hctx : C ctx ctx') :
    (ty.check enter place value ctx).LooksLike (ty'.check other place value ctx') := by
  induction ty using parts_induction generalizing ty' place value ctx ctx' with
  | step ty ih =>
    have mismatch : (Run.fail (.mismatch ty place value) : Run Failure Value).LooksLike
        (Run.fail (.mismatch ty' place value)) := by
      rw [Failure.mismatch_congr h.expectation_eq]
      exact .refl _
    have inner := abreast.step place.segment hctx
    cases h with
    | plain plain =>
      rw [check_of_isPlain plain, check_of_isPlain plain]
      exact .refl _
    | custom validator => exact .refl _
    | @mapOf keyTy keyTy' valueTy valueTy' hkey hvalue =>
      cases value with
      | map pairs =>
        rw [Ty.check, Ty.check]
        refine .map (.mapError (.traverse fun pair => ?_))
        refine (ih keyTy (by simp [parts]) hkey inner).bind fun key => ?_
        exact (ih valueTy (by simp [parts]) hvalue inner).bind fun _ => .refl _
      | _ => exact mismatch
    | @union as bs items =>
      rw [Ty.check, Ty.check]
      refine .mapError (looksLike_checkAny ?_)
      exact forall₂_imp_mem items fun ty hty ty' _ hsame => ih ty hty hsame hctx
    | @listOf item item' hitem =>
      cases value with
      | list items =>
        rw [Ty.check, Ty.check]
        exact .map (.mapError (.traverseFrom fun _ _ => ih item (by simp [parts]) hitem inner))
      | _ => exact mismatch
    | @tuple as bs types =>
      cases value with
      | tuple items =>
        rw [Ty.check, Ty.check, ← types.length_eq]
        split
        · refine .map (.mapError (looksLike_checkEach ?_))
          exact forall₂_imp_mem types fun ty hty ty' _ hsame _ _ => ih ty hty hsame inner
        · exact mismatch
      | _ => exact mismatch
    | @keyed container container' nested nested' hcontainer hnested =>
      rw [Ty.check, Ty.check]
      refine (ih container (by simp [parts]) hcontainer hctx).bind fun matched => ?_
      exact alike nested nested' place matched ctx ctx' hctx hnested

end Ty

namespace KeySpec.SameUpTo

variable {spec spec' : KeySpec} {name : String}

theorem warn (h : spec.SameUpTo R spec') (name : String) (hpath : ctx.path = ctx'.path) :
    spec.warn name ctx = spec'.warn name ctx' := by
  rw [KeySpec.warn, KeySpec.warn, h.deprecated, hpath]

include abreast alike

theorem looksLike_check (h : spec.SameUpTo R spec') {value : Value} (hctx : C ctx ctx') :
    (spec.check enter name value ctx).LooksLike (spec'.check other name value ctx') := by
  refine (h.ty.looksLike_check abreast alike hctx).bind fun matched => ?_
  have hnested := h.nested
  generalize spec.nested = nested at hnested
  generalize spec'.nested = nested' at hnested
  cases hnested with
  | none => exact .refl _
  | some hnested => exact alike _ _ _ matched ctx ctx' hctx hnested

theorem looksLike_contribute (h : spec.SameUpTo R spec') {input : List (String × Value)}
    (hctx : C ctx ctx') : (spec.contribute enter input ctx name).LooksLike
      (spec'.contribute other input ctx' name) := by
  rw [KeySpec.contribute, KeySpec.contribute, h.warn name (abreast.path hctx), h.required,
    h.default]
  cases input.lookup name with
  | some value => exact (Run.LooksLike.refl (spec'.warn name ctx')).bind fun _ =>
      (h.looksLike_check abreast alike hctx).map
  | none =>
    cases spec'.required with
    | true => exact .refl _
    | false =>
      cases spec'.default with
      | none => exact .refl _
      | some value => exact (h.looksLike_check abreast alike hctx).map

end KeySpec.SameUpTo

namespace Schema

theorem looksLike_contributions {contribute contribute' : String → KeySpec →
      Run Failure (Option Value)} {keys keys' : List (String × KeySpec)}
    (h : List.Forall₂ (fun entry entry' => entry.1 = entry'.1 ∧
      (contribute entry.1 entry.2).LooksLike (contribute' entry'.1 entry'.2)) keys keys') :
    (contributions contribute keys).LooksLike (contributions contribute' keys') := by
  induction h with
  | nil => exact .refl _
  | @cons entry entry' keys keys' hentry _ ih =>
    obtain ⟨name, spec⟩ := entry
    obtain ⟨name', spec'⟩ := entry'
    obtain ⟨rfl, given⟩ := hentry
    exact given.bind fun _ => ih.bind fun _ => .refl _

namespace SameUpTo

variable {schema schema' : Schema}

include abreast alike

theorem looksLike_walkEntries (h : schema.SameUpTo R schema') {input : List (String × Value)}
    (hctx : C ctx ctx') :
    (schema.walkEntries enter input ctx).LooksLike (schema'.walkEntries other input ctx') := by
  have expanded := h.expand (Entries.names input)
  rw [Schema.walkEntries, Schema.walkEntries, expanded.undeclared_eq, expanded.names_eq]
  cases (schema'.expand (Entries.names input)).undeclared (Entries.names input) with
  | cons name names => exact .refl _
  | nil =>
    refine looksLike_contributions (List.Forall₂.imp (fun entry entry' hentry => ?_) expanded)
    rw [hentry.1]
    exact ⟨rfl, hentry.2.looksLike_contribute abreast alike hctx⟩

theorem looksLike_walk (h : schema.SameUpTo R schema') {value : Value} (hctx : C ctx ctx') :
    (schema.walk enter value ctx).LooksLike (schema'.walk other value ctx') := by
  have noted : (Run.note (.entered schema value ctx) : Run Failure Unit).LooksLike
      (Run.note (.entered schema' value ctx')) := ⟨rfl, rfl⟩
  refine noted.bind fun _ => ?_
  cases value with
  | keywords input => exact (h.looksLike_walkEntries abreast alike hctx).map
  | map pairs =>
    rw [walkMapping, walkMapping]
    cases (Value.map pairs).duplicateIdentifier? with
    | some name => exact .refl _
    | none =>
      cases (Value.map pairs).entries? with
      | none => exact .refl _
      | some input => exact (h.looksLike_walkEntries abreast alike hctx).bind fun _ => .refl _
  | _ => exact .refl _

theorem looksLike_walkNested (h : schema.SameUpTo R schema') {value : Value} (hctx : C ctx ctx') :
    (schema.walkNested enter value ctx).LooksLike (schema'.walkNested other value ctx') := by
  have whole : (schema.walk enter value ctx).LooksLike (schema'.walk other value ctx') :=
    h.looksLike_walk abreast alike hctx
  cases value with
  | list items =>
    refine .map (.traverseFrom fun index item => .mapError ?_)
    exact h.looksLike_walk abreast alike (abreast.step _ hctx)
  | _ => exact whole

end SameUpTo

end Schema

end Walk

section OneContext

variable {C : Context → Prop} {R : Nested → Nested → Prop} {enter other : Enter} {ctx : Context}
  (step : ∀ ctx segment, C ctx → C (ctx.step segment)) (alike : enter.LooksLike C R other)

include step alike

theorem KeySpec.SameUpTo.check {spec spec' : KeySpec} (h : spec.SameUpTo R spec') {name : String}
    {value : Value} (hctx : C ctx) :
    (spec.check enter name value ctx).LooksLike (spec'.check other name value ctx) :=
  h.looksLike_check (.of_eq step) alike.across ⟨rfl, hctx⟩

namespace Schema.SameUpTo

variable {schema schema' : Schema}

theorem walk (h : schema.SameUpTo R schema') {value : Value} (hctx : C ctx) :
    (schema.walk enter value ctx).LooksLike (schema'.walk other value ctx) :=
  h.looksLike_walk (.of_eq step) alike.across ⟨rfl, hctx⟩

theorem walkNested (h : schema.SameUpTo R schema') {value : Value} (hctx : C ctx) :
    (schema.walkNested enter value ctx).LooksLike (schema'.walkNested other value ctx) :=
  h.looksLike_walkNested (.of_eq step) alike.across ⟨rfl, hctx⟩

end Schema.SameUpTo

end OneContext

/-- Where a value is told how many levels may be entered makes no difference. -/
theorem Nested.looksLike_enter (producers : Producers) (levels : Nat) :
    (Nested.enter producers).LooksLike (·.remaining = levels) (· = ·)
      (Nested.enterWithin producers levels) := by
  intro nested nested' place value ctx hctx same
  rw [Nested.enter, hctx, same]
  exact .refl _

theorem KeySpec.looksLike_check_enter (producers : Producers) (spec : KeySpec) (name : String)
    (value : Value) (ctx : Context) :
    (spec.check (Nested.enter producers) name value ctx).LooksLike
      (spec.check (Nested.enterWithin producers ctx.remaining) name value ctx) :=
  (KeySpec.SameUpTo.refl (fun _ => rfl) spec).check (fun _ _ h => h)
    (Nested.looksLike_enter producers ctx.remaining) rfl

theorem KeySpec.result?_check_enter (producers : Producers) (spec : KeySpec) (name : String)
    (value : Value) (ctx : Context) :
    (spec.check (Nested.enter producers) name value ctx).result? =
      spec.output (Nested.output (ctx.resolver producers) ctx.remaining) value := by
  rw [Run.result?, (looksLike_check_enter producers spec name value ctx).outcome]
  exact KeySpec.result?_check (Nested.returns_enterWithin producers ctx ctx.remaining) spec name
    value ctx rfl

end OptionSchema
