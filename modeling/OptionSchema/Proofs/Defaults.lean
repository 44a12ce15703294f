import OptionSchema.Proofs.Foresight
import OptionSchema.Proofs.Schema.Deletion
import OptionSchema.Proofs.Widening
/-!
# Defaults never cause a rejection

Compiling runs every default that validation can put in the place of an absent key, once and under
the usual limit. Where nested schemas stand in place, a default that passes there is accepted
wherever the limit leaves room for the levels below it: without defaults these levels accept no less
than with them.
-/
namespace OptionSchema

def Schema.NestsInPlace (level : Schema) : Prop :=
  ∀ nested, level.Mentions nested → ∃ next, nested = .inline next

structure Schema.ReviewedInPlace (producers : Producers) (level : Schema) : Prop where
  clean : level.Clean producers (.once producers)
  inPlace : level.NestsInPlace

variable {producers : Producers} {schema : Schema} {levels : Nat}

namespace Schema

theorem ReviewedInPlace.wellKeyed (h : schema.ReviewedInPlace producers) : schema.WellKeyed :=
  h.clean.wellDefined.wellKeyed

/-- Into schemas in place the review goes all the way, and these are the same in all contexts. -/
theorem Passes.reviewed_everyLevel {ctx : Context} (passes : schema.Passes producers)
    (inPlace : schema.EveryLevel (ctx.resolver producers) NestsInPlace) :
    schema.EveryLevel (Context.new.resolver producers) (ReviewedInPlace producers) := by
  have clean : schema.Clean producers (.once producers) := passes.clean .self
  clear passes
  intro level reaches
  induction reaches with
  | refl schema => exact ⟨clean, inPlace.self⟩
  | step mention resolved rest ih =>
    obtain ⟨next, rfl⟩ := inPlace.self _ mention
    cases resolved
    exact ih (inPlace.nested mention rfl) (clean.inline mention)

/-- No reference can be missing, so the check on the default was conclusive. -/
theorem default_accepted
    (every : schema.EveryLevel (Context.new.resolver producers) (ReviewedInPlace producers))
    {name : String} {spec : KeySpec} (h : (name, spec) ∈ schema.keys) {value : Value}
    (hdefault : spec.default = some value) :
    (spec.output (Nested.output (Context.new.resolver producers) defaultMaxDepth)
      value).isSome := by
  have foretelling : schema.EveryLevel (Context.new.resolver producers)
      (Foretelling (Context.new.resolver producers) False) := fun level reaches => by
    have reviewed := every level reaches
    refine ⟨reviewed.wellKeyed, fun nested mention unresolved => ?_⟩
    obtain ⟨next, rfl⟩ := reviewed.inPlace nested mention
    cases unresolved
  have foretells : (spec.checkDefault producers name value).ForetellsSome False
      (spec.output (Nested.output (Context.new.resolver producers) defaultMaxDepth) value) :=
    KeySpec.foretells_checkDefault (fun _ _ h => h) foretelling h value
  cases hrun : (spec.checkDefault producers name value).outcome with
  | ok result => exact foretells.accepts result hrun
  | error failure =>
    obtain ⟨path, reviewed⟩ := every.self.clean.reviewed h
    have unresolved := reviewed.default value failure hdefault hrun
    exact (foretells.lacks failure hrun (.here unresolved)).elim

end Schema

/-- The nested schema stands in place, is reviewed throughout and fits into so many levels. -/
def Nested.Within (producers : Producers) (levels : Nat) (nested : Nested) : Prop :=
  ∃ next, nested = .inline next ∧ next.nesting < levels ∧
    next.EveryLevel (Context.new.resolver producers) (Schema.ReviewedInPlace producers)

/-- The other nested schema is such a one without its defaults. -/
def Nested.Stripped (producers : Producers) (levels : Nat) (nested other : Nested) : Prop :=
  nested.Within producers levels ∧ other = nested.withoutDefaults

section Level

variable
  (every : schema.EveryLevel (Context.new.resolver producers) (Schema.ReviewedInPlace producers))
  (deep : schema.nesting ≤ levels)

include every deep

theorem Schema.within_of_mentions {nested : Nested} (mention : schema.Mentions nested) :
    nested.Within producers levels := by
  obtain ⟨next, rfl⟩ := every.self.inPlace nested mention
  have deeper := nesting_lt_of_mentions mention
  exact ⟨next, rfl, by omega, every.nested mention rfl⟩

theorem KeySpec.sameShape_stripped {name : String} {spec : KeySpec}
    (h : (name, spec) ∈ schema.keys) :
    spec.SameShape (Nested.Stripped producers levels) spec.withoutDefaults := by
  have stripped : ∀ nested, schema.Mentions nested →
      Nested.Stripped producers levels nested nested.withoutDefaults := fun nested mention =>
    ⟨Schema.within_of_mentions every deep mention, rfl⟩
  refine sameShape_withoutDefaults (fun container nested hsub => ?_) fun nested hnested => ?_
  · exact stripped nested (.type (Schema.mem_types h hsub))
  · exact stripped nested (.key h hnested)

theorem Schema.keywise_stripped (onward : Onward) :
    schema.Keywise (KeySpec.WidensTo (Nested.Stripped producers levels) onward)
      schema.withoutDefaults := by
  refine keywise_withoutDefaults fun name spec h => ?_
  refine ⟨KeySpec.sameShape_stripped every deep h, spec.required_withoutDefaults.symm, ?_⟩
  intro value hvalue
  rw [spec.default_withoutDefaults] at hvalue
  cases hvalue

theorem Schema.wellKeyed_withoutDefaults : schema.withoutDefaults.WellKeyed := by
  have keywise := Schema.keywise_stripped every deep fun _ _ => none
  exact every.self.wellKeyed.of_keywise (keywise.imp fun _ _ h => h.toSameShape)

end Level

/-- Without defaults the nested schemas need no more levels than they have. -/
theorem Nested.covers_stripped (ctx here : Context) (given levels : Nat) :
    (Nested.output (ctx.resolver producers) given).Covers (Nested.Stripped producers levels)
      (Nested.output (here.resolver producers) levels) := by
  induction levels generalizing given with
  | zero =>
    rintro nested other value ⟨⟨next, rfl, deep, every⟩, rfl⟩
    omega
  | succ levels ih =>
    rintro nested other value ⟨⟨next, rfl, deep, every⟩, rfl⟩ accepted
    cases given with
    | zero => cases accepted
    | succ given =>
      have fits : next.nesting ≤ levels := by omega
      exact Schema.isSome_outputNested_of_keywise (ih given)
        (Schema.keywise_stripped every fits _) every.self.wellKeyed accepted

/-- A default was accepted under the usual limit, so it is accepted without the defaults below, and
from there, where these are accepted, with them under any limit that leaves room. -/
theorem Schema.keywise_restored {ctx : Context}
    (every : schema.EveryLevel (Context.new.resolver producers) (Schema.ReviewedInPlace producers))
    (deep : schema.nesting ≤ levels)
    (covers : (Nested.output (ctx.resolver producers) levels).Covers
      (fun nested nested' => Nested.Stripped producers levels nested' nested)
      (Nested.output (ctx.resolver producers) levels)) :
    schema.withoutDefaults.Keywise (KeySpec.WidensTo
      (fun nested nested' => Nested.Stripped producers levels nested' nested)
      (Nested.output (ctx.resolver producers) levels)) schema := by
  refine (keywise_withoutDefaults fun name spec h => ?_).symm
  have same := KeySpec.sameShape_stripped every deep h
  have keyed := every.self.wellKeyed.spec h
  refine ⟨same.symm, spec.required_withoutDefaults, fun value hvalue => ?_⟩
  have checked := default_accepted every h hvalue
  -- From the usual limit down to this one, where only levels without defaults can be compared.
  have stripped := same.isSome_output (Nested.covers_stripped .new ctx defaultMaxDepth levels) keyed
    checked
  exact same.symm.isSome_output covers (same.wellKeyed keyed) stripped

theorem Nested.covers_restored (ctx : Context) (levels : Nat) :
    (Nested.output (ctx.resolver producers) levels).Covers
      (fun nested nested' => Nested.Stripped producers levels nested' nested)
      (Nested.output (ctx.resolver producers) levels) := by
  induction levels with
  | zero =>
    rintro other nested value ⟨⟨next, rfl, deep, every⟩, rfl⟩
    omega
  | succ levels ih =>
    rintro other nested value ⟨⟨next, rfl, deep, every⟩, rfl⟩ accepted
    have fits : next.nesting ≤ levels := by omega
    exact Schema.isSome_outputNested_of_keywise ih (Schema.keywise_restored every fits ih)
      (Schema.wellKeyed_withoutDefaults every fits) accepted

/-- Where all nested schemas stand in place and the limit leaves room for them, deleting the
defaults changes nothing about which values are accepted. -/
theorem validate_without_defaults (producers : Producers) (schema : Schema) (value : Value)
    (ctx : Context) (passes : schema.Passes producers)
    (inPlace : schema.EveryLevel (ctx.resolver producers) Schema.NestsInPlace)
    (deep : schema.nesting ≤ ctx.remaining) :
    (∃ output, (schema.validate producers value ctx).outcome = .ok output) ↔
      ∃ output, (schema.withoutDefaults.validate producers value ctx).outcome = .ok output := by
  have every := passes.reviewed_everyLevel inPlace
  simp only [← Run.result?_eq_some, ← Option.isSome_iff_exists, Schema.result?_validate]
  constructor
  · exact Schema.isSome_outputMapping_of_keywise
      (Nested.covers_stripped ctx ctx ctx.remaining ctx.remaining)
      (Schema.keywise_stripped every deep _) every.self.wellKeyed
  · have covers := @Nested.covers_restored producers ctx ctx.remaining
    exact Schema.isSome_outputMapping_of_keywise covers
      (Schema.keywise_restored every deep covers) (Schema.wellKeyed_withoutDefaults every deep)

/-- The default is one level down, and one level is all that may be entered. -/
theorem client_without_defaults :
    let ctx := Context.new.withMaxDepth 1
    let input := .keywords [("retry", .keywords []), ("name", .string "a")]
    let run := Schema.clientSchema.validate (fun _ => .empty) input ctx
    let other := Schema.clientSchema.withoutDefaults.validate (fun _ => .empty) input ctx
    Schema.clientSchema.nesting = 1 ∧
      run.outcome = .ok (.keywords [("retry", .keywords [("max", .integer 3)]),
        ("name", .string "a")]) ∧
      other.outcome = .ok input ∧
      ((∃ output, run.outcome = .ok output) ↔ ∃ output, other.outcome = .ok output) := by
  intro ctx input run other
  have inline : ∀ schema, ctx.resolver (fun _ => .empty) (.inline schema) = some schema :=
    fun _ => rfl
  have client : Schema.clientSchema.NestsInPlace := fun nested mention =>
    ⟨Schema.retrySchema, Schema.clientSchema_mentions mention⟩
  have retry : Schema.retrySchema.NestsInPlace := fun nested mention =>
    absurd mention (Schema.not_mentions_of_isPlain (by simp [Schema.retrySchema, Ty.isPlain]))
  exact ⟨rfl, rfl, rfl, validate_without_defaults (fun _ => .empty) Schema.clientSchema input ctx
    ((Schema.clientSchema_passes inline).self) (Schema.clientSchema_everyLevel inline client retry)
    (Nat.le_refl 1)⟩

end OptionSchema
