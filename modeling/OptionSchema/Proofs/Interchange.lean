import OptionSchema.Proofs.Likeness
import OptionSchema.Proofs.Schema.Checked
/-!
# Ways to give a nested schema

A nested schema stands in place, comes from a producer or is registered under a name. References
and producers may lead back to where they came from, so which schemas differ in this respect only is
said by a relation that each level keeps, and the depth limit carries the induction.
-/
namespace OptionSchema

/-- The nested schemas are one and the same, or stand for schemas that `R` relates. -/
inductive Nested.StandsFor (resolve : Resolver) (R : Schema → Schema → Prop) :
    Nested → Nested → Prop where
  | same (nested : Nested) : StandsFor resolve R nested nested
  | resolved {nested other : Nested} {schema schema' : Schema} (h : resolve nested = some schema)
      (h' : resolve other = some schema') (related : R schema schema') :
      StandsFor resolve R nested other

theorem Nested.StandsFor.imp {resolve : Resolver} {R S : Schema → Schema → Prop}
    {nested other : Nested} (h : nested.StandsFor resolve R other)
    (himp : ∀ schema schema', R schema schema' → S schema schema') :
    nested.StandsFor resolve S other := by
  cases h with
  | same => exact .same nested
  | resolved h h' related => exact .resolved h h' (himp _ _ related)

/-- The schemas are the same but for the ways in which nested schemas are given, at any depth. -/
def Schema.Interchangeable (resolve : Resolver) (schema other : Schema) : Prop :=
  ∃ R : Schema → Schema → Prop,
    (∀ level level', R level level' → level.SameUpTo (Nested.StandsFor resolve R) level') ∧
      R schema other

namespace Schema.Interchangeable

variable {resolve : Resolver} {schema other : Schema}

theorem sameUpTo (h : schema.Interchangeable resolve other) :
    schema.SameUpTo (Nested.StandsFor resolve (Interchangeable resolve)) other := by
  obtain ⟨R, keeps, related⟩ := h
  exact (keeps schema other related).mono fun nested nested' hnested =>
    hnested.imp fun _ _ hlevel => ⟨R, keeps, hlevel⟩

theorem of_sameUpTo
    (h : schema.SameUpTo (Nested.StandsFor resolve (Interchangeable resolve)) other) :
    schema.Interchangeable resolve other := by
  refine ⟨fun level level' => level.SameUpTo
    (Nested.StandsFor resolve (Interchangeable resolve)) level', fun level level' hlevel => ?_, h⟩
  exact hlevel.mono fun nested nested' hnested => hnested.imp fun _ _ => sameUpTo

theorem refl (schema : Schema) : schema.Interchangeable resolve schema :=
  of_sameUpTo (.refl .same schema)

end Schema.Interchangeable

namespace Nested.StandsFor

variable {producers : Producers} {ctx : Context} {R : Schema → Schema → Prop}
  {schema schema' : Schema}

theorem inline (h : R schema schema') :
    (Nested.inline schema).StandsFor (ctx.resolver producers) R (.inline schema') :=
  .resolved rfl rfl h

theorem lazy {producer : Nat} (h : R schema (producers producer)) :
    (Nested.inline schema).StandsFor (ctx.resolver producers) R (.lazy producer) :=
  .resolved rfl rfl h

theorem ref {name : String} (found : ctx.schema? name = some schema') (h : R schema schema') :
    (Nested.inline schema).StandsFor (ctx.resolver producers) R (.ref name) :=
  .resolved rfl found h

end Nested.StandsFor

theorem Nested.resolve_eq_ok {producers : Producers} {nested : Nested} {schema : Schema}
    {ctx here : Context} (hctx : here.registry = ctx.registry)
    (h : ctx.resolver producers nested = some schema) (place : Place) :
    nested.resolve producers place here = .ok schema := by
  rw [← Nested.resolve_toOption producers nested place hctx] at h
  cases hnested : nested.resolve producers place here with
  | error failure => rw [hnested] at h; cases h
  | ok next => rw [hnested] at h; exact congrArg _ (Option.some.inj h)

/-- A relation that each level keeps is kept however deep validation goes. -/
theorem Nested.looksLike_enterWithin (producers : Producers) (ctx : Context)
    {R : Schema → Schema → Prop}
    (keeps : ∀ level level', R level level' →
      level.SameUpTo (Nested.StandsFor (ctx.resolver producers) R) level') (levels : Nat) :
    (Nested.enterWithin producers levels).LooksLike (·.registry = ctx.registry)
      (Nested.StandsFor (ctx.resolver producers) R) (Nested.enterWithin producers levels) := by
  induction levels with
  | zero => exact fun _ _ _ _ _ _ _ => .refl _
  | succ levels ih =>
    intro nested nested' place value here hctx hnested
    have walked : ∀ {schema schema' : Schema},
        schema.SameUpTo (Nested.StandsFor (ctx.resolver producers) R) schema' →
          (schema.walkNested (enterWithin producers levels) value
            (here.descend place.segment)).LooksLike
          (schema'.walkNested (enterWithin producers levels) value
            (here.descend place.segment)) :=
      fun hsame => hsame.walkNested (fun _ _ h => h) ih hctx
    rw [enterWithin, enterWithin]
    -- A schema without a partner is compared with itself; what it mentions is the same once more.
    cases hnested with
    | same =>
      cases nested.resolve producers place here with
      | error failure => exact .refl _
      | ok schema => exact (walked (.refl .same schema)).mapError
    | resolved h h' related =>
      rw [resolve_eq_ok hctx h, resolve_eq_ok hctx h']
      exact (walked (keeps _ _ related)).mapError

/-- Validation does not tell the ways apart in which nested schemas are given. -/
theorem validate_interchangeable (producers : Producers) (schema other : Schema) (value : Value)
    (ctx : Context) (h : schema.Interchangeable (ctx.resolver producers) other) :
    (schema.validate producers value ctx).outcome = (other.validate producers value ctx).outcome ∧
      (schema.validate producers value ctx).log = (other.validate producers value ctx).log := by
  obtain ⟨R, keeps, related⟩ := h
  have alike : (schema.validate producers value ctx).LooksLike
      (other.validate producers value ctx) :=
    (keeps schema other related).walk (C := (·.registry = ctx.registry)) (fun _ _ h => h)
      (Nested.looksLike_enterWithin producers ctx keeps ctx.remaining) rfl
  exact ⟨alike.outcome, alike.log⟩

section Hooks

def hookSchema (retry : Nested) : Schema :=
  ⟨[("url", { ty := .string, required := true }),
    ("retry", { ty := .keywordList, nested := some retry, deprecated := some "Use queues." })]⟩

def hooksSchema (retry hook fallback : Nested) : Schema :=
  ⟨[("retry", { ty := .union [.keywordList, .map], nested := some retry }),
    ("hooks", { ty := .listOf (.keyed .map hook) }),
    ("fallback", { ty := .keywordList, nested := some fallback })]⟩

def retryRegistered : Context :=
  Context.new.withRegistry ⟨{ schemas := [("retry", Schema.retrySchema)] }, defaultMaxDepth⟩

theorem hookSchema_interchangeable {producers : Producers} :
    (hookSchema (.inline Schema.retrySchema)).Interchangeable (retryRegistered.resolver producers)
      (hookSchema (.ref "retry")) := by
  have retry : (Nested.inline Schema.retrySchema).StandsFor (retryRegistered.resolver producers)
      (Schema.Interchangeable (retryRegistered.resolver producers)) (.ref "retry") :=
    .ref rfl (.refl _)
  refine .of_sameUpTo (.cons ⟨rfl, .refl .same _⟩ (.cons ⟨rfl, ?_⟩ .nil))
  exact ⟨⟨.plain rfl, .some retry⟩, rfl, rfl, rfl⟩

theorem hooksSchema_interchangeable :
    let producers : Producers := fun _ => hookSchema (.ref "retry")
    let retry : Nested := .inline Schema.retrySchema
    (hooksSchema retry (.inline (hookSchema retry))
      (.inline (hookSchema retry))).Interchangeable (retryRegistered.resolver producers)
        (hooksSchema (.ref "retry") (.lazy 0) (.inline (hookSchema (.ref "retry")))) := by
  intro producers retry
  refine .of_sameUpTo (.cons ⟨rfl, ?_⟩ (.cons ⟨rfl, ?_⟩ (.cons ⟨rfl, ?_⟩ .nil)))
  · exact ⟨⟨.refl .same _, .some (.ref rfl (.refl _))⟩, rfl, rfl, rfl⟩
  · exact ⟨⟨.listOf (.keyed (.plain rfl) (.lazy hookSchema_interchangeable)), .none⟩, rfl, rfl, rfl⟩
  · exact ⟨⟨.refl .same _, .some (.inline hookSchema_interchangeable)⟩, rfl, rfl, rfl⟩

set_option maxRecDepth 4000 in
/-- The references and the producer leave the failure, its path and the warning as they were. -/
theorem hooks_interchangeable :
    let producers : Producers := fun _ => hookSchema (.ref "retry")
    let retry : Nested := .inline Schema.retrySchema
    let inline := hooksSchema retry (.inline (hookSchema retry)) (.inline (hookSchema retry))
    let other := hooksSchema (.ref "retry") (.lazy 0) (.inline (hookSchema (.ref "retry")))
    let input := .keywords [("hooks", .list [.map [(.string "url", .string "a"),
      (.atom "retry", .keywords [("max", .integer 0)])]])]
    let run := inline.validate producers input retryRegistered
    inline.Interchangeable (retryRegistered.resolver producers) other ∧
      run.log.length = 1 ∧
      (∃ failure, run.outcome = .error failure ∧
        failure.path = [.key "hooks", .index 0, .key "retry"]) ∧
      run.outcome = (other.validate producers input retryRegistered).outcome ∧
      run.log = (other.validate producers input retryRegistered).log :=
  ⟨hooksSchema_interchangeable, rfl, ⟨_, rfl, rfl⟩,
    validate_interchangeable _ _ _ _ _ hooksSchema_interchangeable⟩

end Hooks

end OptionSchema
