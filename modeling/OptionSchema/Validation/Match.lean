import OptionSchema.Log

/-! # Matching one value against its type

Nested schemas are left to the parameter `enter`, so that matching is recursion on the type.
-/
namespace OptionSchema

abbrev Enter := Nested → Place → Value → Context → Run Failure Value

def Value.isKeywordList (value : Value) : Bool := value.entries?.isSome

namespace Ty

def admits : Ty → Value → Bool
  | .any, _ => true
  | .atom, .atom _ => true
  | .string, .string _ => true
  | .boolean, .bool _ => true
  | .integer, .integer _ => true
  | .nonNegInteger, .integer n => decide (0 ≤ n)
  | .posInteger, .integer n => decide (0 < n)
  | .float, .float _ => true
  | .timeout, .integer n => decide (0 ≤ n)
  | .timeout, .atom name => name == "infinity"
  | .pid, .pid _ => true
  | .reference, .reference _ => true
  | .null, .null => true
  | .keywordList, value => value.isKeywordList
  | .nonEmptyKeywordList, value => value.entries?.any fun entries => !entries.isEmpty
  | .map, .map _ => true
  | .func arity, .func f => f.arity == arity
  | .choice choices, value => choices.contains value
  | .struct tag, .struct actual _ => tag == actual
  | _, _ => false

mutual

def check (enter : Enter) : Ty → Place → Value → Context → Run Failure Value
  | .mapOf keyTy valueTy, place, value, ctx =>
    match value with
    | .map pairs =>
      let inner := ctx.step place.segment
      let run := Run.traverse (fun (pair : Value × Value) => do
        let key ← check enter keyTy .mapKey pair.1 inner
        let held ← check enter valueTy (.mapValue key) pair.2 inner
        Run.succeed (key, held)) pairs
      Value.mapOf <$> run.mapError fun failure => failure.within "map" place value
    | _ => .fail (.mismatch (.mapOf keyTy valueTy) place value)
  | .custom validator, place, value, _ =>
    .ofExcept ((validator.call value).mapError fun reason => .refused reason place value)
  | .union alternatives, place, value, ctx =>
    (checkAny enter alternatives place value ctx).mapError (Failure.exhausted place value)
  | .listOf item, place, value, ctx =>
    match value with
    | .list items =>
      let inner := ctx.step place.segment
      let run := Run.traverseFrom (fun index element =>
        check enter item (.position index) element inner) 0 items
      Value.list <$> run.mapError fun failure => failure.within "list" place value
    | _ => .fail (.mismatch (.listOf item) place value)
  | .tuple types, place, value, ctx =>
    match value with
    | .tuple items =>
      if types.length = items.length then
        let run := checkEach enter types 0 items (ctx.step place.segment)
        Value.tuple <$> run.mapError fun failure => failure.within "tuple" place value
      else .fail (.mismatch (.tuple types) place value)
    | _ => .fail (.mismatch (.tuple types) place value)
  | .keyed container nested, place, value, ctx => do
    let matched ← check enter container place value ctx
    enter nested place matched ctx
  | ty, place, value, _ =>
    if ty.admits value then .succeed value else .fail (.mismatch ty place value)
termination_by structural ty => ty

/-- The first alternative that matches, or the failures of all. -/
def checkAny (enter : Enter) : List Ty → Place → Value → Context → Run (List Failure) Value
  | [], _, _, _ => .fail []
  | ty :: types, place, value, ctx =>
    (check enter ty place value ctx).orCollect fun _ => checkAny enter types place value ctx
termination_by structural types => types

def checkEach (enter : Enter) : List Ty → Nat → List Value → Context → Run Failure (List Value)
  | ty :: types, index, item :: items, ctx => do
    let result ← check enter ty (.position index) item ctx
    let results ← checkEach enter types (index + 1) items ctx
    Run.succeed (result :: results)
  | _, _, _, _ => .succeed []
termination_by structural types => types

end

end Ty

end OptionSchema
