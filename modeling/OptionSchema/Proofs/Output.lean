import OptionSchema.Proofs.Naming
import OptionSchema.Proofs.Run
import OptionSchema.Proofs.Schema.Levels
/-!
# What validation returns

The value that a run returns depends neither on the place and the path it is told, nor on what it
notes on the way. So it is a function of the schema, the value, the levels that may still be entered
and the schemas that nested ones stand for.
-/
namespace OptionSchema

abbrev Onward := Nested → Value → Option Value

namespace Ty

mutual

def output (onward : Onward) : Ty → Value → Option Value
  | .mapOf keyTy valueTy, value =>
    match value with
    | .map pairs =>
      (pairs.mapM fun pair => (output onward keyTy pair.1).bind fun key =>
        (output onward valueTy pair.2).map fun held => (key, held)).map Value.mapOf
    | _ => none
  | .custom validator, value => (validator.call value).toOption
  | .union alternatives, value => outputAny onward alternatives value
  | .listOf item, value =>
    match value with
    | .list items => (items.mapM (output onward item)).map Value.list
    | _ => none
  | .tuple types, value =>
    match value with
    | .tuple items =>
      if types.length = items.length then (outputEach onward types items).map Value.tuple else none
    | _ => none
  | .keyed container nested, value => (output onward container value).bind (onward nested)
  | ty, value => if ty.admits value then some value else none
termination_by structural ty => ty

def outputAny (onward : Onward) : List Ty → Value → Option Value
  | [], _ => none
  | ty :: types, value => (output onward ty value).or (outputAny onward types value)
termination_by structural types => types

def outputEach (onward : Onward) : List Ty → List Value → Option (List Value)
  | ty :: types, item :: items =>
    (output onward ty item).bind fun result =>
      (outputEach onward types items).map fun results => result :: results
  | _, _ => some []
termination_by structural types => types

end

variable {onward : Onward} {value w : Value}

theorem output_of_isPlain {ty : Ty} (plain : ty.isPlain = true) (value : Value) :
    ty.output onward value = if ty.admits value then some value else none := by
  cases ty with
  | mapOf | custom | union | listOf | tuple | keyed => exact absurd plain Bool.false_ne_true
  | _ => rw [output] <;> nofun

theorem check_of_isPlain {ty : Ty} (plain : ty.isPlain = true) (enter : Enter) (place : Place)
    (value : Value) (ctx : Context) :
    ty.check enter place value ctx =
      if ty.admits value then .succeed value else .fail (.mismatch ty place value) := by
  cases ty with
  | mapOf | custom | union | listOf | tuple | keyed => exact absurd plain Bool.false_ne_true
  | _ => rw [check] <;> nofun

theorem output_plain_eq_some {ty : Ty} (plain : ty.isPlain = true) :
    ty.output onward value = some w ↔ ty.admits value = true ∧ value = w := by
  rw [output_of_isPlain plain]
  split <;> simp [*]

theorem output_custom_eq_some {validator : Validator} :
    (custom validator).output onward value = some w ↔ validator.call value = .ok w := by
  rw [output]
  cases validator.call value <;> simp [Except.toOption]

theorem outputAny_eq_findSome? (types : List Ty) (value : Value) :
    outputAny onward types value = types.findSome? fun ty => ty.output onward value := by
  induction types with
  | nil => rfl
  | cons ty types ih =>
    rw [outputAny, List.findSome?_cons, ih]
    cases ty.output onward value <;> rfl

theorem outputEach_eq_mapM (types : List Ty) (items : List Value) :
    outputEach onward types items =
      (types.zip items).mapM fun part => part.1.output onward part.2 := by
  induction types generalizing items with
  | nil => rfl
  | cons ty types ih =>
    cases items with
    | nil => rfl
    | cons item items =>
      rw [outputEach, List.zip_cons_cons, List.mapM_cons, ih]
      refine congrArg _ (funext fun result => ?_)
      cases (types.zip items).mapM fun part => part.1.output onward part.2 <;> rfl

theorem output_mapOf_eq_some {keyTy valueTy : Ty}
    (h : (mapOf keyTy valueTy).output onward value = some w) :
    ∃ pairs results, value = .map pairs ∧ w = Value.mapOf results ∧
      List.Forall₂ (fun pair result => keyTy.output onward pair.1 = some result.1 ∧
        valueTy.output onward pair.2 = some result.2) pairs results := by
  cases value with
  | map pairs =>
    obtain ⟨results, hresults, rfl⟩ := Option.map_eq_some_iff.mp h
    exact ⟨pairs, results, rfl, rfl, (mapM_eq_some_iff.mp hresults).imp fun _ _ => pair_eq_some.mp⟩
  | _ => cases h

theorem output_listOf_eq_some {item : Ty} (h : (listOf item).output onward value = some w) :
    ∃ items results, value = .list items ∧ w = .list results ∧
      List.Forall₂ (fun element result => item.output onward element = some result)
        items results := by
  cases value with
  | list items =>
    obtain ⟨results, hresults, rfl⟩ := Option.map_eq_some_iff.mp h
    exact ⟨items, results, rfl, rfl, mapM_eq_some_iff.mp hresults⟩
  | _ => cases h

theorem output_tuple_eq_some {types : List Ty} (h : (tuple types).output onward value = some w) :
    ∃ items results, value = .tuple items ∧ w = .tuple results ∧ types.length = items.length ∧
      List.Forall₂ (fun part result => part.1.output onward part.2 = some result)
        (types.zip items) results := by
  cases value with
  | tuple items =>
    rw [output] at h
    split at h
    · rename_i size
      rw [outputEach_eq_mapM] at h
      obtain ⟨results, hresults, rfl⟩ := Option.map_eq_some_iff.mp h
      exact ⟨items, results, rfl, rfl, size, mapM_eq_some_iff.mp hresults⟩
    · cases h
  | _ => cases h

theorem output_union_eq_some {alternatives : List Ty}
    (h : (union alternatives).output onward value = some w) :
    ∃ before ty after, alternatives = before ++ ty :: after ∧ ty.output onward value = some w ∧
      ∀ other ∈ before, other.output onward value = none := by
  rw [output, outputAny_eq_findSome?] at h
  exact List.findSome?_eq_some_iff.mp h

end Ty

namespace KeySpec

def output (onward : Onward) (spec : KeySpec) (value : Value) : Option Value :=
  (spec.ty.output onward value).bind fun matched =>
    match spec.nested with
    | some nested => onward nested matched
    | none => some matched

/-- The value to check for a key: none where a required key is missing, and no value where there is
nothing to check. -/
def candidate? (input : List (String × Value)) (name : String) (spec : KeySpec) :
    Option (Option Value) :=
  match input.lookup name with
  | some value => some (some value)
  | none => if spec.required then none else some spec.default

def contribution (onward : Onward) (input : List (String × Value)) (entry : String × KeySpec) :
    Option (Option (String × Value)) :=
  (candidate? input entry.1 entry.2).bind fun
    | some value => (entry.2.output onward value).map fun result => some (entry.1, result)
    | none => some none

end KeySpec

namespace Schema

def outputEntries (onward : Onward) (schema : Schema) (input : List (String × Value)) :
    Option (List (String × Value)) :=
  let expanded := schema.expand (Entries.names input)
  if expanded.undeclared (Entries.names input) = [] then
    (expanded.keys.mapM (KeySpec.contribution onward input)).map (List.filterMap id)
  else none

def outputMapping (onward : Onward) (schema : Schema) : Value → Option Value
  | .keywords entries => (schema.outputEntries onward entries).map Value.keywords
  | .map pairs =>
    (Value.namedEntries? pairs).bind fun entries =>
      (schema.outputEntries onward entries).map fun output => .map (restoreKeys pairs output)
  | _ => none

def outputNested (onward : Onward) (schema : Schema) (value : Value) : Option Value :=
  match value with
  | .list items => (items.mapM (schema.outputMapping onward)).map Value.list
  | _ => schema.outputMapping onward value

end Schema

/-- What entering a nested schema returns with so many levels to go. -/
def Nested.output (resolve : Resolver) : Nat → Onward
  | 0, _, _ => none
  | levels + 1, nested, value =>
    (resolve nested).bind fun schema => schema.outputNested (Nested.output resolve levels) value

def Schema.output (resolve : Resolver) (levels : Nat) (schema : Schema) (value : Value) :
    Option Value :=
  schema.outputMapping (Nested.output resolve levels) value

section Agreement

variable {enter : Enter} {onward : Onward} {registry : Option Registry}

def Enter.Returns (enter : Enter) (onward : Onward) (registry : Option Registry) : Prop :=
  ∀ nested place value (ctx : Context), ctx.registry = registry →
    (enter nested place value ctx).result? = onward nested value

namespace Ty

mutual

theorem result?_check (h : enter.Returns onward registry) (ty : Ty) (place : Place) (value : Value)
    (ctx : Context) (hctx : ctx.registry = registry) :
    (ty.check enter place value ctx).result? = ty.output onward value := by
  cases ty with
  | mapOf keyTy valueTy =>
    cases value with
    | map pairs =>
      rw [check, output, Run.result?_map, Run.result?_mapError]
      refine congrArg (Option.map Value.mapOf) (Run.result?_traverse fun pair _ => ?_)
      rw [Run.result?_bind, result?_check h keyTy _ pair.1 (ctx.step place.segment) hctx]
      refine congrArg _ (funext fun key => ?_)
      rw [Run.result?_bind, result?_check h valueTy _ pair.2 (ctx.step place.segment) hctx]
      cases output onward valueTy pair.2 <;> rfl
    | _ => rfl
  | custom validator =>
    rw [check, output, Run.result?_ofExcept]
    cases validator.call value <;> rfl
  | union alternatives =>
    rw [check, output, Run.result?_mapError, result?_checkAny h alternatives place value ctx hctx]
  | listOf item =>
    cases value with
    | list items =>
      rw [check, output, Run.result?_map, Run.result?_mapError]
      refine congrArg (Option.map Value.list) (Run.result?_traverseFrom ?_ 0)
      intro index element _
      exact result?_check h item _ element (ctx.step place.segment) hctx
    | _ => rfl
  | tuple types =>
    cases value with
    | tuple items =>
      rw [check, output]
      split
      · rw [Run.result?_map, Run.result?_mapError,
          result?_checkEach h types 0 items (ctx.step place.segment) hctx]
      · rfl
    | _ => rfl
  | keyed container nested =>
    rw [check, output, Run.result?_bind, result?_check h container place value ctx hctx]
    exact congrArg _ (funext fun matched => h nested place matched ctx hctx)
  | _ => rw [check, output] <;> first | (split <;> rfl) | nofun
termination_by structural ty

theorem result?_checkAny (h : enter.Returns onward registry) (types : List Ty) (place : Place)
    (value : Value) (ctx : Context) (hctx : ctx.registry = registry) :
    (checkAny enter types place value ctx).result? = outputAny onward types value := by
  cases types with
  | nil => rfl
  | cons ty types =>
    rw [checkAny, outputAny, Run.result?_orCollect, result?_check h ty place value ctx hctx,
      result?_checkAny h types place value ctx hctx]
termination_by structural types

theorem result?_checkEach (h : enter.Returns onward registry) (types : List Ty) (index : Nat)
    (items : List Value) (ctx : Context) (hctx : ctx.registry = registry) :
    (checkEach enter types index items ctx).result? = outputEach onward types items := by
  cases types with
  | nil => rfl
  | cons ty types =>
    cases items with
    | nil => rfl
    | cons item items =>
      rw [checkEach, outputEach, Run.result?_bind, result?_check h ty _ item ctx hctx]
      refine congrArg _ (funext fun result => ?_)
      rw [Run.result?_bind, result?_checkEach h types (index + 1) items ctx hctx]
      cases outputEach onward types items <;> rfl
termination_by structural types

end

end Ty

theorem KeySpec.result?_check (h : enter.Returns onward registry) (spec : KeySpec) (name : String)
    (value : Value) (ctx : Context) (hctx : ctx.registry = registry) :
    (spec.check enter name value ctx).result? = spec.output onward value := by
  rw [KeySpec.check, KeySpec.output, Run.result?_bind, Ty.result?_check h _ _ _ _ hctx]
  refine congrArg _ (funext fun matched => ?_)
  cases spec.nested with
  | none => rfl
  | some nested => exact h nested _ matched ctx hctx

theorem KeySpec.result?_warn (spec : KeySpec) (name : String) (ctx : Context) :
    (spec.warn name ctx).result? = some () := by
  unfold KeySpec.warn
  cases spec.deprecated <;> rfl

theorem KeySpec.result?_contribute (h : enter.Returns onward registry)
    (input : List (String × Value)) (ctx : Context) (hctx : ctx.registry = registry)
    (name : String) (spec : KeySpec) :
    (KeySpec.contribute enter input ctx name spec).result?.map
      (Option.map fun value => (name, value)) =
        KeySpec.contribution onward input (name, spec) := by
  rw [KeySpec.contribute, KeySpec.contribution, KeySpec.candidate?]
  cases input.lookup name with
  | some value =>
    simp only [Run.result?_bind, Run.result?_map, KeySpec.result?_warn,
      KeySpec.result?_check h spec name value ctx hctx, Option.bind_some]
    cases spec.output onward value <;> rfl
  | none =>
    cases spec.required with
    | true => rfl
    | false =>
      cases spec.default with
      | none => rfl
      | some value =>
        simp only [Bool.false_eq_true, if_false, Run.result?_map,
          KeySpec.result?_check h spec name value ctx hctx, Option.bind_some]
        cases spec.output onward value <;> rfl

namespace Schema

theorem result?_contributions {contribute : String → KeySpec → Run Failure (Option Value)}
    {g : String × KeySpec → Option (Option (String × Value))} {keys : List (String × KeySpec)}
    (h : ∀ entry ∈ keys, (contribute entry.1 entry.2).result?.map
      (Option.map fun value => (entry.1, value)) = g entry) :
    (contributions contribute keys).result? = (keys.mapM g).map (List.filterMap id) := by
  induction keys with
  | nil => rfl
  | cons entry keys ih =>
    obtain ⟨name, spec⟩ := entry
    rw [List.forall_mem_cons] at h
    rw [contributions, List.mapM_cons, ← h.1, Run.result?_bind]
    cases (contribute name spec).result? with
    | none => rfl
    | some given =>
      simp only [Option.bind_some, Run.result?_bind, ih h.2]
      cases keys.mapM g with
      | none => rfl
      | some rest => cases given <;> rfl

theorem result?_walkEntries (h : enter.Returns onward registry) (schema : Schema)
    (input : List (String × Value)) (ctx : Context) (hctx : ctx.registry = registry) :
    (schema.walkEntries enter input ctx).result? = schema.outputEntries onward input := by
  rw [walkEntries, outputEntries]
  cases hunknown : (schema.expand (Entries.names input)).undeclared (Entries.names input) with
  | nil =>
    rw [if_pos rfl]
    exact result?_contributions fun entry _ =>
      KeySpec.result?_contribute h input ctx hctx entry.1 entry.2
  | cons name names => rfl

theorem result?_walk (h : enter.Returns onward registry) (schema : Schema) (value : Value)
    (ctx : Context) (hctx : ctx.registry = registry) :
    (schema.walk enter value ctx).result? = schema.outputMapping onward value := by
  rw [walk, Run.result?_bind]
  change (schema.walkMapping enter value ctx).result? = _
  cases value with
  | keywords entries =>
    rw [walkMapping, outputMapping, Run.result?_map, result?_walkEntries h schema entries ctx hctx]
  | map pairs =>
    rw [walkMapping, outputMapping]
    cases hentries : Value.namedEntries? pairs with
    | none =>
      have hread : (Value.map pairs).entries? = none := hentries
      rw [hread]
      cases (Value.map pairs).duplicateIdentifier? <;> rfl
    | some entries =>
      have hread : (Value.map pairs).entries? = some entries := hentries
      rw [hread, Value.duplicateIdentifier?_eq_none hentries]
      simp only [Run.result?_bind, result?_walkEntries h schema entries ctx hctx, Option.bind_some]
      cases schema.outputEntries onward entries <;> rfl
  | _ => rfl

theorem result?_walkNested (h : enter.Returns onward registry) (schema : Schema) (value : Value)
    (ctx : Context) (hctx : ctx.registry = registry) :
    (schema.walkNested enter value ctx).result? = schema.outputNested onward value := by
  cases value with
  | list items =>
    rw [walkNested, outputNested, Run.result?_map]
    refine congrArg (Option.map Value.list) (Run.result?_traverseFrom (fun index item _ => ?_) 0)
    rw [Run.result?_mapError, result?_walk h schema item (ctx.step (.index index)) hctx]
  | _ => exact result?_walk h schema _ ctx hctx

end Schema

theorem Nested.returns_enterWithin (producers : Producers) (ctx : Context) (levels : Nat) :
    (Nested.enterWithin producers levels).Returns (Nested.output (ctx.resolver producers) levels)
      ctx.registry := by
  induction levels with
  | zero => exact fun _ _ _ _ _ => rfl
  | succ levels ih =>
    intro nested place value here hctx
    rw [Nested.enterWithin, Nested.output, ← Nested.resolve_toOption producers nested place hctx]
    cases nested.resolve producers place here with
    | error failure => rfl
    | ok schema =>
      simp only [Run.result?_mapError]
      exact Schema.result?_walkNested ih schema value (here.descend place.segment) hctx

theorem Schema.result?_validate (producers : Producers) (schema : Schema) (value : Value)
    (ctx : Context) :
    (schema.validate producers value ctx).result? =
      schema.output (ctx.resolver producers) ctx.remaining value :=
  Schema.result?_walk (Nested.returns_enterWithin producers ctx ctx.remaining) schema value ctx rfl

end Agreement

end OptionSchema
