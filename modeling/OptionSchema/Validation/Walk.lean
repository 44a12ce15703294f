import OptionSchema.Validation.Match
/-! # Validating a mapping against a schema

Keys are processed in the order of the schema, and the first failure ends the run. The depth limit
bounds the recursion: each nested schema is entered with one level less to go.
-/
namespace OptionSchema

def Nested.resolve (producers : Producers) (nested : Nested) (place : Place) (ctx : Context) :
    Except Failure Schema :=
  match nested with
  | .inline schema => .ok schema
  | .lazy producer => .ok (producers producer)
  | .ref name =>
    match ctx.schema? name with
    | some schema => .ok schema
    | none => .error (.unresolved name place)

namespace KeySpec

def check (enter : Enter) (spec : KeySpec) (name : String) (value : Value) (ctx : Context) :
    Run Failure Value := do
  let matched ← spec.ty.check enter (.key name) value ctx
  match spec.nested with
  | some nested => enter nested (.key name) matched ctx
  | none => Run.succeed matched

def warn (spec : KeySpec) (name : String) (ctx : Context) : Run Failure Unit :=
  match spec.deprecated with
  | some advice => .note (.deprecated name advice (ctx.path.pushKey name))
  | none => .succeed ()

/-- What the key contributes to the output: the given value, or else its default, if it has one. -/
def contribute (enter : Enter) (input : List (String × Value)) (ctx : Context) (name : String)
    (spec : KeySpec) : Run Failure (Option Value) :=
  match input.lookup name with
  | some value => do
    spec.warn name ctx
    some <$> spec.check enter name value ctx
  | none =>
    if spec.required then .fail (.missing name (Entries.names input))
    else match spec.default with
      | some value => some <$> spec.check enter name value ctx
      | none => .succeed none

end KeySpec

namespace Schema

def contributions (contribute : String → KeySpec → Run Failure (Option Value)) :
    List (String × KeySpec) → Run Failure (List (String × Value))
  | [] => .succeed []
  | (name, spec) :: keys => do
    let given ← contribute name spec
    let others ← contributions contribute keys
    match given with
    | some value => Run.succeed ((name, value) :: others)
    | none => Run.succeed others

/-- Each name with the key that stood for it in the map, or as a string where it is new. -/
def restoreKeys (pairs : List (Value × Value)) (entries : List (String × Value)) :
    List (Value × Value) :=
  entries.map fun entry =>
    let key := match pairs.find? (fun pair => pair.1.identifier? == some entry.1) with
      | some pair => pair.1
      | none => .string entry.1
    (key, entry.2)

def undeclared (schema : Schema) (names : List String) : List String :=
  names.filter fun name => (schema.find? name).isNone

def walkEntries (enter : Enter) (schema : Schema) (input : List (String × Value)) (ctx : Context) :
    Run Failure (List (String × Value)) :=
  let expanded := schema.expand (Entries.names input)
  match expanded.undeclared (Entries.names input) with
  | [] => contributions (KeySpec.contribute enter input ctx) expanded.keys
  | unknown => .fail (.unknownKeys unknown expanded.names)

/-- Validates a keyword list or an identifier-keyed map. The output is of the same kind; keys of a
map stay as they are, and defaults come under strings. -/
def walkMapping (enter : Enter) (schema : Schema) (value : Value) (ctx : Context) :
    Run Failure Value :=
  match value with
  | .keywords entries => Value.keywords <$> schema.walkEntries enter entries ctx
  | .map pairs =>
    match value.duplicateIdentifier?, value.entries? with
    | some name, _ => .fail (.ambiguousKey name value)
    | none, none => .fail (.notAMapping value)
    | none, some entries => do
      let output ← schema.walkEntries enter entries ctx
      Run.succeed (.map (restoreKeys pairs output))
  | _ => .fail (.notAMapping value)

def walk (enter : Enter) (schema : Schema) (value : Value) (ctx : Context) : Run Failure Value := do
  Run.note (.entered schema value ctx)
  schema.walkMapping enter value ctx

def walkNested (enter : Enter) (schema : Schema) (value : Value) (ctx : Context) :
    Run Failure Value :=
  match value with
  | .list items =>
    Value.list <$> Run.traverseFrom (fun index item =>
      (schema.walk enter item (ctx.step (.index index))).mapError (·.nest (.index index))) 0 items
  | _ => schema.walk enter value ctx

end Schema

namespace Nested

/-- Enters a nested schema with so many levels to go. -/
def enterWithin (producers : Producers) : Nat → Enter
  | 0, _, place, _, ctx => do
    Run.note (.limitReached place ctx)
    Run.fail (.tooDeep ctx.maxDepth place)
  | levels + 1, nested, place, value, ctx =>
    match nested.resolve producers place ctx with
    | .error failure => .fail failure
    | .ok schema =>
      (schema.walkNested (enterWithin producers levels) value (ctx.descend place.segment)).mapError
        (·.nest place.segment)

def enter (producers : Producers) : Enter := fun nested place value ctx =>
  enterWithin producers ctx.remaining nested place value ctx

end Nested

namespace Schema

def validate (producers : Producers) (schema : Schema) (value : Value) (ctx : Context) :
    Run Failure Value :=
  schema.walk (Nested.enterWithin producers ctx.remaining) value ctx

def validateAll (producers : Producers) (schema : Schema) (values : List Value)
    (ctx : Context) : List (Except Failure Value) :=
  values.map fun value => (schema.validate producers value ctx).outcome

end Schema

end OptionSchema
