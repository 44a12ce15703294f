import OptionSchema.Raw.Schema

/-! # Registering schemas and validators, and validating by name -/
namespace OptionSchema

inductive RegistryError where
  | duplicateSchema (name : String)
  | duplicateValidator (name : String)
  | schemaNotFound (name : String)
  | invalidSchema (name : String) (defects : Defects)
deriving DecidableEq, Repr

def RegistryError.message : RegistryError → String
  | .duplicateSchema name => "schema '" ++ name ++ "' already registered"
  | .duplicateValidator name => "validator '" ++ name ++ "' already registered"
  | .schemaNotFound name => "schema '" ++ name ++ "' not found"
  | .invalidSchema name defects => "schema '" ++ name ++ "' is invalid: " ++ defects.text

namespace Store

def registerSchema (producers : Producers) (store : Store) (name : String) (schema : Schema) :
    Run RegistryError Store :=
  if (store.schema? name).isSome then .fail (.duplicateSchema name)
  else do
    let compiled ← (schema.compile producers).mapError (.invalidSchema name)
    Run.note (.registered name compiled.size)
    Run.succeed { store with schemas := store.schemas ++ [(name, compiled)] }

def registerValidator (store : Store) (validator : Validator) : Except RegistryError Store :=
  if (store.validator? validator.name).isSome then .error (.duplicateValidator validator.name)
  else .ok { store with validators := store.validators ++ [(validator.name, validator)] }

end Store

inductive Registration where
  | schema (name : String) (schema : Schema)
  | validator (validator : Validator)

def Store.register (producers : Producers) (store : Store) :
    Registration → Run RegistryError Store
  | .schema name schema => store.registerSchema producers name schema
  | .validator validator => .ofExcept (store.registerValidator validator)

namespace Registry

def compile (producers : Producers) (registry : Registry) (raw : Value) : Run Defects Schema :=
  Raw.compile producers registry.validator? raw

def validate (producers : Producers) (registry : Registry) (name : String) (value : Value) :
    Except RegistryError (Run Failure Value) :=
  match registry.schema? name with
  | some schema => .ok (schema.validate producers value registry.context)
  | none => .error (.schemaNotFound name)

end Registry

/-- One store behind several handles, each with a depth limit of its own. -/
structure SharedRegistry where
  store : Store
  limits : List Nat

namespace SharedRegistry

def new (maxDepth : Nat) : SharedRegistry := ⟨.empty, [maxDepth]⟩

def registry? (shared : SharedRegistry) (handle : Nat) : Option Registry :=
  shared.limits[handle]?.map fun maxDepth => ⟨shared.store, maxDepth⟩

def addHandle (shared : SharedRegistry) (maxDepth : Nat) : SharedRegistry :=
  { shared with limits := shared.limits ++ [maxDepth] }

/-- Registers through any handle. What is stored is seen through all of them; a registration that
fails leaves the store as it is. -/
def register (producers : Producers) (shared : SharedRegistry) (registration : Registration) :
    SharedRegistry × Run RegistryError Unit :=
  let run := shared.store.register producers registration
  match run.outcome with
  | .ok store => ({ shared with store }, ⟨.ok (), run.journal⟩)
  | .error error => (shared, ⟨.error error, run.journal⟩)

end SharedRegistry

end OptionSchema
