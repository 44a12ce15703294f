import OptionSchema.Inspect
/-! # Named schemas and validators -/
namespace OptionSchema

structure Store where
  schemas : List (String × Schema) := []
  validators : List (String × Validator) := []

structure Registry where
  store : Store
  maxDepth : Nat

def defaultMaxDepth : Nat := 100

namespace Store

def empty : Store := {}

def schema? (store : Store) (name : String) : Option Schema := store.schemas.lookup name

def validator? (store : Store) (name : String) : Option Validator := store.validators.lookup name

def sorted (names : List String) : List String :=
  (names.mergeSort fun a b => decide (a ≤ b)).eraseReps

def unresolvedRefs (store : Store) : List String :=
  sorted ((store.schemas.flatMap (·.2.refs)).filter fun name => (store.schema? name).isNone)

end Store

namespace Registry

def new : Registry := ⟨.empty, defaultMaxDepth⟩

def withMaxDepth (registry : Registry) (maxDepth : Nat) : Registry := { registry with maxDepth }

def schema? (registry : Registry) (name : String) : Option Schema := registry.store.schema? name

def validator? (registry : Registry) (name : String) : Option Validator :=
  registry.store.validator? name

def inspect (registry : Registry) : String :=
  Inspect.record "Registry" [
    Inspect.field "schemas" (Inspect.strings (Store.sorted (Entries.names registry.store.schemas))),
    Inspect.field "validators"
      (Inspect.strings (Store.sorted (Entries.names registry.store.validators))),
    Inspect.field "max_depth" (toString registry.maxDepth)]

end Registry

end OptionSchema
