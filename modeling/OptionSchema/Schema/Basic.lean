import OptionSchema.Value.Mapping

/-! # Schemas: what the values under named keys must look like -/
namespace OptionSchema

/-- The values that an enumerated type allows; a range holds both its ends. -/
inductive Choices where
  | values (allowed : List Value)
  | range (first last : Int64)

/-- A validation function with extra arguments bound to it. It returns the value, perhaps changed,
or the reason why it refuses it. Functions are told apart by `identity`. -/
structure Validator where
  name : String
  args : List Value
  identity : Nat
  run : Value → List Value → Except String Value

mutual

inductive Ty where
  | any
  | atom
  | string
  | boolean
  | integer
  | nonNegInteger
  | posInteger
  | float
  /-- A non-negative integer or the atom `infinity`. -/
  | timeout
  | pid
  | reference
  | null
  /-- A keyword list, or a map with identifier keys. -/
  | keywordList
  | nonEmptyKeywordList
  | map
  | mapOf (key value : Ty)
  | func (arity : Nat)
  | choice (choices : Choices)
  | custom (validator : Validator)
  /-- The first alternative that matches wins. -/
  | union (alternatives : List Ty)
  | listOf (item : Ty)
  | tuple (items : List Ty)
  | struct (tag : String)
  /-- A container with a nested schema of its own. -/
  | keyed (container : Ty) (nested : Nested)

/-- The schema of a container's entries: in place, made on demand by a producer, or registered
under a name. -/
inductive Nested where
  | inline (schema : Schema)
  | lazy (producer : Nat)
  | ref (name : String)

structure KeySpec where
  ty : Ty
  required : Bool := false
  default : Option Value := none
  nested : Option Nested := none
  deprecated : Option String := none
  doc : Option String := none
  subsection : Option String := none
  typeDoc : Option String := none

structure Schema where
  keys : List (String × KeySpec)

end

/-- The schemas that the producers of lazy keys make. -/
abbrev Producers := Nat → Schema

def Validator.withArgs (validator : Validator) (args : List Value) : Validator :=
  { validator with args }

def Validator.call (validator : Validator) (value : Value) : Except String Value :=
  validator.run value validator.args

def Choices.contains : Choices → Value → Bool
  | .values allowed, value => allowed.contains value
  | .range first last, .integer n => decide (first ≤ n) && decide (n ≤ last)
  | .range .., _ => false

namespace Ty

def isContainer : Ty → Bool
  | .keywordList => true
  | .nonEmptyKeywordList => true
  | .map => true
  | _ => false

/-- A key of such a type may have a nested schema: a container, a list of containers or a union of
containers only. -/
def acceptsKeys : Ty → Bool
  | .listOf item => item.isContainer
  | .union alternatives => !alternatives.isEmpty && alternatives.all isContainer
  | ty => ty.isContainer

end Ty

namespace Schema

def empty : Schema := ⟨[]⟩

/-- The name whose specification applies to every key without one of its own. -/
def wildcardName : String := "*"

def find? (schema : Schema) (name : String) : Option KeySpec := schema.keys.lookup name

def wildcard? (schema : Schema) : Option KeySpec := schema.find? wildcardName

def names (schema : Schema) : List String := Entries.names schema.keys

def size (schema : Schema) : Nat := schema.keys.length

def isEmpty (schema : Schema) : Bool := schema.keys.isEmpty

/-- Of a repeated name the last specification counts, in the first position. -/
def insert (schema : Schema) (name : String) (spec : KeySpec) : Schema :=
  ⟨Entries.insert name spec schema.keys⟩

def ofList (keys : List (String × KeySpec)) : Schema := ⟨Entries.ofList keys⟩

def extend (schema : Schema) (keys : List (String × KeySpec)) : Schema :=
  keys.foldl (fun extended entry => extended.insert entry.1 entry.2) schema

/-! ## Expanding the wildcard -/

/-- The observed names that the wildcard answers for: those without a specification, and the
wildcard's own name. -/
def unnamed (schema : Schema) (observed : List String) : List String :=
  observed.filter fun name => name == wildcardName || (schema.find? name).isNone

/-- The schema for an input with the keys `observed`: the named keys in order of declaration, then
the others, each with the wildcard's specification. A schema without a wildcard stays as it is. -/
def expand (schema : Schema) (observed : List String) : Schema :=
  match schema.wildcard? with
  | none => schema
  | some spec =>
    let named := schema.keys.filter fun entry => entry.1 != wildcardName
    ofList (named ++ (schema.unnamed observed).map fun name => (name, spec))

theorem expand_of_wildcard?_eq_none {schema : Schema} (observed : List String)
    (h : schema.wildcard? = none) : schema.expand observed = schema := by
  simp [expand, h]

end Schema

/-! ## References

The names that a schema refers to are listed in order of declaration, with repeats. Producers are
not asked.
-/

mutual

def Ty.refs : Ty → List String
  | .mapOf key value => key.refs ++ value.refs
  | .union alternatives => Ty.refsOfAll alternatives
  | .listOf item => item.refs
  | .tuple items => Ty.refsOfAll items
  | .keyed container nested => container.refs ++ nested.refs
  | _ => []
termination_by structural ty => ty

def Ty.refsOfAll : List Ty → List String
  | [] => []
  | ty :: types => ty.refs ++ Ty.refsOfAll types
termination_by structural types => types

def Nested.refs : Nested → List String
  | .inline schema => schema.refs
  | .lazy _ => []
  | .ref name => [name]
termination_by structural nested => nested

def Nested.refsOfOption : Option Nested → List String
  | none => []
  | some nested => nested.refs
termination_by structural nested => nested

def KeySpec.refs : KeySpec → List String
  | ⟨ty, _, _, nested, _, _, _, _⟩ => ty.refs ++ Nested.refsOfOption nested
termination_by structural spec => spec

def Schema.refs : Schema → List String
  | ⟨keys⟩ => Schema.refsOfKeys keys
termination_by structural schema => schema

def Schema.refsOfKeys : List (String × KeySpec) → List String
  | [] => []
  | (_, spec) :: keys => spec.refs ++ Schema.refsOfKeys keys
termination_by structural keys => keys

end

end OptionSchema
