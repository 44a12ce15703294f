import OptionSchema.Proofs.Naming
import OptionSchema.Proofs.Schema.Definition
import OptionSchema.Raw.Schema
/-!
# The written forms of schemas

A schema has many raw forms: every mapping in it may be a keyword list or a map with string or atom
keys, attributes come in any order, types with arguments are tuples or mappings with one entry, and
the nested schema of a container may stand beside it or in it.
-/
namespace OptionSchema.Raw

/-- The raw value applies the name of a type to arguments, in a tuple or in a mapping with one
entry. -/
inductive Applies (name : String) : List Value → Value → Prop where
  | tuple {head : Value} {args : List Value} (named : head.identifier? = some name) :
      Applies name args (.tuple (head :: args))
  | entry {raw arg : Value} (reads : raw.Reads [(name, arg)]) : Applies name [arg] raw

/-- Any number of arguments may also be given as one list. -/
inductive Gives (items : List Value) : List Value → Prop where
  | apart : Gives items items
  | together : Gives items [.list items]

inductive Named {ν μ : Type} (R : ν → μ → Prop) : String × ν → String × μ → Prop where
  | intro {name : String} {a : ν} {b : μ} (h : R a b) : Named R (name, a) (name, b)

def attributeNames : List String :=
  ["type", "required", "default", "keys", "deprecated", "doc", "subsection", "type_doc"]

/-- The entries give the attributes of the key, apart from its type and its nested schema. An
attribute that equals its default may be left out or written; of a repeated one the first counts. -/
structure Annotates (attrs : List (String × Value)) (spec : KeySpec) : Prop where
  names : ∀ name ∈ Entries.names attrs, name ∈ attributeNames
  required : (attrs.lookup "required").getD (.bool false) = .bool spec.required
  default : attrs.lookup "default" = spec.default
  deprecated : attrs.lookup "deprecated" = spec.deprecated.map .string
  doc : attrs.lookup "doc" = spec.doc.map .string ∨
    attrs.lookup "doc" = some (.bool false) ∧ spec.doc = none
  subsection : attrs.lookup "subsection" = spec.subsection.map .string
  typeDoc : attrs.lookup "type_doc" = spec.typeDoc.map .string

/-- The raw type among the attributes, or the one that stands for it where it is left out. -/
def rawType (attrs : List (String × Value)) : Value :=
  (attrs.lookup "type").getD (.string "any")

section Forms

variable (validator? : String → Option Validator)

mutual

inductive Describes : Value → Ty → Prop where
  | simple {raw : Value} {ty : Ty} (isSimple : simpleType? ty.name = some ty)
      (named : raw.identifier? = some ty.name) : Describes raw ty
  | mapOf {raw rawKey rawHeld : Value} {args : List Value} {key held : Ty}
      (applies : Applies "map" args raw) (gives : Gives [rawKey, rawHeld] args)
      (describesKey : Describes rawKey key) (describesHeld : Describes rawHeld held) :
      Describes raw (.mapOf key held)
  | func {raw : Value} {arity : Nat} {n : Int64} (applies : Applies "fun" [.integer n] raw)
      (count : n.toInt = arity) : Describes raw (.func arity)
  | values {raw : Value} {allowed : List Value} (applies : Applies "in" [.list allowed] raw) :
      Describes raw (.choice (.values allowed))
  | range {raw : Value} {first last : Int64}
      (applies : Applies "in" [.string (Choices.range first last).text] raw) :
      Describes raw (.choice (.range first last))
  | custom {raw head : Value} {args : List Value} {validator : Validator}
      (applies : Applies "custom" args raw) (gives : Gives [head] args)
      (named : head.identifier? = some validator.name)
      (registered : validator? validator.name = some validator) : Describes raw (.custom validator)
  | rebound {raw head : Value} {args bound : List Value} {validator : Validator}
      (applies : Applies "custom" args raw) (gives : Gives (head :: bound) args)
      (named : head.identifier? = some validator.name)
      (registered : validator? validator.name = some validator) (some : bound ≠ []) :
      Describes raw (.custom (validator.withArgs bound))
  | union {raw : Value} {args items : List Value} {alternatives : List Ty}
      (applies : Applies "or" args raw) (gives : Gives items args)
      (each : List.Forall₂ Describes items alternatives) : Describes raw (.union alternatives)
  | listOf {raw rawItem : Value} {item : Ty} (applies : Applies "list_of" [rawItem] raw)
      (describes : Describes rawItem item) : Describes raw (.listOf item)
  | tuple {raw : Value} {args items : List Value} {types : List Ty}
      (applies : Applies "tuple" args raw) (gives : Gives items args)
      (each : List.Forall₂ Describes items types) : Describes raw (.tuple types)
  | struct {raw rawTag : Value} {tag : String} (applies : Applies "struct" [rawTag] raw)
      (named : rawTag.identifier? = some tag) : Describes raw (.struct tag)
  | keyed {raw rawNested : Value} {container : Ty} {nested : Nested}
      (isContainer : container.isContainer = true)
      (applies : Applies container.name [rawNested] raw) (nests : Nests rawNested nested) :
      Describes raw (.keyed container nested)

inductive Nests : Value → Nested → Prop where
  | inline {raw : Value} {schema : Schema} (writes : Writes raw schema) : Nests raw (.inline schema)
  | ref {raw : Value} {name : String} (named : raw.identifier? = some name) : Nests raw (.ref name)

/-- The raw value specifies the key. Its nested schema stands beside its type, which then is not
keyed itself, or in it. -/
inductive Specifies : Value → KeySpec → Prop where
  | beside {raw : Value} {attrs : List (String × Value)} {spec : KeySpec} (reads : raw.Reads attrs)
      (annotates : Annotates attrs spec) (describes : Describes (rawType attrs) spec.ty)
      (unkeyed : spec.ty.isKeyed = false)
      (nests : Option.Rel Nests (attrs.lookup "keys") spec.nested) : Specifies raw spec
  | inside {raw : Value} {attrs : List (String × Value)} {spec : KeySpec} {nested : Nested}
      (reads : raw.Reads attrs) (annotates : Annotates attrs spec)
      (describes : Describes (rawType attrs) (.keyed spec.ty nested))
      (hnested : spec.nested = some nested) (alone : attrs.lookup "keys" = none) :
      Specifies raw spec

inductive Writes : Value → Schema → Prop where
  | intro {raw : Value} {entries : List (String × Value)} {schema : Schema}
      (reads : raw.Reads entries) (once : (Entries.names entries).Nodup)
      (each : List.Forall₂ (Named Specifies) entries schema.keys) : Writes raw schema

end

end Forms

end OptionSchema.Raw
