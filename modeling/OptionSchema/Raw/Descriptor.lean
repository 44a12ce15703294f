import OptionSchema.Defect
import OptionSchema.Raw.Range
/-! # Reading type descriptors

A descriptor is a name, a tuple of a name and arguments, or a mapping with one entry from a name to
its argument.
-/
namespace OptionSchema.Raw

inductive DescriptorFault where
  | notADescriptor (raw : Value)
  | notOneEntry (raw : Value)
  | notATypeName (raw : Value)
  /-- A name on its own that is no simple type. -/
  | unknownName (raw : Value)
  /-- A name with arguments that is no type. -/
  | unknownType (name : String)
  | noArguments (name : String)
  | mapArguments (args : List Value)
  | keysExpected (name : String)
  | invalidKeys (defects : Defects)
  | invalidArity (args : List Value)
  | invalidChoices (args : List Value)
  | notARange (text : String)
  | rangeStart (fault : NumberFault)
  | rangeEnd (fault : NumberFault)
  | noValidator
  | notAValidatorName (raw : Value)
  | unknownValidator (name : String)
  | listArguments
  | invalidTag (raw : Value)
  | structArguments

namespace DescriptorFault

def message : DescriptorFault → String
  | .notADescriptor raw => "expected a type descriptor, got: " ++ raw.text
  | .notOneEntry raw => "expected a single-entry type descriptor, got: " ++ raw.text
  | .notATypeName raw => "expected a type name, got: " ++ raw.text
  | .unknownName raw => "unknown type " ++ raw.text
  | .unknownType name => "unknown type " ++ name
  | .noArguments name => "type " ++ name ++ " does not take arguments"
  | .mapArguments args =>
    "map expects a key type and a value type, got: " ++ (Value.list args).text
  | .keysExpected name => name ++ " expects nested keys"
  | .invalidKeys defects =>
    "invalid nested keys: " ++ "; ".intercalate (defects.toList.map Defect.text)
  | .invalidArity args => "fun expects a non-negative arity, got: " ++ (Value.list args).text
  | .invalidChoices args =>
    "in expects a list of choices or a range, got: " ++ (Value.list args).text
  | .notARange text => "expected a range like \"1..10\", got: " ++ Text.quoted text
  | .rangeStart fault => "invalid range start: " ++ fault.message
  | .rangeEnd fault => "invalid range end: " ++ fault.message
  | .noValidator => "custom expects a validator name"
  | .notAValidatorName raw => "expected a validator name, got: " ++ raw.text
  | .unknownValidator name => "unknown custom validator " ++ name
  | .listArguments => "list_of expects exactly one type"
  | .invalidTag raw => "struct expects a tag, got: " ++ raw.text
  | .structArguments => "struct expects exactly one tag"

end DescriptorFault

def readRange (text : String) : Except DescriptorFault Ty :=
  match splitRange? text.toList with
  | none => .error (.notARange text)
  | some (first, last) => do
    let first ← first.read.mapError DescriptorFault.rangeStart
    let last ← last.read.mapError DescriptorFault.rangeEnd
    .ok (.choice (.range first last))

def simpleType? : String → Option Ty
  | "any" => some .any
  | "atom" => some .atom
  | "string" => some .string
  | "boolean" => some .boolean
  | "integer" => some .integer
  | "non_neg_integer" => some .nonNegInteger
  | "pos_integer" => some .posInteger
  | "float" => some .float
  | "timeout" => some .timeout
  | "pid" => some .pid
  | "reference" => some .reference
  | "null" => some .null
  | "keyword_list" => some .keywordList
  | "non_empty_keyword_list" => some .nonEmptyKeywordList
  | "map" => some .map
  | _ => none

/-- A single list stands for the arguments in it. -/
def flatten : List Value → List Value
  | [.list items] => items
  | args => args

structure Reader where
  ty : Value → Except DescriptorFault Ty
  schema : Value → Path → Except Defects Schema

namespace Reader

variable (reader : Reader)

def types : List Value → Except DescriptorFault (List Ty)
  | [] => .ok []
  | raw :: rest => do
    let ty ← reader.ty raw
    let others ← types rest
    .ok (ty :: others)

def keyed (container : Ty) (nested : Value) : Except DescriptorFault Ty :=
  match nested.identifier? with
  | some name => .ok (.keyed container (.ref name))
  | none =>
    match reader.schema nested .root with
    | .ok schema => .ok (.keyed container (.inline schema))
    | .error defects => .error (.invalidKeys defects)

def mapType (args : List Value) : Except DescriptorFault Ty :=
  match args with
  | [.list items] => ofPair items
  | [nested] => reader.keyed .map nested
  | args => ofPair args
where
  ofPair : List Value → Except DescriptorFault Ty
    | [key, value] => do
      let keyTy ← reader.ty key
      let valueTy ← reader.ty value
      .ok (.mapOf keyTy valueTy)
    | _ => .error (.mapArguments args)

def keywordListType (name : String) (container : Ty) (args : List Value) :
    Except DescriptorFault Ty :=
  match args with
  | [nested] => reader.keyed container nested
  | _ => .error (.keysExpected name)

def funType : List Value → Except DescriptorFault Ty
  | [.integer arity] =>
    if 0 ≤ arity then .ok (.func arity.toInt.toNat) else .error (.invalidArity [.integer arity])
  | args => .error (.invalidArity args)

def choiceType : List Value → Except DescriptorFault Ty
  | [.list choices] => .ok (.choice (.values choices))
  | [.string range] => readRange range
  | args => .error (.invalidChoices args)

def customType (validator? : String → Option Validator) (args : List Value) :
    Except DescriptorFault Ty :=
  match flatten args with
  | [] => .error .noValidator
  | head :: bound =>
    match head.identifier? with
    | none => .error (.notAValidatorName head)
    | some name =>
      match validator? name with
      | none => .error (.unknownValidator name)
      | some validator =>
        .ok (.custom (if bound.isEmpty then validator else validator.withArgs bound))

def listType : List Value → Except DescriptorFault Ty
  | [item] => (reader.ty item).map .listOf
  | _ => .error .listArguments

def structType : List Value → Except DescriptorFault Ty
  | [tag] =>
    match tag.identifier? with
    | some name => .ok (.struct name)
    | none => .error (.invalidTag tag)
  | _ => .error .structArguments

def parameterized (validator? : String → Option Validator) (name : String) (args : List Value) :
    Except DescriptorFault Ty :=
  match name with
  | "map" => reader.mapType args
  | "keyword_list" => reader.keywordListType name .keywordList args
  | "non_empty_keyword_list" => reader.keywordListType name .nonEmptyKeywordList args
  | "fun" => funType args
  | "in" => choiceType args
  | "custom" => customType validator? args
  | "or" => (reader.types (flatten args)).map .union
  | "list_of" => reader.listType args
  | "tuple" => (reader.types (flatten args)).map .tuple
  | "struct" => structType args
  | _ =>
    if (simpleType? name).isSome then .error (.noArguments name) else .error (.unknownType name)

def descriptor (validator? : String → Option Validator) (raw : Value) : Except DescriptorFault Ty :=
  match raw.identifier? with
  | some name =>
    match simpleType? name with
    | some ty => .ok ty
    | none => .error (.unknownName raw)
  | none =>
    match raw with
    | .tuple (head :: args) =>
      match head.identifier? with
      | some name => reader.parameterized validator? name args
      | none => .error (.notATypeName head)
    | .keywords _ => ofMapping
    | .map _ => ofMapping
    | _ => .error (.notADescriptor raw)
where
  ofMapping : Except DescriptorFault Ty :=
    match raw.entries? with
    | none => .error (.notADescriptor raw)
    | some [(name, arg)] => reader.parameterized validator? name [arg]
    | some _ => .error (.notOneEntry raw)

end Reader

end OptionSchema.Raw
