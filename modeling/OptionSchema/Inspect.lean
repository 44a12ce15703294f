import OptionSchema.Schema.Text

/-! # Structural texts for diagnosis

Every part is shown with the name of its kind. Functions and producers are left out.
-/
namespace OptionSchema

namespace Inspect

def bracketed (texts : List String) : String := "[" ++ Text.commaSeparated texts ++ "]"

def braced (texts : List String) : String := "\x7b" ++ Text.commaSeparated texts ++ "\x7d"

def record (kind : String) (fields : List String) : String :=
  kind ++ " \x7b " ++ Text.commaSeparated fields ++ " \x7d"

def wrapped (kind text : String) : String := kind ++ "(" ++ text ++ ")"

def field (name text : String) : String := name ++ ": " ++ text

def bool (b : Bool) : String := if b then "true" else "false"

def option : Option String → String
  | none => "None"
  | some text => wrapped "Some" text

def strings (names : List String) : String := bracketed (names.map Text.quoted)

end Inspect

open Inspect

def Fun.inspect (f : Fun) : String :=
  record "Fun" [field "name" (Text.quoted f.name), field "arity" (toString f.arity), ".."]

mutual

def Value.inspect : Value → String
  | .null => "Null"
  | .bool b => wrapped "Bool" (Inspect.bool b)
  | .integer n => wrapped "Integer" (toString n.toInt)
  | .float bits => wrapped "Float" (Decimal.Layout.plain.double bits)
  | .string s => wrapped "String" (Text.quoted s)
  | .atom name => wrapped "Atom" (Text.quoted name)
  | .list items => wrapped "List" (bracketed (Value.inspectAll items))
  | .tuple items => wrapped "Tuple" (bracketed (Value.inspectAll items))
  | .keywords entries => wrapped "Keywords" (braced (Value.inspectEntries entries))
  | .map pairs => wrapped "Map" (braced (Value.inspectPairs pairs))
  | .struct tag fields => record "Struct"
    [field "tag" (Text.quoted tag), field "fields" (braced (Value.inspectEntries fields))]
  | .func f => wrapped "Fun" f.inspect
  | .pid id => wrapped "Pid" (toString id.toNat)
  | .reference id => wrapped "Reference" (toString id.toNat)
termination_by structural value => value

def Value.inspectAll : List Value → List String
  | [] => []
  | item :: items => item.inspect :: Value.inspectAll items
termination_by structural items => items

def Value.inspectEntries : List (String × Value) → List String
  | [] => []
  | (name, value) :: entries =>
    field (Text.quoted name) value.inspect :: Value.inspectEntries entries
termination_by structural entries => entries

def Value.inspectPairs : List (Value × Value) → List String
  | [] => []
  | (key, value) :: pairs => field key.inspect value.inspect :: Value.inspectPairs pairs
termination_by structural pairs => pairs

end

def Validator.inspect (validator : Validator) : String :=
  record "CustomValidator" [field "name" (Text.quoted validator.name),
    field "args" (bracketed (validator.args.map Value.inspect)), ".."]

def Choices.inspect : Choices → String
  | .values allowed => wrapped "List" (bracketed (allowed.map Value.inspect))
  | .range first last =>
    wrapped "Range" (toString first.toInt ++ "..=" ++ toString last.toInt)

mutual

def Ty.inspect : Ty → String
  | .any => "Any"
  | .atom => "Atom"
  | .string => "String"
  | .boolean => "Boolean"
  | .integer => "Integer"
  | .nonNegInteger => "NonNegInteger"
  | .posInteger => "PosInteger"
  | .float => "Float"
  | .timeout => "Timeout"
  | .pid => "Pid"
  | .reference => "Reference"
  | .null => "Null"
  | .keywordList => "KeywordList"
  | .nonEmptyKeywordList => "NonEmptyKeywordList"
  | .map => "Map"
  | .mapOf key value => wrapped "MapOf" (Text.commaSeparated [key.inspect, value.inspect])
  | .func arity => wrapped "Fun" (toString arity)
  | .choice choices => wrapped "In" choices.inspect
  | .custom validator => wrapped "Custom" validator.inspect
  | .union alternatives => wrapped "Or" (bracketed (Ty.inspectAll alternatives))
  | .listOf item => wrapped "ListOf" item.inspect
  | .tuple items => wrapped "Tuple" (bracketed (Ty.inspectAll items))
  | .struct tag => wrapped "Struct" (Text.quoted tag)
  | .keyed container nested =>
    wrapped "Keyed" (Text.commaSeparated [container.inspect, nested.inspect])
termination_by structural ty => ty

def Ty.inspectAll : List Ty → List String
  | [] => []
  | ty :: types => ty.inspect :: Ty.inspectAll types
termination_by structural types => types

def Nested.inspect : Nested → String
  | .inline schema => wrapped "Inline" schema.inspect
  | .lazy _ => wrapped "Lazy" ".."
  | .ref name => wrapped "Ref" (Text.quoted name)
termination_by structural nested => nested

def Nested.inspectOption : Option Nested → Option String
  | none => none
  | some nested => some nested.inspect
termination_by structural nested => nested

def KeySpec.inspect : KeySpec → String
  | ⟨ty, required, default, nested, deprecated, doc, subsection, typeDoc⟩ =>
    record "KeySpec" [field "ty" ty.inspect, field "required" (Inspect.bool required),
      field "default" (option (default.map Value.inspect)),
      field "keys" (option (Nested.inspectOption nested)),
      field "deprecated" (option (deprecated.map Text.quoted)),
      field "doc" (option (doc.map Text.quoted)),
      field "subsection" (option (subsection.map Text.quoted)),
      field "type_doc" (option (typeDoc.map Text.quoted))]
termination_by structural spec => spec

def Schema.inspect : Schema → String
  | ⟨keys⟩ => record "Schema" [field "keys" (braced (Schema.inspectKeys keys))]
termination_by structural schema => schema

def Schema.inspectKeys : List (String × KeySpec) → List String
  | [] => []
  | (name, spec) :: keys => field (Text.quoted name) spec.inspect :: Schema.inspectKeys keys
termination_by structural keys => keys

end

end OptionSchema
