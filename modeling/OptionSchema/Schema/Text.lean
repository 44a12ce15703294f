import OptionSchema.Schema.Basic
import OptionSchema.Value.Text
/-! # The text of types -/
namespace OptionSchema

def Choices.text : Choices → String
  | .values allowed => (Value.list allowed).text
  | .range first last => toString first.toInt ++ ".." ++ toString last.toInt

namespace Ty

def name : Ty → String
  | .any => "any"
  | .atom => "atom"
  | .string => "string"
  | .boolean => "boolean"
  | .integer => "integer"
  | .nonNegInteger => "non_neg_integer"
  | .posInteger => "pos_integer"
  | .float => "float"
  | .timeout => "timeout"
  | .pid => "pid"
  | .reference => "reference"
  | .null => "null"
  | .keywordList => "keyword_list"
  | .nonEmptyKeywordList => "non_empty_keyword_list"
  | .map => "map"
  | .mapOf .. => "map"
  | .func _ => "fun"
  | .choice _ => "in"
  | .custom _ => "custom"
  | .union _ => "or"
  | .listOf _ => "list_of"
  | .tuple _ => "tuple"
  | .struct _ => "struct"
  | .keyed container _ => container.name

mutual

def text : Ty → String
  | .mapOf key value => "map(" ++ key.text ++ ", " ++ value.text ++ ")"
  | .func arity => "fun(" ++ toString arity ++ ")"
  | .choice choices => "in(" ++ choices.text ++ ")"
  | .custom validator => "custom(" ++ validator.name ++ ")"
  | .union alternatives => "or(" ++ Text.commaSeparated (texts alternatives) ++ ")"
  | .listOf item => "list_of(" ++ item.text ++ ")"
  | .tuple items => "tuple(" ++ Text.commaSeparated (texts items) ++ ")"
  | .struct tag => "struct(" ++ tag ++ ")"
  | .keyed container _ => container.text ++ "(keys)"
  | ty => ty.name
termination_by structural ty => ty

def texts : List Ty → List String
  | [] => []
  | ty :: types => ty.text :: texts types
termination_by structural types => types

end

def expectation : Ty → String
  | .nonNegInteger => "non-negative integer"
  | .posInteger => "positive integer"
  | .timeout => "non-negative integer or :infinity"
  | .keywordList => "keyword list"
  | .nonEmptyKeywordList => "non-empty keyword list"
  | .func arity => "function of arity " ++ toString arity
  | .choice choices => "one of " ++ choices.text
  | .listOf _ => "list"
  | .tuple items => "tuple with " ++ toString items.length ++ " elements"
  | .struct tag => "struct " ++ tag
  | .keyed container _ => container.expectation
  | ty => ty.name

end Ty

end OptionSchema
