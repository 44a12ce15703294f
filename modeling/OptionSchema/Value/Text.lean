import OptionSchema.Decimal
import OptionSchema.Text.Characters
import OptionSchema.Value.Basic
/-!
# The text of values

A quoted text stands between double quotes. Backslash, double quote and a few controls have short
escapes; whatever else would not show as itself is written by its code point.
-/
namespace OptionSchema

namespace Text

def codePoint (c : Char) : String :=
  "\\u\x7b" ++ String.ofList (Nat.toDigits 16 c.toNat) ++ "\x7d"

def escape (c : Char) : String :=
  if c = '\x00' then "\\0"
  else if c = '\t' then "\\t"
  else if c = '\n' then "\\n"
  else if c = '\r' then "\\r"
  else if c = '"' then "\\\""
  else if c = '\\' then "\\\\"
  else if isCombining c || !isPrintable c then codePoint c
  else String.singleton c

def quoted (s : String) : String :=
  "\"" ++ String.join (s.toList.map escape) ++ "\""

def commaSeparated (texts : List String) : String := ", ".intercalate texts

end Text

namespace Value

mutual

/-- Strings are quoted; atoms, names and tags are not. -/
def text : Value → String
  | .null => "null"
  | .bool b => if b then "true" else "false"
  | .integer n => toString n.toInt
  | .float bits => Decimal.Layout.plain.double bits
  | .string s => Text.quoted s
  | .atom name => ":" ++ name
  | .list items => "[" ++ Text.commaSeparated (texts items) ++ "]"
  | .tuple items => "(" ++ Text.commaSeparated (texts items) ++ ")"
  | .keywords entries => "[" ++ Text.commaSeparated (entryTexts entries) ++ "]"
  | .map pairs => "\x7b" ++ Text.commaSeparated (pairTexts pairs) ++ "\x7d"
  | .struct tag fields => tag ++ " \x7b" ++ Text.commaSeparated (entryTexts fields) ++ "\x7d"
  | .func f => "fn " ++ f.name ++ "/" ++ toString f.arity
  | .pid id => "pid<" ++ toString id.toNat ++ ">"
  | .reference id => "ref<" ++ toString id.toNat ++ ">"

def texts : List Value → List String
  | [] => []
  | item :: items => item.text :: texts items

def entryTexts : List (String × Value) → List String
  | [] => []
  | (name, value) :: entries => (name ++ ": " ++ value.text) :: entryTexts entries

def pairTexts : List (Value × Value) → List String
  | [] => []
  | (key, value) :: pairs => (key.text ++ " => " ++ value.text) :: pairTexts pairs

end

end Value

end OptionSchema
