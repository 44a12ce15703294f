import OptionSchema.Value.Mapping
import OptionSchema.Value.Text
/-! # Values from and to JSON -/
namespace OptionSchema

/-- Numbers are integers or finite floats, the latter by their IEEE 754 bits. Objects keep their
members in order. -/
inductive Json where
  | null
  | bool (b : Bool)
  | integer (n : Int)
  | float (bits : UInt64)
  | string (s : String)
  | array (items : List Json)
  | object (members : List (String × Json))
deriving Repr, Inhabited

namespace Value

/-- Infinities and NaNs have all exponent bits set. -/
def isFinite (bits : UInt64) : Bool := decide (bits.toNat / Nat.pow 2 52 % Nat.pow 2 11 ≠ 2047)

def memberName (key : Value) : String := key.identifier?.getD key.text

mutual

/-- Atoms become strings, tuples arrays and structs objects without their tag. What JSON cannot
hold becomes its text, or null for a float that is not finite. -/
def toJson : Value → Json
  | .null => .null
  | .bool b => .bool b
  | .integer n => .integer n.toInt
  | .float bits => if isFinite bits then .float bits else .null
  | .string s => .string s
  | .atom name => .string name
  | .list items => .array (jsonItems items)
  | .tuple items => .array (jsonItems items)
  | .keywords entries => .object (jsonMembers entries)
  | .map pairs => .object (Entries.ofList (jsonPairs pairs))
  | .struct _ fields => .object (jsonMembers fields)
  | .func f => .string (text (.func f))
  | .pid id => .string (text (.pid id))
  | .reference id => .string (text (.reference id))

def jsonItems : List Value → List Json
  | [] => []
  | item :: items => item.toJson :: jsonItems items

def jsonMembers : List (String × Value) → List (String × Json)
  | [] => []
  | (name, value) :: entries => (name, value.toJson) :: jsonMembers entries

def jsonPairs : List (Value × Value) → List (String × Json)
  | [] => []
  | (key, value) :: pairs => (key.memberName, value.toJson) :: jsonPairs pairs

end

/-- An integer within 64 bits, or else the float nearest to it. -/
def ofInt (n : Int) : Value :=
  if Int64.minValue.toInt ≤ n ∧ n ≤ Int64.maxValue.toInt then .integer (.ofInt n)
  else .float (Float.ofInt n).toBits

mutual

def ofJson : Json → Value
  | .null => .null
  | .bool b => .bool b
  | .integer n => ofInt n
  | .float bits => .float bits
  | .string s => .string s
  | .array items => .list (ofJsonItems items)
  | .object members => .map (ofJsonMembers members)

def ofJsonItems : List Json → List Value
  | [] => []
  | item :: items => ofJson item :: ofJsonItems items

def ofJsonMembers : List (String × Json) → List (Value × Value)
  | [] => []
  | (name, value) :: members => (.string name, ofJson value) :: ofJsonMembers members

end

end Value

end OptionSchema
