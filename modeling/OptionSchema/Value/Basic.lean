/-! # The values that schemas describe -/
namespace OptionSchema

/-- A callable value. Its behaviour is known only through its identity. -/
structure Fun where
  name : String
  arity : Nat
  identity : Nat
deriving DecidableEq, Repr

/-- Mappings hold their entries in insertion order. Floats are kept as their IEEE 754 bits. -/
inductive Value where
  | null
  | bool (b : Bool)
  | integer (n : Int64)
  | float (bits : UInt64)
  | string (s : String)
  | atom (name : String)
  | list (items : List Value)
  | tuple (items : List Value)
  | keywords (entries : List (String × Value))
  | map (pairs : List (Value × Value))
  | struct (tag : String) (fields : List (String × Value))
  | func (f : Fun)
  | pid (id : UInt64)
  | reference (id : UInt64)
deriving Repr, Inhabited

/-- Calls `f` when the number of arguments fits; `bodies` gives each identity its behaviour. -/
def Fun.call? (bodies : Nat → List Value → Value) (f : Fun) (args : List Value) : Option Value :=
  if args.length = f.arity then some (bodies f.identity args) else none

namespace Value

def typeName : Value → String
  | .null => "null"
  | .bool _ => "boolean"
  | .integer _ => "integer"
  | .float _ => "float"
  | .string _ => "string"
  | .atom _ => "atom"
  | .list _ => "list"
  | .tuple _ => "tuple"
  | .keywords _ => "keyword list"
  | .map _ => "map"
  | .struct .. => "struct"
  | .func _ => "function"
  | .pid _ => "pid"
  | .reference _ => "reference"

/-- Strings and atoms both name things. -/
def identifier? : Value → Option String
  | .string s => some s
  | .atom name => some name
  | _ => none

def integer? : Value → Option Int64
  | .integer n => some n
  | _ => none

def isMapping : Value → Bool
  | .keywords _ => true
  | .map _ => true
  | _ => false

mutual

def depth : Value → Nat
  | .list items => depthOfAll items + 1
  | .tuple items => depthOfAll items + 1
  | .keywords entries => depthOfEntries entries + 1
  | .map pairs => depthOfPairs pairs + 1
  | .struct _ fields => depthOfEntries fields + 1
  | _ => 1

def depthOfAll : List Value → Nat
  | [] => 0
  | item :: items => max item.depth (depthOfAll items)

def depthOfEntries : List (String × Value) → Nat
  | [] => 0
  | (_, value) :: entries => max value.depth (depthOfEntries entries)

def depthOfPairs : List (Value × Value) → Nat
  | [] => 0
  | (key, value) :: pairs => max (max key.depth value.depth) (depthOfPairs pairs)

end

end Value

end OptionSchema
