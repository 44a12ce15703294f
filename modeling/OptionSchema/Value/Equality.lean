import OptionSchema.Value.Basic

/-! # Equality and hashing of values

Mappings are equal when they hold the same entries, in whatever order. Floats are equal when
their bits are, and functions when their identity and arity are.
-/
namespace OptionSchema.Value

mutual

def beq : Value → Value → Bool
  | .null, .null => true
  | .bool a, .bool b => a == b
  | .integer a, .integer b => a == b
  | .float a, .float b => a == b
  | .string a, .string b => a == b
  | .atom a, .atom b => a == b
  | .list a, .list b => beqAll a b
  | .tuple a, .tuple b => beqAll a b
  | .keywords a, .keywords b => a.length == b.length && entriesWithin a b
  | .map a, .map b => a.length == b.length && pairsWithin a b
  | .struct s a, .struct t b => s == t && a.length == b.length && entriesWithin a b
  | .func f, .func g => f.arity == g.arity && f.identity == g.identity
  | .pid a, .pid b => a == b
  | .reference a, .reference b => a == b
  | _, _ => false
termination_by structural value => value

def beqAll : List Value → List Value → Bool
  | [], [] => true
  | a :: as, b :: bs => beq a b && beqAll as bs
  | _, _ => false
termination_by structural items => items

def entriesWithin : List (String × Value) → List (String × Value) → Bool
  | [], _ => true
  | (name, value) :: rest, others =>
    (match others.lookup name with
      | some other => beq value other
      | none => false) && entriesWithin rest others
termination_by structural entries => entries

def pairsWithin : List (Value × Value) → List (Value × Value) → Bool
  | [], _ => true
  | (key, value) :: rest, others =>
    (match others.find? (fun pair => beq key pair.1) with
      | some pair => beq value pair.2
      | none => false) && pairsWithin rest others
termination_by structural pairs => pairs

end

instance : BEq Value := ⟨beq⟩

/-! ## What a hash is computed from

Of a mapping only the size is taken, because equality ignores the order of its entries.
-/

inductive HashItem where
  | kind (index : Nat)
  | flag (b : Bool)
  | integer (n : Int64)
  | word (w : UInt64)
  | text (s : String)
  | size (n : Nat)
deriving DecidableEq, Repr

mutual

def digest : Value → List HashItem
  | .null => [.kind 0]
  | .bool b => [.kind 1, .flag b]
  | .integer n => [.kind 2, .integer n]
  | .float bits => [.kind 3, .word bits]
  | .string s => [.kind 4, .text s]
  | .atom name => [.kind 5, .text name]
  | .list items => .kind 6 :: .size items.length :: digestAll items
  | .tuple items => .kind 7 :: .size items.length :: digestAll items
  | .keywords entries => [.kind 8, .size entries.length]
  | .map pairs => [.kind 9, .size pairs.length]
  | .struct tag fields => [.kind 10, .text tag, .size fields.length]
  | .func f => [.kind 11, .text f.name, .size f.arity]
  | .pid id => [.kind 12, .word id]
  | .reference id => [.kind 13, .word id]

def digestAll : List Value → List HashItem
  | [] => []
  | item :: items => item.digest ++ digestAll items

end

end OptionSchema.Value
