import OptionSchema.Failure

/-! # What is wrong with a schema -/
namespace OptionSchema

structure Defect where
  path : Path
  message : String
  code : String := "invalid_schema"
deriving DecidableEq, Repr

structure Defects where
  first : Defect
  others : List Defect
deriving DecidableEq, Repr

inductive Violation where
  | emptyUnion
  | emptyRange (first last : Int64)
  | emptyStructTag
  /-- A keyed container outside unions and lists. -/
  | misplacedKeyed
  /-- A keyed type around a type that holds no mapping. -/
  | keyedNonContainer (container : Ty)
  /-- A nested schema on a type that cannot have one. -/
  | keysNotAllowed (ty : Ty)
  | invalidDefault (failure : Failure)

namespace Violation

def code : Violation → String
  | .emptyUnion => "empty_or"
  | .emptyRange .. => "empty_range"
  | .emptyStructTag => "empty_struct_tag"
  | .misplacedKeyed => "keyed_not_allowed"
  | .keyedNonContainer _ => "keyed_not_allowed"
  | .keysNotAllowed _ => "keys_not_allowed"
  | .invalidDefault _ => "invalid_default"

def message : Violation → String
  | .emptyUnion => "or requires at least one type"
  | .emptyRange first last => "empty range " ++ (Choices.range first last).text
  | .emptyStructTag => "struct tag must not be empty"
  | .misplacedKeyed => "keyed containers are only allowed inside or and list_of"
  | .keyedNonContainer container => "keyed type requires a container, got: " ++ container.text
  | .keysNotAllowed ty => "keys can only be set on container types, got: " ++ ty.text
  | .invalidDefault failure => "invalid default: " ++ failure.text

def defect (violation : Violation) (path : Path) : Defect :=
  ⟨path, violation.message, violation.code⟩

end Violation

def Defect.text (defect : Defect) : String :=
  (if defect.path.isEmpty then "(schema)" else defect.path.text) ++ ": " ++ defect.message

namespace Defects

def single (defect : Defect) : Defects := ⟨defect, []⟩

def toList (defects : Defects) : List Defect := defects.first :: defects.others

def ofList? : List Defect → Option Defects
  | [] => none
  | first :: others => some ⟨first, others⟩

def size (defects : Defects) : Nat := defects.others.length + 1

def append (a b : Defects) : Defects := ⟨a.first, a.others ++ b.toList⟩

instance : Append Defects := ⟨append⟩

def atPath (defects : Defects) (path : Path) : List Defect :=
  defects.toList.filter fun defect => defect.path == path

def withCode (defects : Defects) (code : String) : List Defect :=
  defects.toList.filter fun defect => defect.code == code

def lines (number : Nat) : List Defect → String
  | [] => ""
  | defect :: defects =>
    "  " ++ toString number ++ ". " ++ defect.text ++ "\n" ++ lines (number + 1) defects

def text (defects : Defects) : String :=
  "invalid schema, " ++ toString defects.size ++ " error(s):\n" ++ lines 1 defects.toList

theorem toList_append (a b : Defects) : (a ++ b).toList = a.toList ++ b.toList := rfl

end Defects

end OptionSchema
