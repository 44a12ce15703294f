import OptionSchema.Entries
import OptionSchema.Value.Equality
/-! # Reading keyword lists and maps by name -/
namespace OptionSchema.Value

def keywordsOf (pairs : List (String × Value)) : Value := .keywords (Entries.ofList pairs)

/-- The map of `pairs`; of equal keys the first spelling and the last value count. -/
def mapOf (pairs : List (Value × Value)) : Value := .map (Entries.ofList pairs)

def structOf (tag : String) (pairs : List (String × Value)) : Value :=
  .struct tag (Entries.ofList pairs)

def namedEntries? : List (Value × Value) → Option (List (String × Value))
  | [] => some []
  | (key, value) :: rest =>
    match key.identifier?, namedEntries? rest with
    | some name, some entries =>
      if name ∈ Entries.names entries then none else some ((name, value) :: entries)
    | _, _ => none

/-- The entries of a keyword list, or of a map whose keys are strings and atoms with distinct
names. -/
def entries? : Value → Option (List (String × Value))
  | .keywords entries => some entries
  | .map pairs => namedEntries? pairs
  | _ => none

/-- The first name that is among `seen` or comes a second time. -/
def firstRepeated? (seen : List String) : List String → Option String
  | [] => none
  | name :: names => if name ∈ seen then some name else firstRepeated? (name :: seen) names

def duplicateIdentifier? : Value → Option String
  | .map pairs => firstRepeated? [] (pairs.filterMap (·.1.identifier?))
  | _ => none

/-- Looks up a name. In a map the string of that name comes before the atom. -/
def find? (value : Value) (name : String) : Option Value :=
  match value with
  | .keywords entries => entries.lookup name
  | .map pairs => pairs.lookup (.string name) <|> pairs.lookup (.atom name)
  | _ => none

end OptionSchema.Value
