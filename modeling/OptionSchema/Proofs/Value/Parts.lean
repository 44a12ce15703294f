import OptionSchema.Proofs.Entries
import OptionSchema.Value.Mapping
/-! # The parts of values, and values whose mappings hold every key once -/
namespace OptionSchema.Value

def parts : Value → List Value
  | .list items => items
  | .tuple items => items
  | .keywords entries => entries.map (·.2)
  | .map pairs => pairs.flatMap fun pair => [pair.1, pair.2]
  | .struct _ fields => fields.map (·.2)
  | _ => []

theorem sizeOf_part {value part : Value} (h : part ∈ value.parts) : sizeOf part < sizeOf value := by
  cases value with
  | list items =>
    have := List.sizeOf_lt_of_mem (show part ∈ items from h)
    simp only [Value.list.sizeOf_spec]; omega
  | tuple items =>
    have := List.sizeOf_lt_of_mem (show part ∈ items from h)
    simp only [Value.tuple.sizeOf_spec]; omega
  | keywords entries =>
    obtain ⟨entry, hentry, rfl⟩ := List.mem_map.mp h
    have := List.sizeOf_lt_of_mem hentry
    obtain ⟨name, value⟩ := entry
    simp only [Value.keywords.sizeOf_spec, Prod.mk.sizeOf_spec] at *; omega
  | map pairs =>
    obtain ⟨pair, hpair, hpart⟩ := List.mem_flatMap.mp h
    have := List.sizeOf_lt_of_mem hpair
    obtain ⟨key, held⟩ := pair
    simp only [Value.map.sizeOf_spec, Prod.mk.sizeOf_spec, List.mem_cons, List.not_mem_nil,
      or_false] at *
    rcases hpart with rfl | rfl <;> omega
  | struct tag fields =>
    obtain ⟨entry, hentry, rfl⟩ := List.mem_map.mp h
    have := List.sizeOf_lt_of_mem hentry
    obtain ⟨name, value⟩ := entry
    simp only [Value.struct.sizeOf_spec, Prod.mk.sizeOf_spec] at *; omega
  | _ => cases h

theorem parts_induction {motive : Value → Prop}
    (step : ∀ value, (∀ part ∈ value.parts, motive part) → motive value) (value : Value) :
    motive value :=
  step value fun part _ => parts_induction step part
termination_by sizeOf value
decreasing_by exact sizeOf_part ‹_›

def HasDistinctKeys : Value → Prop
  | .keywords entries => (Entries.names entries).Nodup
  | .map pairs => Entries.Distinct pairs
  | .struct _ fields => (Entries.names fields).Nodup
  | _ => True

/-- No mapping inside holds a key twice, as insertion ensures. -/
inductive Proper : Value → Prop where
  | intro {value : Value} (distinct : value.HasDistinctKeys)
      (parts : ∀ part ∈ value.parts, Proper part) : Proper value

/-- The values without parts, functions apart. -/
def isScalar : Value → Bool
  | .null => true
  | .bool _ => true
  | .integer _ => true
  | .float _ => true
  | .string _ => true
  | .atom _ => true
  | .pid _ => true
  | .reference _ => true
  | _ => false

theorem Proper.part {value part : Value} (h : value.Proper) (hpart : part ∈ value.parts) :
    part.Proper := by
  cases h with
  | intro _ parts => exact parts part hpart

theorem Proper.distinct {value : Value} (h : value.Proper) : value.HasDistinctKeys := by
  cases h with
  | intro distinct _ => exact distinct

theorem proper_iff {value : Value} :
    value.Proper ↔ value.HasDistinctKeys ∧ ∀ part ∈ value.parts, part.Proper :=
  ⟨fun h => ⟨h.distinct, fun _ => h.part⟩, fun h => .intro h.1 h.2⟩

@[simp] theorem proper_list {items : List Value} :
    (Value.list items).Proper ↔ ∀ item ∈ items, item.Proper := by
  rw [proper_iff]; simp [HasDistinctKeys, parts]

@[simp] theorem proper_tuple {items : List Value} :
    (Value.tuple items).Proper ↔ ∀ item ∈ items, item.Proper := by
  rw [proper_iff]; simp [HasDistinctKeys, parts]

@[simp] theorem proper_keywords {entries : List (String × Value)} :
    (Value.keywords entries).Proper ↔
      (Entries.names entries).Nodup ∧ ∀ entry ∈ entries, entry.2.Proper := by
  rw [proper_iff, parts, List.forall_mem_map]; exact Iff.rfl

@[simp] theorem proper_map {pairs : List (Value × Value)} :
    (Value.map pairs).Proper ↔
      Entries.Distinct pairs ∧ ∀ pair ∈ pairs, pair.1.Proper ∧ pair.2.Proper := by
  rw [proper_iff, parts, List.forall_mem_flatMap]
  simp [HasDistinctKeys]

theorem proper_of_scalar {value : Value} (h : value.isScalar = true) : value.Proper := by
  cases value <;> first | exact absurd h Bool.false_ne_true | exact .intro trivial (by simp [parts])

@[simp] theorem proper_integer (n : Int64) : (Value.integer n).Proper := proper_of_scalar rfl

@[simp] theorem proper_string (s : String) : (Value.string s).Proper := proper_of_scalar rfl

end OptionSchema.Value
