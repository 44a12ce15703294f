import OptionSchema.Failure
import OptionSchema.Proofs.Naming
/-!
# Following a path into a value

A mapping that reads as a keyword list holds under each name what it holds in the entries read, so
a path that goes by names follows what a walk over the entries does.
-/
namespace OptionSchema.Value

def step? (value : Value) : Segment → Option Value
  | .key name => value.find? name
  | .index position =>
    match value with
    | .list items => items[position]?
    | .tuple items => items[position]?
    | _ => none

def follow? (value : Value) : Path → Option Value
  | [] => some value
  | segment :: rest => (value.step? segment).bind fun part => part.follow? rest

theorem follow?_cons {value part : Value} {segment : Segment} (h : value.step? segment = some part)
    (rest : Path) : value.follow? (segment :: rest) = part.follow? rest := by
  rw [follow?, h, Option.bind_some]

section Named

variable {pairs : List (Value × Value)} {entries : List (String × Value)} {key held : Value}
  {name : String}

theorem lookup_of_named (h : namedEntries? pairs = some entries)
    (hname : key.identifier? = some name) (hlookup : pairs.lookup key = some held) :
    entries.lookup name = some held := by
  rw [List.lookup_eq_findSome?] at hlookup
  obtain ⟨pair, hpair, hheld⟩ := List.exists_of_findSome?_eq_some hlookup
  split at hheld
  · rename_i hkey
    cases hheld
    obtain ⟨own, hown, hentry, -⟩ := Schema.named_of_mem h hpair
    have same : own = name := by
      rw [identifier?_eq_of_beq hkey, hown] at hname
      exact Option.some.inj hname
    exact Entries.lookup_of_mem (namedEntries?_eq_some_iff.mp h).2 (same ▸ hentry)
  · cases hheld

theorem isSome_lookup_of_mem (h : (key, held) ∈ pairs) (hname : key.identifier? = some name) :
    (pairs.lookup key).isSome = true := by
  have self : (key == key) = true := (proper_of_scalar (isScalar_of_identifier? hname)).beq_refl
  rw [List.lookup_eq_findSome?, List.findSome?_isSome_iff]
  exact ⟨(key, held), h, by simp [self]⟩

theorem eq_of_identifier? (h : key.identifier? = some name) :
    key = .string name ∨ key = .atom name := by
  cases key with
  | string s => exact .inl (congrArg string (Option.some.inj h))
  | atom s => exact .inr (congrArg atom (Option.some.inj h))
  | _ => cases h

theorem find?_of_named (h : namedEntries? pairs = some entries) :
    (Value.map pairs).find? name = entries.lookup name := by
  have byString : ∀ value, pairs.lookup (.string name) = some value →
      entries.lookup name = some value := fun _ => lookup_of_named h rfl
  have byAtom : ∀ value, pairs.lookup (.atom name) = some value →
      entries.lookup name = some value := fun _ => lookup_of_named h rfl
  change (pairs.lookup (.string name) <|> pairs.lookup (.atom name)) = entries.lookup name
  cases hstring : pairs.lookup (.string name) with
  | some value => exact (byString value hstring).symm
  | none =>
    cases hatom : pairs.lookup (.atom name) with
    | some value => exact (byAtom value hatom).symm
    | none =>
      refine (Entries.lookup_eq_none.mpr fun hname => ?_).symm
      obtain ⟨entry, hentry, rfl⟩ := List.mem_map.mp hname
      obtain ⟨pair, hpair, hkey, -⟩ :=
        (Rearranged.of_forall₂ (namedEntries?_eq_some_iff.mp h).1).back hentry
      have found : (pairs.lookup pair.1).isSome = true := isSome_lookup_of_mem hpair hkey
      rcases eq_of_identifier? hkey with heq | heq
      · rw [heq, hstring] at found
        cases found
      · rw [heq, hatom] at found
        cases found

theorem Reads.find? {value : Value} (h : value.Reads entries) (name : String) :
    value.find? name = entries.lookup name := by
  cases h with
  | keywords => rfl
  | map named once => exact find?_of_named (namedEntries?_eq_some_iff.mpr ⟨named, once⟩)

theorem Reads.isMapping {value : Value} (h : value.Reads entries) : value.isMapping = true := by
  cases h <;> rfl

end Named

end OptionSchema.Value
