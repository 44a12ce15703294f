import OptionSchema.Proofs.Raw.Accumulation
import OptionSchema.Proofs.Value.Identifiers
/-!
# The type of a key specification

Attributes pass only with a type that can be read, the one that is written or the one that stands
for it. So reading that type once more, for the key itself, cannot fail, and what is left to read of
a key specification is its nested schema.
-/
namespace OptionSchema.Raw

/-- The type among the attributes that passed, and what reading the key makes of it. -/
structure TypeSettled (validator? : String → Option Validator) (raw filled rawTy : Value)
    (ty : Ty) : Prop where
  /-- The attributes hold a raw type. -/
  given : filled.find? "type" = some rawTy
  /-- It is the one that is written, or none is and any value will do. -/
  source : raw.Binds "type" rawTy ∨ rawTy = .string "any" ∧ ∀ other, ¬ raw.Binds "type" other
  read : readType validator? rawTy = .ok ty
  /-- Reading it for the key has no failure to report and no need of another type. -/
  again : ∀ path, attributeType (Raw.reader validator?) filled path = .ok ty
  /-- The key is then as its attributes and this type say, but for its nested schema. -/
  key : ∀ path, (Raw.reader validator?).keySpec raw path =
    (Raw.reader validator?).withKeys (attributeSpec filled (liftKeyed ty).1 (liftKeyed ty).2)
      (filled.find? "keys") (liftKeyed ty).2 path

theorem rawType_source {raw : Value} {attrs : List (String × Value)} (reads : raw.Reads attrs) :
    raw.Binds "type" (rawType attrs) ∨
      rawType attrs = .string "any" ∧ ∀ other, ¬ raw.Binds "type" other := by
  rw [rawType]
  cases written : attrs.lookup "type" with
  | some rawTy => exact .inl (reads.binds_iff.mpr (Entries.mem_of_lookup written))
  | none =>
    refine .inr ⟨rfl, fun other held => ?_⟩
    exact Entries.lookup_eq_none.mp written (Entries.mem_names (reads.binds_iff.mp held))

/-- Attributes that pass settle the type of the key. -/
theorem type_settled {validator? : String → Option Validator} {raw filled : Value}
    (passed : attributes (Raw.reader validator?) raw = .ok filled) :
    ∃ rawTy ty, TypeSettled validator? raw filled rawTy ty := by
  obtain ⟨attrs, reads, pass, lookups⟩ := attributes_eq_ok passed
  obtain ⟨ty, typed⟩ := pass.typed
  have again := attributeType_of_filled lookups typed
  exact ⟨rawType attrs, ty, find?_type_of_filled lookups, rawType_source reads, typed, again,
    fun path => Reader.keySpec_of_typed passed (again path)⟩

section Pool

def rawPoolType : Value := .tuple [.string "or", .atom "integer",
  .map [(.atom "keyword_list", .keywords [("size", .keywords [("type", .string "pos_integer")])])]]

def rawPoolKey : Value := .map [(.string "required", .bool true), (.atom "type", rawPoolType)]

/-- The type of the pool is settled when its attributes pass, and so is that of a key without
one. -/
theorem pool_type_settled :
    (∃ filled ty, attributes (Raw.reader fun _ => none) rawPoolKey = .ok filled ∧
      TypeSettled (fun _ => none) rawPoolKey filled rawPoolType ty) ∧
    ∃ filled ty, attributes (Raw.reader fun _ => none) (.keywords []) = .ok filled ∧
      TypeSettled (fun _ => none) (.keywords []) filled (.string "any") ty := by
  constructor
  · have passed : attributes (Raw.reader fun _ => none) rawPoolKey = .ok _ := rfl
    obtain ⟨rawTy, ty, settled⟩ := type_settled passed
    obtain rfl : rawPoolType = rawTy := Option.some.inj (settled.given.symm.trans rfl).symm
    exact ⟨_, ty, passed, settled⟩
  · have passed : attributes (Raw.reader fun _ => none) (.keywords []) = .ok _ := rfl
    obtain ⟨rawTy, ty, settled⟩ := type_settled passed
    obtain rfl : .string "any" = rawTy := Option.some.inj (settled.given.symm.trans rfl).symm
    exact ⟨_, ty, passed, settled⟩

end Pool

end OptionSchema.Raw
