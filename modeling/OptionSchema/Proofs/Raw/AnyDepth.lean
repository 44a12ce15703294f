import OptionSchema.Proofs.Raw.Attributes
/-!
# Reading raw values of any depth

A reader for raw values of some depth reads what is less deep like the readers for that. So there is
one reader for all raw values, and it reads the parts of a raw value with itself.
-/
namespace OptionSchema.Raw

structure Reader.AgreesUpTo (depth : Nat) (reader other : Reader) : Prop where
  ty : ∀ raw, raw.depth ≤ depth → reader.ty raw = other.ty raw
  schema : ∀ raw path, raw.depth ≤ depth → reader.schema raw path = other.schema raw path

theorem depth_flatten {args : List Value} {depth : Nat} (within : ∀ arg ∈ args, arg.depth ≤ depth) :
    ∀ item ∈ flatten args, item.depth ≤ depth := by
  fun_cases flatten args with
  | case1 items => exact Gives.together.depth_le within
  | case2 => exact within

theorem readEntries_congr {read read' : String → Value → Except Defects KeySpec}
    {entries : List (String × Value)}
    (agree : ∀ entry ∈ entries, read entry.1 entry.2 = read' entry.1 entry.2) :
    readEntries read entries = readEntries read' entries := by
  induction entries with
  | nil => rfl
  | cons entry entries ih =>
    rw [List.forall_mem_cons] at agree
    rw [readEntries, readEntries, agree.1, ih agree.2]

namespace Reader.AgreesUpTo

variable {validator? : String → Option Validator} {reader other : Reader} {depth : Nat}
  (agree : reader.AgreesUpTo depth other) {raw : Value} {args items : List Value}

include agree

theorem types (within : ∀ item ∈ items, item.depth ≤ depth) :
    reader.types items = other.types items := by
  induction items with
  | nil => rfl
  | cons item items ih =>
    rw [List.forall_mem_cons] at within
    rw [Reader.types, Reader.types, agree.ty item within.1, ih within.2]

theorem keyed (container : Ty) (within : raw.depth ≤ depth) :
    reader.keyed container raw = other.keyed container raw := by
  rw [Reader.keyed, Reader.keyed, agree.schema raw .root within]

theorem mapType (within : ∀ arg ∈ args, arg.depth ≤ depth) :
    reader.mapType args = other.mapType args := by
  have pair : ∀ items : List Value, (∀ item ∈ items, item.depth ≤ depth) →
      mapType.ofPair reader args items = mapType.ofPair other args items := by
    intro items within
    fun_cases mapType.ofPair other args items with
    | case1 key value =>
      rw [mapType.ofPair, agree.ty key (within key (by simp)),
        agree.ty value (within value (by simp))]
    | case2 _ h => rw [mapType.ofPair]; exact h
  fun_cases Reader.mapType other args with
  | case1 items => exact pair items (Gives.together.depth_le within)
  | case2 nested h =>
    rw [Reader.mapType]
    · exact agree.keyed _ (within _ (by simp))
    · exact h
  | case3 _ single listed =>
    rw [Reader.mapType]
    · exact pair _ within
    · exact single
    · exact listed

theorem keywordListType (name : String) (container : Ty)
    (within : ∀ arg ∈ args, arg.depth ≤ depth) :
    reader.keywordListType name container args = other.keywordListType name container args := by
  fun_cases Reader.keywordListType other name container args with
  | case1 nested => exact agree.keyed container (within nested List.mem_cons_self)
  | case2 _ h => rw [Reader.keywordListType]; exact h

theorem listType (within : ∀ arg ∈ args, arg.depth ≤ depth) :
    reader.listType args = other.listType args := by
  fun_cases Reader.listType other args with
  | case1 item => rw [Reader.listType, agree.ty item (within item List.mem_cons_self)]
  | case2 _ h => rw [Reader.listType]; exact h

theorem parameterized (name : String) (within : ∀ arg ∈ args, arg.depth ≤ depth) :
    reader.parameterized validator? name args = other.parameterized validator? name args := by
  have flat := agree.types (depth_flatten within)
  unfold Reader.parameterized
  split
  · exact agree.mapType within
  · exact agree.keywordListType _ _ within
  · exact agree.keywordListType _ _ within
  · rfl
  · rfl
  · rfl
  · rw [flat]
  · exact agree.listType within
  · rw [flat]
  · rfl
  · rfl

theorem descriptor (within : raw.depth ≤ depth + 1) :
    reader.descriptor validator? raw = other.descriptor validator? raw := by
  have applied : ∀ {name args}, Applies name args raw →
      reader.parameterized validator? name args = other.parameterized validator? name args :=
    fun applies => agree.parameterized _ fun arg harg =>
      Nat.le_of_lt_succ (Nat.lt_of_lt_of_le (applies.depth_lt arg harg) within)
  have mapping : Reader.descriptor.ofMapping reader validator? raw =
      Reader.descriptor.ofMapping other validator? raw := by
    unfold Reader.descriptor.ofMapping
    split
    · rfl
    · exact applied (.entry (Value.reads_iff.mpr ‹_›))
    · rfl
  unfold Reader.descriptor
  split
  · rfl
  · split
    · split
      · exact applied (.tuple ‹_›)
      · rfl
    · exact mapping
    · exact mapping
    · rfl

theorem keySpec (within : raw.depth ≤ depth) (path : Path) :
    reader.keySpec raw path = other.keySpec raw path := by
  have typed : ∀ attrs, raw.Reads attrs →
      reader.ty (rawType attrs) = other.ty (rawType attrs) := fun attrs reads =>
    agree.ty _ (Nat.le_trans (depth_rawType reads) within)
  rw [Reader.keySpec, Reader.keySpec, attributes_congr typed]
  cases hattrs : attributes other raw with
  | error failure => rfl
  | ok filled =>
    obtain ⟨attrs, reads, -, lookups⟩ := attributes_eq_ok hattrs
    simp only [attributeType, find?_type_of_filled lookups, find?_keys_of_filled lookups,
      typed attrs reads]
    cases other.ty (rawType attrs) with
    | error fault => rfl
    | ok ty =>
      cases hkeys : attrs.lookup "keys" with
      | none => rfl
      | some keys =>
        have below := reads.depth_lt (Entries.mem_of_lookup hkeys)
        have nested := agree.schema keys path (Nat.le_trans (Nat.le_of_lt below) within)
        simp only [bind, Except.bind]
        generalize liftKeyed ty = lifted
        obtain ⟨bare, _ | shorthand⟩ := lifted
        · simp only [nested]
        · rfl

theorem keys (within : raw.depth ≤ depth + 1) (path : Path) :
    reader.keys raw path = other.keys raw path := by
  rw [Reader.keys, Reader.keys]
  cases hentries : raw.entries? with
  | none => rfl
  | some entries =>
    refine congrArg (Except.map Schema.ofList) (readEntries_congr fun entry hentry => ?_)
    have below := (Value.reads_iff.mpr hentries).depth_lt hentry
    exact agree.keySpec (Nat.le_of_lt_succ (Nat.lt_of_lt_of_le below within)) _

end Reader.AgreesUpTo

variable (validator? : String → Option Validator)

theorem Reader.agreesUpTo_ofDepth {depth depth' : Nat} (h : depth ≤ depth') :
    (ofDepth validator? depth).AgreesUpTo depth (ofDepth validator? depth') := by
  induction depth generalizing depth' with
  | zero =>
    exact ⟨fun raw within => absurd within (Nat.not_le.mpr raw.depth_pos),
      fun raw _ within => absurd within (Nat.not_le.mpr raw.depth_pos)⟩
  | succ depth ih =>
    obtain ⟨depth', rfl⟩ := Nat.exists_eq_add_of_le' h
    have parts := ih (Nat.le_of_succ_le_succ h)
    exact ⟨fun _ within => parts.descriptor within, fun _ path within => parts.keys within path⟩

def reader : Reader where
  ty := readType validator?
  schema raw path := (Reader.ofDepth validator? raw.depth).schema raw path

theorem readSchema_eq (raw : Value) :
    readSchema validator? raw = (reader validator?).schema raw .root := rfl

theorem reader_agreesUpTo (depth : Nat) :
    (reader validator?).AgreesUpTo depth (Reader.ofDepth validator? depth) where
  ty raw within := (Reader.agreesUpTo_ofDepth validator? within).ty raw (Nat.le_refl _)
  schema raw path within :=
    (Reader.agreesUpTo_ofDepth validator? within).schema raw path (Nat.le_refl _)

theorem reader_schema (raw : Value) (path : Path) :
    (reader validator?).schema raw path = (reader validator?).keys raw path := by
  obtain ⟨depth, hdepth⟩ := Nat.exists_eq_succ_of_ne_zero (Nat.ne_of_gt raw.depth_pos)
  rw [(reader_agreesUpTo validator? depth).keys (Nat.le_of_eq hdepth)]
  exact (reader_agreesUpTo validator? (depth + 1)).schema raw path (Nat.le_of_eq hdepth)

end OptionSchema.Raw
