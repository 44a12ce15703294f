import OptionSchema.Proofs.OutputProper
import OptionSchema.Proofs.Raw.Range
import OptionSchema.Proofs.Raw.WrittenForm
import OptionSchema.Proofs.Value.Following
/-!
# Written schemas read back

Reading goes down a raw value with readers for its parts. Where these are right about all raw values
up to some depth, so is the reader made of them a step further, whichever written form it meets.
-/
namespace OptionSchema

namespace Value

theorem depth_pos (value : Value) : 0 < value.depth := by
  cases value <;> simp [depth]

theorem depth_le_depthOfAll {item : Value} {items : List Value} (h : item ∈ items) :
    item.depth ≤ depthOfAll items := by
  induction items with
  | nil => cases h
  | cons head items ih =>
    rw [depthOfAll]
    rcases List.mem_cons.mp h with rfl | h
    · exact Nat.le_max_left _ _
    · exact Nat.le_trans (ih h) (Nat.le_max_right _ _)

theorem depth_le_depthOfEntries {entry : String × Value} {entries : List (String × Value)}
    (h : entry ∈ entries) : entry.2.depth ≤ depthOfEntries entries := by
  induction entries with
  | nil => cases h
  | cons head entries ih =>
    rw [depthOfEntries]
    rcases List.mem_cons.mp h with rfl | h
    · exact Nat.le_max_left _ _
    · exact Nat.le_trans (ih h) (Nat.le_max_right _ _)

theorem depth_le_depthOfPairs {pair : Value × Value} {pairs : List (Value × Value)}
    (h : pair ∈ pairs) : pair.2.depth ≤ depthOfPairs pairs := by
  induction pairs with
  | nil => cases h
  | cons head pairs ih =>
    rw [depthOfPairs]
    rcases List.mem_cons.mp h with rfl | h
    · exact Nat.le_trans (Nat.le_max_right _ _) (Nat.le_max_left _ _)
    · exact Nat.le_trans (ih h) (Nat.le_max_right _ _)

theorem Reads.depth_lt {value : Value} {entries : List (String × Value)} (h : value.Reads entries)
    {entry : String × Value} (hentry : entry ∈ entries) : entry.2.depth < value.depth := by
  cases h with
  | keywords => exact Nat.lt_succ_of_le (depth_le_depthOfEntries hentry)
  | map named once =>
    obtain ⟨pair, hpair, -, hheld⟩ := (Rearranged.of_forall₂ named).back hentry
    exact Nat.lt_succ_of_le (hheld ▸ depth_le_depthOfPairs hpair)

theorem Reads.identifier? {value : Value} {entries : List (String × Value)}
    (h : value.Reads entries) : value.identifier? = none := by
  cases h <;> rfl

end Value

theorem Ty.output_union_of_admits {onward : Onward} {alternatives : List Ty} {value : Value}
    (plain : ∀ ty ∈ alternatives, ty.isPlain = true)
    (admitted : ∃ ty ∈ alternatives, ty.admits value = true) :
    (union alternatives).output onward value = some value := by
  rw [output, outputAny_eq_findSome?]
  cases hfound : alternatives.findSome? fun ty => ty.output onward value with
  | some w =>
    obtain ⟨ty, hty, hout⟩ := List.exists_of_findSome?_eq_some hfound
    rw [((output_plain_eq_some (plain ty hty)).mp hout).2]
  | none =>
    obtain ⟨ty, hty, admits⟩ := admitted
    have refused := List.findSome?_eq_none_iff.mp hfound ty hty
    rw [(output_plain_eq_some (plain ty hty)).mpr ⟨admits, rfl⟩] at refused
    cases refused

section Echo

variable {onward : Onward} {schema : Schema} {input : List (String × Value)}

theorem KeySpec.output_of_alone {spec : KeySpec} {value : Value} (alone : spec.nested = none) :
    spec.output onward value = spec.ty.output onward value := by
  rw [output, alone]
  cases spec.ty.output onward value <;> rfl

theorem Schema.outputMapping_of_reads {value : Value} {output : List (String × Value)}
    (reads : value.Reads input) (h : schema.outputEntries onward input = some output)
    (nodup : (Entries.names output).Nodup) :
    ∃ w, schema.outputMapping onward value = some w ∧ w.Reads output := by
  cases reads with
  | keywords =>
    refine ⟨.keywords output, ?_, .keywords output⟩
    rw [outputMapping, h, Option.map_some]
  | @map pairs _ named once =>
    have hread : Value.namedEntries? pairs = some input :=
      Value.namedEntries?_eq_some_iff.mpr ⟨named, once⟩
    refine ⟨.map (restoreKeys pairs output), ?_, ?_⟩
    · rw [outputMapping, hread, Option.bind_some, h, Option.map_some]
    · exact Value.reads_iff.mpr (namedEntries?_restoreKeys nodup)

def KeySpec.filled? (input : List (String × Value)) (entry : String × KeySpec) : Option Value :=
  (input.lookup entry.1).or entry.2.default

theorem KeySpec.candidate?_of_optional {entry : String × KeySpec}
    (optional : entry.2.required = false) :
    candidate? input entry.1 entry.2 = some (filled? input entry) := by
  rw [candidate?, filled?]
  cases input.lookup entry.1 <;> simp [optional]

theorem KeySpec.contribution_of_echoed {entry : String × KeySpec}
    (optional : entry.2.required = false) (echoed : ∀ value, filled? input entry = some value →
      entry.2.output onward value = some value) :
    contribution onward input entry =
      some ((filled? input entry).map fun value => (entry.1, value)) := by
  rw [contribution, candidate?_of_optional optional, Option.bind_some]
  cases hfilled : filled? input entry with
  | none => rfl
  | some value => simp [echoed value hfilled]

/-- A level of optional keys that return what they are given fills in its defaults and changes
nothing else. -/
theorem Schema.outputEntries_of_echoed (once : schema.names.Nodup) (fixed : schema.wildcard? = none)
    (declared : ∀ name ∈ Entries.names input, (schema.find? name).isSome = true)
    (optional : ∀ entry ∈ schema.keys, entry.2.required = false)
    (echoed : ∀ entry ∈ schema.keys, ∀ value, KeySpec.filled? input entry = some value →
      entry.2.output onward value = some value) :
    ∃ output, schema.outputEntries onward input = some output ∧ (Entries.names output).Nodup ∧
      ∀ entry ∈ schema.keys, output.lookup entry.1 = KeySpec.filled? input entry := by
  let given := schema.keys.map fun entry =>
    (KeySpec.filled? input entry).map fun value => (entry.1, value)
  have contributed : schema.keys.mapM (KeySpec.contribution onward input) = some given := by
    rw [mapM_eq_some_iff, List.forall₂_map_right_iff, List.forall₂_same]
    exact fun entry hentry =>
      KeySpec.contribution_of_echoed (optional entry hentry) (echoed entry hentry)
  have houtput : schema.outputEntries onward input = some (given.filterMap id) := by
    refine (outputEntries_eq_some once).mpr ⟨fun name hname => ?_, given, ?_, rfl⟩
    · rw [specFor?, Option.isSome_or, declared name hname, Bool.true_or]
    · rw [expand_of_wildcard?_eq_none _ fixed, contributed]
  have nodup := nodup_names_output once houtput
  refine ⟨_, houtput, nodup, fun entry hentry => Option.ext fun value => ?_⟩
  rw [Entries.lookup_eq_some nodup, List.mem_filterMap]
  constructor
  · rintro ⟨_, hmem, rfl⟩
    obtain ⟨other, hother, hgiven⟩ := List.mem_map.mp hmem
    obtain ⟨held, hheld, heq⟩ := Option.map_eq_some_iff.mp hgiven
    obtain ⟨hname, rfl⟩ := Prod.mk.inj heq
    have same : other.2 = entry.2 := Entries.eq_of_mem once (hname ▸ hother) hentry
    rwa [← Prod.ext hname same]
  · intro hfilled
    refine ⟨some (entry.1, value), List.mem_map.mpr ⟨entry, hentry, ?_⟩, rfl⟩
    rw [hfilled, Option.map_some]

end Echo

namespace Raw

variable {validator? : String → Option Validator} {name : String} {raw : Value}
  {args items : List Value}

section Arguments

theorem Gives.depth_le (h : Gives items args) {bound : Nat}
    (args_le : ∀ arg ∈ args, arg.depth ≤ bound) : ∀ item ∈ items, item.depth ≤ bound := by
  intro item hitem
  cases h with
  | apart => exact args_le item hitem
  | together =>
    have whole : (Value.list items).depth ≤ bound := args_le _ List.mem_cons_self
    have inside := Value.depth_le_depthOfAll hitem
    rw [Value.depth] at whole
    omega

theorem Applies.depth_lt (h : Applies name args raw) : ∀ arg ∈ args, arg.depth < raw.depth := by
  intro arg harg
  cases h with
  | tuple named =>
    exact Nat.lt_succ_of_le (Value.depth_le_depthOfAll (List.mem_cons_of_mem _ harg))
  | entry reads =>
    obtain rfl := List.mem_singleton.mp harg
    exact reads.depth_lt List.mem_cons_self

theorem flatten_of_gives (h : Gives items args) (single : ∀ inner, items ≠ [.list inner]) :
    flatten args = items := by
  cases h with
  | together => rfl
  | apart =>
    rw [flatten.eq_def]
    split
    · exact absurd rfl (single _)
    · rfl

theorem Reader.descriptor_of_applies (reader : Reader) (h : Applies name args raw) :
    reader.descriptor validator? raw = reader.parameterized validator? name args := by
  cases h with
  | @tuple head args named =>
    have unnamed : (Value.tuple (head :: args)).identifier? = none := rfl
    simp only [descriptor, unnamed, named]
  | entry reads =>
    have unnamed := reads.identifier?
    have hread := Value.reads_iff.mp reads
    cases reads with
    | keywords => rfl
    | map named once => simp only [descriptor, unnamed, descriptor.ofMapping, hread]

end Arguments

section Families

theorem funType_of_count {n : Int64} {arity : Nat} (count : n.toInt = arity) :
    Reader.funType [.integer n] = .ok (.func arity) := by
  have nonneg : 0 ≤ n := by
    rw [Int64.le_iff_toInt_le, count]
    exact Int.natCast_nonneg arity
  rw [Reader.funType, if_pos nonneg, count, Int.toNat_natCast]

theorem customType_of_gives {head : Value} {bound : List Value} {validator : Validator}
    (gives : Gives (head :: bound) args) (named : head.identifier? = some name)
    (registered : validator? name = some validator) :
    Reader.customType validator? args =
      .ok (.custom (if bound.isEmpty then validator else validator.withArgs bound)) := by
  have single : ∀ inner, head :: bound ≠ [.list inner] := by
    rintro inner ⟨⟩
    cases named
  rw [Reader.customType, flatten_of_gives gives single]
  simp only [named, registered]

variable (reader : Reader)

theorem mapType_of_gives {rawKey rawHeld : Value} {key held : Ty}
    (gives : Gives [rawKey, rawHeld] args) (hkey : reader.ty rawKey = .ok key)
    (hheld : reader.ty rawHeld = .ok held) : reader.mapType args = .ok (.mapOf key held) := by
  cases gives <;> simp only [Reader.mapType, Reader.mapType.ofPair, hkey, hheld] <;> rfl

theorem parameterized_container {container : Ty} (h : container.isContainer = true)
    (single : ∀ inner, raw ≠ .list inner) :
    reader.parameterized validator? container.name [raw] = reader.keyed container raw := by
  cases container with
  | map =>
    change reader.mapType [raw] = _
    cases raw <;> first | rfl | exact absurd rfl (single _)
  | keywordList => rfl
  | nonEmptyKeywordList => rfl
  | _ => cases h

end Families

/-- The reader is right about all raw values of up to the given depth. -/
structure Reader.Faithful (validator? : String → Option Validator) (reader : Reader)
    (depth : Nat) : Prop where
  ty : ∀ raw ty, raw.depth ≤ depth → Describes validator? raw ty → reader.ty raw = .ok ty
  schema : ∀ raw schema path, raw.depth ≤ depth → Writes validator? raw schema →
    reader.schema raw path = .ok schema

theorem Describes.ne_list {ty : Ty} (h : Describes validator? raw ty) (inner : List Value) :
    raw ≠ .list inner := by
  rintro rfl
  have applied : ∀ name args, ¬ Applies name args (.list inner) := by
    intro name args applies
    cases applies with
    | entry reads => cases reads
  cases h <;> first | exact applied _ _ ‹_› | contradiction

theorem Describes.ne_single_list {types : List Ty}
    (each : List.Forall₂ (Describes validator?) items types) (inner : List Value) :
    items ≠ [.list inner] := by
  rintro rfl
  cases each with
  | cons describes _ => exact describes.ne_list inner rfl

theorem Writes.identifier? {schema : Schema} (h : Writes validator? raw schema) :
    raw.identifier? = none := by
  cases h with
  | intro reads => exact reads.identifier?

theorem Nests.ne_list {nested : Nested} (h : Nests validator? raw nested) (inner : List Value) :
    raw ≠ .list inner := by
  rintro rfl
  cases h with
  | inline writes =>
    cases writes with
    | intro reads => cases reads
  | ref named => cases named

namespace Reader

variable {reader : Reader} {depth : Nat} (faithful : reader.Faithful validator? depth)

include faithful

theorem types_of_describes {types : List Ty}
    (each : List.Forall₂ (Describes validator?) items types)
    (within : ∀ item ∈ items, item.depth ≤ depth) : reader.types items = .ok types := by
  induction each with
  | nil => rfl
  | cons describes _ ih =>
    rw [List.forall_mem_cons] at within
    rw [Reader.types, faithful.ty _ _ within.1 describes, ih within.2]
    rfl

theorem types_of_gives {types : List Ty} (gives : Gives items args)
    (each : List.Forall₂ (Describes validator?) items types)
    (within : ∀ arg ∈ args, arg.depth ≤ depth) : reader.types (flatten args) = .ok types := by
  rw [flatten_of_gives gives (Describes.ne_single_list each)]
  exact types_of_describes faithful each (gives.depth_le within)

theorem keyed_of_nests {nested : Nested} (nests : Nests validator? raw nested) (container : Ty)
    (within : raw.depth ≤ depth) : reader.keyed container raw = .ok (.keyed container nested) := by
  cases nests with
  | ref named => rw [keyed, named]
  | inline writes =>
    rw [keyed, writes.identifier?, faithful.schema raw _ .root within writes]

/-- A written type is read from parts of less depth. -/
theorem descriptor_of_describes {ty : Ty} (h : Describes validator? raw ty)
    (within : raw.depth ≤ depth + 1) : reader.descriptor validator? raw = .ok ty := by
  have below : ∀ {name args}, Applies name args raw → ∀ arg ∈ args, arg.depth ≤ depth := by
    intro name args applies arg harg
    have less := applies.depth_lt arg harg
    omega
  cases h with
  | simple isSimple named => simp only [descriptor, named, isSimple]
  | mapOf applies gives describesKey describesHeld =>
    have inside := gives.depth_le (below applies)
    rw [descriptor_of_applies reader applies]
    exact mapType_of_gives reader gives (faithful.ty _ _ (inside _ (by simp)) describesKey)
      (faithful.ty _ _ (inside _ (by simp)) describesHeld)
  | func applies count =>
    exact (descriptor_of_applies reader applies).trans (funType_of_count count)
  | values applies => exact descriptor_of_applies reader applies
  | range applies => exact (descriptor_of_applies reader applies).trans (readRange_text _ _)
  | custom applies gives named registered =>
    exact (descriptor_of_applies reader applies).trans (customType_of_gives gives named registered)
  | rebound applies gives named registered some =>
    rw [descriptor_of_applies reader applies]
    refine (customType_of_gives gives named registered).trans ?_
    rw [List.isEmpty_eq_false_iff.mpr some]
    rfl
  | union applies gives each =>
    rw [descriptor_of_applies reader applies]
    change (reader.types (flatten _)).map Ty.union = _
    rw [types_of_gives faithful gives each (below applies)]
    rfl
  | listOf applies describes =>
    have item := faithful.ty _ _ (below applies _ List.mem_cons_self) describes
    rw [descriptor_of_applies reader applies]
    change (reader.ty _).map Ty.listOf = _
    rw [item]
    rfl
  | tuple applies gives each =>
    rw [descriptor_of_applies reader applies]
    change (reader.types (flatten _)).map Ty.tuple = _
    rw [types_of_gives faithful gives each (below applies)]
    rfl
  | @struct _ rawTag tag applies named =>
    rw [descriptor_of_applies reader applies]
    change structType [rawTag] = _
    rw [structType, named]
  | @keyed _ rawNested container nested isContainer applies nests =>
    rw [descriptor_of_applies reader applies,
      parameterized_container reader isContainer nests.ne_list]
    exact keyed_of_nests faithful nests container (below applies _ List.mem_cons_self)

end Reader

section Attributes

variable {attrs : List (String × Value)} {spec : KeySpec} {reader : Reader} {ty : Ty}

def IsKeys (value : Value) : Prop :=
  value.identifier?.isSome = true ∨ value.isKeywordList = true

theorem Nests.isKeys {nested : Nested} (h : Nests validator? raw nested) : IsKeys raw := by
  cases h with
  | ref named => exact .inl (Option.isSome_of_eq_some named)
  | inline writes =>
    cases writes with
    | intro reads => exact .inr (Option.isSome_of_eq_some (Value.reads_iff.mp reads))

theorem IsKeys.output {value : Value} (h : IsKeys value) {onward : Onward} :
    (Ty.union [.string, .atom, .keywordList, .map]).output onward value = some value := by
  refine Ty.output_union_of_admits (by simp [Ty.isPlain]) ?_
  rcases h with named | reads
  · cases value with
    | string s => exact ⟨.string, by simp, rfl⟩
    | atom s => exact ⟨.atom, by simp, rfl⟩
    | _ => cases named
  · exact ⟨.keywordList, by simp, reads⟩

theorem filled?_of_default {name : String} {spec : KeySpec} {default : Value}
    (h : spec.default = some default) :
    KeySpec.filled? attrs (name, spec) = some ((attrs.lookup name).getD default) := by
  rw [KeySpec.filled?, h]
  cases attrs.lookup name <;> rfl

theorem filled?_of_alone {name : String} {spec : KeySpec} (h : spec.default = none) :
    KeySpec.filled? attrs (name, spec) = attrs.lookup name := by
  rw [KeySpec.filled?, h, Option.or_none]

theorem Annotates.echoed (annotates : Annotates attrs spec)
    (typed : reader.ty (rawType attrs) = .ok ty)
    (keys : ∀ rawNested, attrs.lookup "keys" = some rawNested → IsKeys rawNested)
    {onward : Onward} : ∀ entry ∈ (keySpecSchema reader.ty).keys, ∀ value,
      KeySpec.filled? attrs entry = some value → entry.2.output onward value = some value := by
  have text : ∀ {value : Value} {written : Option String}, written.map Value.string = some value →
      Ty.string.output onward value = some value := by
    intro value written hwritten
    obtain ⟨s, -, rfl⟩ := Option.map_eq_some_iff.mp hwritten
    rfl
  intro entry hentry value hfilled
  simp only [keySpecSchema, List.mem_cons, List.not_mem_nil, or_false] at hentry
  rcases hentry with rfl | rfl | rfl | rfl | rfl | rfl | rfl | rfl
  all_goals refine (KeySpec.output_of_alone rfl).trans ?_
  · rw [filled?_of_default rfl] at hfilled
    obtain rfl : rawType attrs = value := Option.some.inj hfilled
    refine Ty.output_custom_eq_some.mpr ?_
    simp only [Validator.call, typeDescriptor, typed]
  · rw [filled?_of_default rfl, annotates.required] at hfilled
    obtain rfl := Option.some.inj hfilled
    rfl
  · rfl
  · rw [filled?_of_alone rfl] at hfilled
    exact (keys value hfilled).output
  · rw [filled?_of_alone rfl, annotates.deprecated] at hfilled
    exact text hfilled
  · rw [filled?_of_alone rfl] at hfilled
    refine Ty.output_union_of_admits (by simp [Ty.isPlain]) ?_
    rcases annotates.doc with hdoc | ⟨hdoc, -⟩
    · obtain ⟨s, -, rfl⟩ := Option.map_eq_some_iff.mp (hdoc.symm.trans hfilled)
      exact ⟨.string, by simp, rfl⟩
    · obtain rfl := Option.some.inj (hdoc.symm.trans hfilled)
      exact ⟨.choice (.values [.bool false]), by simp, rfl⟩
  · rw [filled?_of_alone rfl, annotates.subsection] at hfilled
    exact text hfilled
  · rw [filled?_of_alone rfl, annotates.typeDoc] at hfilled
    exact text hfilled

/-- What the attributes say of the key, once their defaults are filled in. -/
structure Fills (attrs : List (String × Value)) (spec : KeySpec) (filled : Value) : Prop where
  type : filled.find? "type" = some (rawType attrs)
  keys : filled.find? "keys" = attrs.lookup "keys"
  spec : ∀ ty nested, attributeSpec filled ty nested = { spec with ty, nested }

theorem Annotates.fills {filled : Value} (annotates : Annotates attrs spec)
    (lookups : ∀ entry ∈ (keySpecSchema reader.ty).keys,
      filled.find? entry.1 = KeySpec.filled? attrs entry) : Fills attrs spec filled := by
  simp only [keySpecSchema, List.forall_mem_cons] at lookups
  obtain ⟨type, required, default, keys, deprecated, doc, subsection, typeDoc, -⟩ := lookups
  rw [filled?_of_default rfl, annotates.required] at required
  rw [filled?_of_alone rfl, annotates.default] at default
  rw [filled?_of_alone rfl, annotates.deprecated] at deprecated
  rw [filled?_of_alone rfl] at doc
  rw [filled?_of_alone rfl, annotates.subsection] at subsection
  rw [filled?_of_alone rfl, annotates.typeDoc] at typeDoc
  have name : ∀ written : Option String,
      (written.map Value.string).bind Value.identifier? = written := by
    rintro (_ | written) <;> rfl
  have hrequired : (some (Value.bool spec.required) == some (.bool true)) = spec.required := by
    cases spec.required <;> rfl
  have hdoc : (attrs.lookup "doc").bind Value.identifier? = spec.doc := by
    rcases annotates.doc with hdoc | ⟨hdoc, none⟩
    · rw [hdoc, name]
    · rw [hdoc, none]
      rfl
  refine ⟨type.trans (filled?_of_default rfl), keys.trans (filled?_of_alone rfl), ?_⟩
  intro ty nested
  simp only [attributeSpec, attributeName?, required, default, deprecated, doc, subsection, typeDoc,
    name, hrequired, hdoc]

theorem attributes_of_echoed (reads : raw.Reads attrs)
    (names : ∀ name ∈ Entries.names attrs, name ∈ attributeNames)
    (echoed : ∀ entry ∈ (keySpecSchema reader.ty).keys, ∀ value,
      KeySpec.filled? attrs entry = some value →
        ∀ onward : Onward, entry.2.output onward value = some value) :
    ∃ filled, attributes reader raw = .ok filled ∧
      ∀ entry ∈ (keySpecSchema reader.ty).keys,
        filled.find? entry.1 = KeySpec.filled? attrs entry := by
  have once : (keySpecSchema reader.ty).names.Nodup := show attributeNames.Nodup by decide
  have declared : ∀ name ∈ Entries.names attrs,
      ((keySpecSchema reader.ty).find? name).isSome = true := by
    intro name hname
    obtain ⟨own, hown⟩ := Entries.exists_lookup
      (show name ∈ Entries.names (keySpecSchema reader.ty).keys from names name hname)
    exact Option.isSome_of_eq_some hown
  obtain ⟨output, houtput, nodup, lookups⟩ := Schema.outputEntries_of_echoed once rfl declared
    (by simp [keySpecSchema]) fun entry hentry value hfilled => echoed entry hentry value hfilled _
  obtain ⟨filled, hfilled, reads⟩ := Schema.outputMapping_of_reads reads houtput nodup
  have result := Schema.result?_validate (fun _ => .empty) (keySpecSchema reader.ty) raw .new
  rw [Schema.output, hfilled] at result
  exact ⟨filled, Run.result?_eq_some.mp result, fun entry hentry =>
    (reads.find? entry.1).trans (lookups entry hentry)⟩

theorem attributes_of_annotates (reads : raw.Reads attrs) (annotates : Annotates attrs spec)
    (typed : reader.ty (rawType attrs) = .ok ty)
    (keys : ∀ rawNested, attrs.lookup "keys" = some rawNested → IsKeys rawNested) :
    ∃ filled, attributes reader raw = .ok filled ∧ Fills attrs spec filled := by
  obtain ⟨filled, hattrs, lookups⟩ := attributes_of_echoed reads annotates.names
    fun entry hentry value hfilled _ => annotates.echoed typed keys entry hentry value hfilled
  exact ⟨filled, hattrs, annotates.fills lookups⟩

theorem depth_rawType (reads : raw.Reads attrs) : (rawType attrs).depth ≤ raw.depth := by
  rw [rawType]
  cases hty : attrs.lookup "type" with
  | none => exact Value.depth_pos raw
  | some rawTy => exact Nat.le_of_lt (reads.depth_lt (Entries.mem_of_lookup hty))

theorem liftKeyed_of_unkeyed (h : ty.isKeyed = false) : liftKeyed ty = (ty, none) := by
  cases ty <;> first | rfl | cases h

theorem spec_of_nested {nested : Option Nested} (h : spec.nested = nested) :
    ({ spec with ty := spec.ty, nested } : KeySpec) = spec := by
  subst h
  cases spec
  rfl

/-- Without the attribute `keys` the type says all there is of the nested schema. -/
theorem Reader.keySpec_of_alone (reads : raw.Reads attrs) (annotates : Annotates attrs spec)
    (typed : reader.ty (rawType attrs) = .ok ty) (lifted : liftKeyed ty = (spec.ty, spec.nested))
    (alone : attrs.lookup "keys" = none) (path : Path) : reader.keySpec raw path = .ok spec := by
  obtain ⟨filled, hattrs, fills⟩ := attributes_of_annotates reads annotates typed (by simp [alone])
  rw [keySpec, hattrs]
  simp only [attributeType, fills.type, typed, bind, Except.bind, lifted, fills.keys, alone,
    fills.spec]
  exact congrArg Except.ok (spec_of_nested rfl)

/-- With the attribute `keys`, the nested schema is read from there. -/
theorem Reader.keySpec_of_given {depth : Nat} (faithful : reader.Faithful validator? depth)
    {rawNested : Value} {nested : Nested} (reads : raw.Reads attrs)
    (annotates : Annotates attrs spec) (typed : reader.ty (rawType attrs) = .ok spec.ty)
    (unkeyed : spec.ty.isKeyed = false) (given : attrs.lookup "keys" = some rawNested)
    (nests : Nests validator? rawNested nested) (hnested : spec.nested = some nested)
    (within : raw.depth ≤ depth) (path : Path) : reader.keySpec raw path = .ok spec := by
  obtain ⟨filled, hattrs, fills⟩ := attributes_of_annotates reads annotates typed
    fun other hother => Option.some.inj (given.symm.trans hother) ▸ nests.isKeys
  have below : rawNested.depth ≤ depth :=
    Nat.le_trans (Nat.le_of_lt (reads.depth_lt (Entries.mem_of_lookup given))) within
  rw [keySpec, hattrs]
  simp only [attributeType, fills.type, typed, bind, Except.bind, liftKeyed_of_unkeyed unkeyed,
    fills.keys, given, fills.spec]
  cases nests with
  | ref named =>
    simp only [named]
    exact congrArg Except.ok (spec_of_nested hnested)
  | inline writes =>
    simp only [writes.identifier?, faithful.schema rawNested _ path below writes]
    exact congrArg Except.ok (spec_of_nested hnested)

/-- A written key specification is read with a reader that is right about what is in it. -/
theorem Reader.keySpec_of_specifies {depth : Nat} (faithful : reader.Faithful validator? depth)
    (h : Specifies validator? raw spec) (within : raw.depth ≤ depth) (path : Path) :
    reader.keySpec raw path = .ok spec := by
  cases h with
  | @beside _ attrs _ reads annotates describes unkeyed nests =>
    have typed := faithful.ty _ _ (Nat.le_trans (depth_rawType reads) within) describes
    generalize hkeys : attrs.lookup "keys" = keys at nests
    generalize hnested : spec.nested = nested at nests
    cases nests with
    | none =>
      have lifted : liftKeyed spec.ty = (spec.ty, spec.nested) :=
        hnested ▸ liftKeyed_of_unkeyed unkeyed
      exact keySpec_of_alone reads annotates typed lifted hkeys path
    | some nests =>
      exact keySpec_of_given faithful reads annotates typed unkeyed hkeys nests hnested within path
  | @inside _ _ _ nested reads annotates describes hnested alone =>
    have typed := faithful.ty _ _ (Nat.le_trans (depth_rawType reads) within) describes
    have lifted : liftKeyed (.keyed spec.ty nested) = (spec.ty, spec.nested) := by
      rw [hnested]
      rfl
    exact keySpec_of_alone reads annotates typed lifted alone path

end Attributes

section Schemas

variable {reader : Reader} {depth : Nat} {entries : List (String × Value)}
  {keys : List (String × KeySpec)} {schema : Schema}

theorem names_of_named {R : Value → KeySpec → Prop} (each : List.Forall₂ (Named R) entries keys) :
    Entries.names entries = Entries.names keys :=
  Entries.names_eq_of_forall₂ <| each.imp fun _ _ named => by
    cases named
    rfl

theorem readEntries_of_specify (faithful : reader.Faithful validator? depth)
    (each : List.Forall₂ (Named (Specifies validator?)) entries keys)
    (within : ∀ entry ∈ entries, entry.2.depth ≤ depth) (path : Path) :
    readEntries (fun name spec => reader.keySpec spec (path.pushKey name)) entries = .ok keys := by
  induction each with
  | nil => rfl
  | cons named _ ih =>
    rw [List.forall_mem_cons] at within
    cases named with
    | intro specifies =>
      rw [readEntries, reader.keySpec_of_specifies faithful specifies within.1, ih within.2]

theorem Reader.keys_of_writes (faithful : reader.Faithful validator? depth)
    (h : Writes validator? raw schema) (within : raw.depth ≤ depth + 1) (path : Path) :
    reader.keys raw path = .ok schema := by
  cases h with
  | @intro _ entries _ reads once each =>
    have below : ∀ entry ∈ entries, entry.2.depth ≤ depth := fun entry hentry =>
      Nat.le_of_lt_succ (Nat.lt_of_lt_of_le (reads.depth_lt hentry) within)
    have names : (Entries.names schema.keys).Nodup := names_of_named each ▸ once
    rw [keys, Value.reads_iff.mp reads]
    change (readEntries _ _).map Schema.ofList = _
    rw [readEntries_of_specify faithful each below]
    change Except.ok (Schema.ofList schema.keys) = _
    rw [Schema.ofList, Entries.ofList_of_nodup names]
    cases schema
    rfl

/-- Each reader is right about the raw values of its depth. -/
theorem Reader.faithful_ofDepth (validator? : String → Option Validator) (depth : Nat) :
    (Reader.ofDepth validator? depth).Faithful validator? depth := by
  induction depth with
  | zero =>
    exact ⟨fun raw _ within => absurd within (Nat.not_le.mpr raw.depth_pos),
      fun raw _ _ within => absurd within (Nat.not_le.mpr raw.depth_pos)⟩
  | succ depth ih =>
    exact ⟨fun _ _ within describes => descriptor_of_describes ih describes within,
      fun _ _ path within writes => keys_of_writes ih writes within path⟩

theorem readSchema_of_writes (h : Writes validator? raw schema) :
    readSchema validator? raw = .ok schema :=
  (Reader.faithful_ofDepth validator? raw.depth).schema raw schema .root (Nat.le_refl _) h

theorem compile_of_writes (producers : Producers) (h : Writes validator? raw schema) :
    compile producers validator? raw = schema.compile producers := by
  rw [compile, readSchema_of_writes h]
  rfl

end Schemas

end Raw

end OptionSchema
