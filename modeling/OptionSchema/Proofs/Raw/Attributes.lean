import OptionSchema.Proofs.Raw.Reading
/-!
# What the schema for key specifications accepts

Attributes pass exactly when no other name is among them and each one, given or by default, is as
its key says. They pass unchanged, and only the raw type among them meets the reader.
-/
namespace OptionSchema

/-- What a level of optional keys returned, when they return what they are given: each given value
or default, and all of these were accepted. -/
theorem Schema.lookup_of_outputEntries {schema : Schema} {onward : Onward}
    {input output : List (String × Value)} (once : schema.names.Nodup)
    (fixed : schema.wildcard? = none) (optional : ∀ entry ∈ schema.keys, entry.2.required = false)
    (echoes : ∀ entry ∈ schema.keys, ∀ value w, entry.2.output onward value = some w → w = value)
    (h : schema.outputEntries onward input = some output) {entry : String × KeySpec}
    (hentry : entry ∈ schema.keys) :
    output.lookup entry.1 = KeySpec.filled? input entry ∧
      ∀ value, KeySpec.filled? input entry = some value →
        entry.2.output onward value = some value := by
  have keys : (schema.expand (Entries.names input)).keys = schema.keys := by
    rw [expand_of_wildcard?_eq_none _ fixed]
  have candidate : KeySpec.candidate? input entry.1 entry.2 = some (KeySpec.filled? input entry) :=
    KeySpec.candidate?_of_optional (optional entry hentry)
  have nodup := nodup_names_output once h
  cases hfilled : KeySpec.filled? input entry with
  | some value =>
    rw [hfilled] at candidate
    obtain ⟨w, hmem, hout⟩ := output_of_candidate once h (keys ▸ hentry) candidate
    obtain rfl := echoes entry hentry value w hout
    exact ⟨Entries.lookup_of_mem nodup hmem, fun _ hvalue => Option.some.inj hvalue ▸ hout⟩
  | none =>
    refine ⟨Entries.lookup_eq_none.mpr fun hname => ?_, nofun⟩
    obtain ⟨⟨_, w⟩, hmem, rfl⟩ := List.mem_map.mp hname
    obtain ⟨spec, value, hspec, hcandidate, -⟩ := source_of_output once h hmem
    have same : spec = entry.2 := Entries.eq_of_mem once (keys ▸ hspec) hentry
    rw [same, candidate, hfilled] at hcandidate
    cases hcandidate

namespace Raw

variable {reader other : Reader} {ty : Value → Except DescriptorFault Ty} {raw : Value}
  {attrs : List (String × Value)}

/-- An attribute that passes is returned as it is, and would pass wherever it stood. -/
theorem output_of_attribute {entry : String × KeySpec} (h : entry ∈ (keySpecSchema ty).keys)
    {onward : Onward} {value w : Value} (hout : entry.2.output onward value = some w) :
    w = value ∧ ∀ onward' : Onward, entry.2.output onward' value = some value := by
  have plain : ∀ {ty : Ty}, ty.isPlain = true → ty.output onward value = some w →
      w = value ∧ ∀ onward' : Onward, ty.output onward' value = some value := by
    intro ty plain hout
    obtain ⟨admits, rfl⟩ := (Ty.output_plain_eq_some plain).mp hout
    exact ⟨rfl, fun _ => (Ty.output_plain_eq_some plain).mpr ⟨admits, rfl⟩⟩
  have union : ∀ {alternatives : List Ty}, (∀ ty ∈ alternatives, ty.isPlain = true) →
      (Ty.union alternatives).output onward value = some w →
      w = value ∧
        ∀ onward' : Onward, (Ty.union alternatives).output onward' value = some value := by
    intro alternatives all hout
    obtain ⟨before, ty, after, rfl, hty, -⟩ := Ty.output_union_eq_some hout
    have isPlain : ty.isPlain = true := all ty (by simp)
    obtain ⟨admits, rfl⟩ := (Ty.output_plain_eq_some isPlain).mp hty
    exact ⟨rfl, fun _ => Ty.output_union_of_admits all ⟨ty, by simp, admits⟩⟩
  simp only [keySpecSchema, List.mem_cons, List.not_mem_nil, or_false] at h
  rcases h with rfl | rfl | rfl | rfl | rfl | rfl | rfl | rfl
  all_goals
    rw [KeySpec.output_of_alone rfl] at hout
    simp only [KeySpec.output_of_alone]
  · simp only [Ty.output_custom_eq_some, Validator.call, typeDescriptor] at hout ⊢
    cases hty : ty value with
    | ok read =>
      rw [hty] at hout
      exact ⟨(Except.ok.inj hout).symm, fun _ => rfl⟩
    | error fault =>
      rw [hty] at hout
      cases hout
  · exact plain rfl hout
  · exact plain rfl hout
  · exact union (by simp [Ty.isPlain]) hout
  · exact plain rfl hout
  · exact union (by simp [Ty.isPlain]) hout
  · exact plain rfl hout
  · exact plain rfl hout

/-- No other name is among the attributes, and each one, given or by default, passes its key. -/
structure AttributesPass (ty : Value → Except DescriptorFault Ty) (attrs : List (String × Value)) :
    Prop where
  names : ∀ name ∈ Entries.names attrs, name ∈ attributeNames
  each : ∀ entry ∈ (keySpecSchema ty).keys, ∀ value, KeySpec.filled? attrs entry = some value →
    ∀ onward : Onward, entry.2.output onward value = some value

/-- What passes is a mapping whose attributes pass, with the defaults filled in. -/
theorem attributes_eq_ok {filled : Value} (h : attributes reader raw = .ok filled) :
    ∃ attrs, raw.Reads attrs ∧ AttributesPass reader.ty attrs ∧
      ∀ entry ∈ (keySpecSchema reader.ty).keys,
        filled.find? entry.1 = KeySpec.filled? attrs entry := by
  have result := Schema.result?_validate (fun _ => .empty) (keySpecSchema reader.ty) raw .new
  rw [Run.result?_eq_some.mpr h, Schema.output] at result
  generalize Nested.output (Context.new.resolver fun _ => .empty) Context.new.remaining = onward
    at result
  have once : (keySpecSchema reader.ty).names.Nodup := show attributeNames.Nodup by decide
  obtain ⟨attrs, output, reads, hfilled, houtput, -⟩ :=
    Schema.outputMapping_eq_some once result.symm
  have found : ∀ entry ∈ (keySpecSchema reader.ty).keys, _ := fun entry hentry =>
    Schema.lookup_of_outputEntries once rfl (by simp [keySpecSchema])
      (fun entry hentry value w hout => (output_of_attribute hentry hout).1) houtput hentry
  refine ⟨attrs, Value.reads_iff.mpr reads,
    ⟨fun name hname => ?_, fun entry hentry value hvalue => ?_⟩, fun entry hentry => ?_⟩
  · have declared := ((Schema.outputEntries_eq_some once).mp houtput).1 name hname
    obtain ⟨spec, hspec⟩ := Option.isSome_iff_exists.mp declared
    rcases Option.or_eq_some_iff.mp hspec with hspec | ⟨-, hspec⟩
    · exact Entries.mem_names (Entries.mem_of_lookup hspec)
    · cases hspec
  · exact (output_of_attribute hentry ((found entry hentry).2 value hvalue)).2
  · exact ((Value.reads_iff.mpr hfilled).find? entry.1).trans (found entry hentry).1

theorem AttributesPass.attributes (pass : AttributesPass reader.ty attrs)
    (reads : raw.Reads attrs) : ∃ filled, attributes reader raw = .ok filled ∧
      ∀ entry ∈ (keySpecSchema reader.ty).keys,
        filled.find? entry.1 = KeySpec.filled? attrs entry :=
  attributes_of_echoed reads pass.names pass.each

theorem output_of_isMapping {keys : Value} (mapping : keys.isMapping = true) {onward : Onward} :
    (Ty.union [.string, .atom, .keywordList, .map]).output onward keys = some keys := by
  refine Ty.output_union_of_admits (by simp [Ty.isPlain]) ?_
  cases keys with
  | keywords => exact ⟨.keywordList, by simp, rfl⟩
  | map => exact ⟨.map, by simp, rfl⟩
  | _ => cases mapping

/-- Attributes still pass with another mapping as the nested schema. -/
theorem AttributesPass.withKeys (pass : AttributesPass ty attrs) {attrs' : List (String × Value)}
    {keys : Value} (names : ∀ name ∈ Entries.names attrs', name ∈ attributeNames)
    (others : ∀ name, name ≠ "keys" → attrs'.lookup name = attrs.lookup name)
    (given : attrs'.lookup "keys" = some keys) (mapping : keys.isMapping = true) :
    AttributesPass ty attrs' := by
  refine ⟨names, fun entry hentry value hvalue onward => ?_⟩
  rw [KeySpec.filled?] at hvalue
  by_cases own : entry.1 = "keys"
  · rw [own, given, Option.some_or] at hvalue
    obtain rfl := Option.some.inj hvalue
    have once : (keySpecSchema ty).names.Nodup := show attributeNames.Nodup by decide
    have spec : entry.2 = { ty := .union [.string, .atom, .keywordList, .map] } :=
      Entries.eq_of_mem once (show ("keys", entry.2) ∈ _ from own ▸ hentry)
        (by simp [keySpecSchema])
    rw [spec, KeySpec.output_of_alone rfl]
    exact output_of_isMapping mapping
  · rw [others _ own] at hvalue
    exact pass.each entry hentry value hvalue onward

section Filled

variable {filled : Value} (lookups : ∀ entry ∈ (keySpecSchema ty).keys,
  filled.find? entry.1 = KeySpec.filled? attrs entry)

include lookups

theorem find?_type_of_filled : filled.find? "type" = some (rawType attrs) :=
  (lookups ("type", _) List.mem_cons_self).trans (filled?_of_default rfl)

theorem attributeType_of_filled {read : Ty} (typed : reader.ty (rawType attrs) = .ok read)
    (path : Path) : attributeType reader filled path = .ok read := by
  simp only [attributeType, find?_type_of_filled lookups, typed]

theorem find?_keys_of_filled : filled.find? "keys" = attrs.lookup "keys" :=
  (lookups ("keys", { ty := .union [.string, .atom, .keywordList, .map] })
    (by simp [keySpecSchema])).trans (filled?_of_alone rfl)

end Filled

theorem AttributesPass.typed (pass : AttributesPass ty attrs) :
    ∃ read, ty (rawType attrs) = .ok read := by
  have hout := pass.each ("type", _) List.mem_cons_self _ (filled?_of_default rfl) fun _ _ => none
  rw [KeySpec.output_of_alone rfl, Ty.output_custom_eq_some] at hout
  change (typeDescriptor ty).call (rawType attrs) = _ at hout
  simp only [Validator.call, typeDescriptor] at hout
  cases hty : ty (rawType attrs) with
  | ok read => exact ⟨read, rfl⟩
  | error fault =>
    rw [hty] at hout
    cases hout

/-- Only a string, an atom, a keyword list or a map passes as the nested schema of a key. -/
theorem AttributesPass.isMapping (pass : AttributesPass ty attrs) {keys : Value}
    (given : attrs.lookup "keys" = some keys) (unnamed : keys.identifier? = none) :
    keys.isMapping = true := by
  have hout := pass.each ("keys", { ty := .union [.string, .atom, .keywordList, .map] })
    (by simp [keySpecSchema]) keys ((filled?_of_alone rfl).trans given) fun _ _ => none
  rw [KeySpec.output_of_alone rfl] at hout
  obtain ⟨before, ty, after, hall, hty, -⟩ := Ty.output_union_eq_some hout
  have hmem : ty ∈ [Ty.string, .atom, .keywordList, .map] := hall ▸ by simp
  simp only [List.mem_cons, List.not_mem_nil, or_false] at hmem
  have admits : ty.admits keys = true := by
    rcases hmem with rfl | rfl | rfl | rfl <;> exact ((Ty.output_plain_eq_some rfl).mp hty).1
  clear hall hty hout
  cases keys with
  | keywords | map => rfl
  | string | atom => cases unnamed
  | _ => rcases hmem with rfl | rfl | rfl | rfl <;> cases admits

section Agreement

variable {enter : Enter} {input : List (String × Value)} {ctx : Context}
  {ty' : Value → Except DescriptorFault Ty}

theorem contribute_type (enter : Enter) (input : List (String × Value)) (ctx : Context)
    (ty : Value → Except DescriptorFault Ty) :
    KeySpec.contribute enter input ctx "type"
        { ty := .custom (typeDescriptor ty), default := some (.string "any") } =
      some <$> Run.ofExcept (((typeDescriptor ty).call (rawType input)).mapError fun reason =>
        .refused reason (.key "type") (rawType input)) := by
  have check : ∀ value, KeySpec.check enter
      { ty := .custom (typeDescriptor ty), default := some (.string "any") } "type" value ctx =
        Run.ofExcept (((typeDescriptor ty).call value).mapError fun reason =>
          .refused reason (.key "type") value) := fun value => bind_pure _
  rw [KeySpec.contribute, rawType]
  cases input.lookup "type" with
  | none => exact congrArg (some <$> ·) (check _)
  | some value =>
    refine (Run.succeed_bind _ _).trans ?_
    exact congrArg (some <$> ·) (check _)

theorem walkEntries_keySpecSchema_congr (agree : ty (rawType input) = ty' (rawType input)) :
    (keySpecSchema ty).walkEntries enter input ctx =
      (keySpecSchema ty').walkEntries enter input ctx := by
  have call : (typeDescriptor ty).call (rawType input) =
      (typeDescriptor ty').call (rawType input) := by
    simp only [Validator.call, typeDescriptor, agree]
  have type := contribute_type enter input ctx ty
  rw [call, ← contribute_type enter input ctx ty'] at type
  have undeclared : (keySpecSchema ty).undeclared = (keySpecSchema ty').undeclared := by
    funext names
    refine congrArg (List.filter · names) (funext fun name => ?_)
    simp only [Schema.find?, keySpecSchema, List.lookup_cons]
    cases name == "type" <;> rfl
  simp only [Schema.walkEntries]
  rw [Schema.expand_of_wildcard?_eq_none _ rfl, Schema.expand_of_wildcard?_eq_none _ rfl,
    undeclared]
  cases (keySpecSchema ty').undeclared (Entries.names input) with
  | cons => rfl
  | nil =>
    simp only [keySpecSchema, Schema.contributions]
    rw [type]

theorem attributes_congr (agree : ∀ attrs, raw.Reads attrs →
    reader.ty (rawType attrs) = other.ty (rawType attrs)) :
    attributes reader raw = attributes other raw := by
  show (Schema.walkMapping _ _ raw .new).outcome = (Schema.walkMapping _ _ raw .new).outcome
  refine congrArg Run.outcome ?_
  cases raw with
  | keywords entries =>
    exact congrArg (Value.keywords <$> ·)
      (walkEntries_keySpecSchema_congr (agree _ (.keywords entries)))
  | map pairs =>
    simp only [Schema.walkMapping]
    cases (Value.map pairs).duplicateIdentifier? with
    | some name => rfl
    | none =>
      cases hentries : (Value.map pairs).entries? with
      | none => rfl
      | some entries =>
        simp only
        rw [walkEntries_keySpecSchema_congr (agree entries (Value.reads_iff.mpr hentries))]
  | _ => rfl

end Agreement

end Raw
end OptionSchema
