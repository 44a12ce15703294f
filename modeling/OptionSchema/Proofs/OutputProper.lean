import OptionSchema.Proofs.Output
import OptionSchema.Proofs.Schema.Expansion
/-!
# Outputs are proper

Validation does not break what insertion ensures: no mapping in an output holds a key twice.
-/
namespace OptionSchema

def KeepsProper (f : Value → Option Value) : Prop :=
  ∀ value w, value.Proper → f value = some w → w.Proper

variable {onward : Onward}

namespace Ty

theorem output_proper {ty : Ty} (proper : ∀ sub ∈ ty.subterms, sub.IsProper)
    (nested : ∀ container nested, .keyed container nested ∈ ty.subterms →
      KeepsProper (onward nested)) :
    KeepsProper (ty.output onward) := by
  intro value w hvalue h
  induction ty using parts_induction generalizing value w with
  | step ty ih =>
    have part : ∀ sub ∈ ty.parts, KeepsProper (sub.output onward) := fun sub hsub =>
      ih sub hsub (fun inner h => proper inner (subterms_of_part hsub h))
        (fun container nested' h => nested container nested' (subterms_of_part hsub h))
    by_cases plain : ty.isPlain = true
    · obtain ⟨-, rfl⟩ := (output_plain_eq_some plain).mp h
      exact hvalue
    cases ty with
    | mapOf keyTy valueTy =>
      obtain ⟨pairs, results, rfl, rfl, items⟩ := output_mapOf_eq_some h
      refine Value.mapOf_proper (Entries.forall_ofList fun result hresult => ?_)
      obtain ⟨pair, hpair, hkey, hheld⟩ := (Rearranged.of_forall₂ items).back hresult
      have hparts := Value.mem_parts_map hpair
      exact ⟨part keyTy (by simp [parts]) pair.1 _ (hvalue.part hparts.1) hkey,
        part valueTy (by simp [parts]) pair.2 _ (hvalue.part hparts.2) hheld⟩
    | custom validator =>
      exact (proper _ (self_mem_subterms _)).2 value w hvalue (output_custom_eq_some.mp h)
    | union alternatives =>
      obtain ⟨before, ty, after, rfl, hty, -⟩ := output_union_eq_some h
      exact part ty (by simp [parts]) value w hvalue hty
    | listOf item =>
      obtain ⟨items, results, rfl, rfl, each⟩ := output_listOf_eq_some h
      rw [Value.proper_list]
      intro result hresult
      obtain ⟨element, helement, hout⟩ := (Rearranged.of_forall₂ each).back hresult
      exact part item (by simp [parts]) element result (hvalue.part helement) hout
    | tuple types =>
      obtain ⟨items, results, rfl, rfl, -, each⟩ := output_tuple_eq_some h
      rw [Value.proper_tuple]
      intro result hresult
      obtain ⟨pair, hpair, hout⟩ := (Rearranged.of_forall₂ each).back hresult
      obtain ⟨hty, hitem⟩ := List.of_mem_zip hpair
      exact part pair.1 hty pair.2 result (hvalue.part hitem) hout
    | keyed container nested' =>
      obtain ⟨matched, hmatched, hnested⟩ := Option.bind_eq_some_iff.mp h
      refine nested container nested' (self_mem_subterms _) matched w ?_ hnested
      exact part container (by simp [parts]) value matched hvalue hmatched
    | _ => exact absurd rfl plain

end Ty

theorem KeySpec.output_proper {spec : KeySpec} (ty : KeepsProper (spec.ty.output onward))
    (nested : ∀ nested, spec.nested = some nested → KeepsProper (onward nested)) :
    KeepsProper (spec.output onward) := by
  intro value w hvalue h
  obtain ⟨matched, hmatched, hnext⟩ := Option.bind_eq_some_iff.mp h
  have hproper := ty value matched hvalue hmatched
  cases hnested : spec.nested with
  | none =>
    rw [hnested] at hnext
    exact Option.some.inj hnext ▸ hproper
  | some inner =>
    rw [hnested] at hnext
    exact nested inner hnested matched w hproper hnext

namespace KeySpec

variable {input : List (String × Value)} {name : String} {spec : KeySpec}

/-- A key contributes under its own name what its specification returns for the candidate. -/
theorem contribution_eq_some {given : Option (String × Value)}
    (h : contribution onward input (name, spec) = some given) :
    (candidate? input name spec = some none ∧ given = none) ∨
      ∃ value w, candidate? input name spec = some (some value) ∧
        spec.output onward value = some w ∧ given = some (name, w) := by
  obtain ⟨candidate, hcandidate, h⟩ := Option.bind_eq_some_iff.mp h
  cases candidate with
  | none => exact Or.inl ⟨hcandidate, (Option.some.inj h).symm⟩
  | some value =>
    obtain ⟨w, hw, hgiven⟩ := Option.map_eq_some_iff.mp h
    exact Or.inr ⟨value, w, hcandidate, hw, hgiven.symm⟩

theorem candidate?_of_lookup {value : Value} (h : input.lookup name = some value) :
    candidate? input name spec = some (some value) := by
  rw [candidate?, h]

theorem candidate?_of_absent (h : name ∉ Entries.names input) :
    candidate? input name spec = if spec.required then none else some spec.default := by
  rw [candidate?, Entries.lookup_eq_none.mpr h]

theorem candidate?_eq_some {value : Value} (h : candidate? input name spec = some (some value)) :
    (name, value) ∈ input ∨ (name ∉ Entries.names input ∧ spec.default = some value) := by
  by_cases hname : name ∈ Entries.names input
  · obtain ⟨given, hgiven⟩ := Entries.exists_lookup hname
    rw [candidate?, hgiven] at h
    obtain rfl := Option.some.inj (Option.some.inj h)
    exact Or.inl (Entries.mem_of_lookup hgiven)
  · rw [candidate?_of_absent hname] at h
    split at h
    · cases h
    · exact Or.inr ⟨hname, Option.some.inj h⟩

theorem candidate?_proper {value : Value} (hinput : ∀ entry ∈ input, entry.2.Proper)
    (hdefault : ∀ value ∈ spec.default, value.Proper)
    (h : candidate? input name spec = some (some value)) : value.Proper := by
  rcases candidate?_eq_some h with hgiven | ⟨-, hvalue⟩
  · exact hinput (name, value) hgiven
  · exact hdefault value hvalue

theorem candidate?_eq_none (h : candidate? input name spec = some none) :
    name ∉ Entries.names input ∧ spec.required = false ∧ spec.default = none := by
  by_cases hname : name ∈ Entries.names input
  · obtain ⟨given, hgiven⟩ := Entries.exists_lookup hname
    rw [candidate?, hgiven] at h
    cases h
  · rw [candidate?_of_absent hname] at h
    split at h
    · cases h
    · rename_i hrequired
      exact ⟨hname, by simpa using hrequired, Option.some.inj h⟩

end KeySpec

namespace Schema

variable {schema : Schema} {input output : List (String × Value)}

/-- What a level returned: every given name has a specification, and the output is made of what the
keys contribute. -/
theorem outputEntries_eq_some (once : schema.names.Nodup) :
    schema.outputEntries onward input = some output ↔
      (∀ name ∈ Entries.names input, (schema.specFor? name).isSome) ∧
      ∃ given, (schema.expand (Entries.names input)).keys.mapM (KeySpec.contribution onward input) =
        some given ∧ output = given.filterMap id := by
  rw [outputEntries, ← undeclared_expand_eq_nil once]
  by_cases declared : (schema.expand (Entries.names input)).undeclared (Entries.names input) = []
  · rw [if_pos declared, Option.map_eq_some_iff]
    constructor
    · rintro ⟨given, hgiven, rfl⟩
      exact ⟨declared, given, hgiven, rfl⟩
    · rintro ⟨-, given, hgiven, rfl⟩
      exact ⟨given, hgiven, rfl⟩
  · rw [if_neg declared]
    exact iff_of_false (fun h => by cases h) fun h => declared h.1

theorem outputEntries_of_walkEntries {producers : Producers} {levels : Nat} {ctx : Context}
    (returned : (schema.walkEntries (Nested.enterWithin producers levels) input ctx).outcome =
      .ok output) :
    schema.outputEntries (Nested.output (ctx.resolver producers) levels) input = some output := by
  rw [← result?_walkEntries (Nested.returns_enterWithin producers ctx levels) schema input ctx rfl]
  exact Run.result?_eq_some.mpr returned

theorem names_contributions_sublist {keys : List (String × KeySpec)}
    {given : List (Option (String × Value))}
    (h : keys.mapM (KeySpec.contribution onward input) = some given) :
    (Entries.names (given.filterMap id)).Sublist (Entries.names keys) := by
  have each := mapM_eq_some_iff.mp h
  clear h
  induction each with
  | nil => exact .slnil
  | @cons key contributed keys given hkey _ ih =>
    rcases KeySpec.contribution_eq_some hkey with ⟨-, rfl⟩ | ⟨value, w, -, -, rfl⟩
    · exact ih.cons _
    · exact ih.cons_cons _

theorem nodup_names_output (once : schema.names.Nodup)
    (h : schema.outputEntries onward input = some output) : (Entries.names output).Nodup := by
  obtain ⟨-, given, hgiven, rfl⟩ := (outputEntries_eq_some once).mp h
  exact (names_contributions_sublist hgiven).nodup (nodup_names_expand once _)

/-- Every entry of the output comes from a key of the expanded schema. -/
theorem source_of_output (once : schema.names.Nodup)
    (h : schema.outputEntries onward input = some output) {name : String} {w : Value}
    (hmem : (name, w) ∈ output) :
    ∃ spec value, (name, spec) ∈ (schema.expand (Entries.names input)).keys ∧
      KeySpec.candidate? input name spec = some (some value) ∧
        spec.output onward value = some w := by
  obtain ⟨-, given, hgiven, rfl⟩ := (outputEntries_eq_some once).mp h
  obtain ⟨contributed, hcontributed, rfl⟩ := List.mem_filterMap.mp hmem
  obtain ⟨⟨key, spec⟩, hkey, hsome⟩ :=
    (Rearranged.of_forall₂ (mapM_eq_some_iff.mp hgiven)).back hcontributed
  rcases KeySpec.contribution_eq_some hsome with ⟨-, hnone⟩ | ⟨value, w', hcandidate, hout, heq⟩
  · cases hnone
  · obtain ⟨rfl, rfl⟩ := Prod.mk.inj (Option.some.inj heq)
    exact ⟨spec, value, hkey, hcandidate, hout⟩

theorem output_of_candidate (once : schema.names.Nodup)
    (h : schema.outputEntries onward input = some output) {name : String} {spec : KeySpec}
    {value : Value} (hmem : (name, spec) ∈ (schema.expand (Entries.names input)).keys)
    (hcandidate : KeySpec.candidate? input name spec = some (some value)) :
    ∃ w, (name, w) ∈ output ∧ spec.output onward value = some w := by
  obtain ⟨-, given, hgiven, rfl⟩ := (outputEntries_eq_some once).mp h
  obtain ⟨contributed, hcontributed, hsome⟩ :=
    (Rearranged.of_forall₂ (mapM_eq_some_iff.mp hgiven)).forth hmem
  rcases KeySpec.contribution_eq_some hsome with ⟨hnone, -⟩ | ⟨value', w, hsame, hout, rfl⟩
  · cases hcandidate.symm.trans hnone
  · obtain rfl := Option.some.inj (Option.some.inj (hcandidate.symm.trans hsame))
    exact ⟨w, List.mem_filterMap.mpr ⟨_, hcontributed, rfl⟩, hout⟩

/-- A level keeps the kind of a mapping, and its entries read as those it returned. -/
theorem outputMapping_eq_some (once : schema.names.Nodup) {value w : Value}
    (h : schema.outputMapping onward value = some w) :
    ∃ input output, value.entries? = some input ∧ w.entries? = some output ∧
      schema.outputEntries onward input = some output ∧
      ((value = .keywords input ∧ w = .keywords output) ∨
        ∃ pairs, value = .map pairs ∧ w = .map (restoreKeys pairs output)) := by
  cases value with
  | keywords input =>
    obtain ⟨output, houtput, rfl⟩ := Option.map_eq_some_iff.mp h
    exact ⟨input, output, rfl, rfl, houtput, Or.inl ⟨rfl, rfl⟩⟩
  | map pairs =>
    obtain ⟨input, hinput, h⟩ := Option.bind_eq_some_iff.mp h
    obtain ⟨output, houtput, rfl⟩ := Option.map_eq_some_iff.mp h
    refine ⟨input, output, hinput, ?_, houtput, Or.inr ⟨pairs, rfl, rfl⟩⟩
    exact namedEntries?_restoreKeys (nodup_names_output once houtput)
  | _ => cases h

section Proper

variable (proper : schema.Proper)
  (nested : ∀ nested, schema.Mentions nested → KeepsProper (onward nested))

include proper nested

theorem outputEntries_proper (hinput : ∀ entry ∈ input, entry.2.Proper)
    (h : schema.outputEntries onward input = some output) : ∀ entry ∈ output, entry.2.Proper := by
  intro entry hentry
  obtain ⟨spec, value, hmem, hcandidate, hout⟩ := source_of_output proper.names h hentry
  obtain ⟨own, hown⟩ := mem_of_mem_expand hmem
  have keeps : KeepsProper (spec.output onward) := by
    refine KeySpec.output_proper (Ty.output_proper ?_ ?_) ?_
    · intro sub hsub
      exact proper.types sub (mem_types hown hsub)
    · intro container inner hsub
      exact nested inner (.type (mem_types hown hsub))
    · intro inner hinner
      exact nested inner (.key hown hinner)
  refine keeps value entry.2 ?_ hout
  exact KeySpec.candidate?_proper hinput (proper.defaults _ hown) hcandidate

theorem outputMapping_proper : KeepsProper (schema.outputMapping onward) := by
  intro value w hvalue h
  obtain ⟨input, output, hread, -, houtput, kind⟩ := outputMapping_eq_some proper.names h
  have parts := outputEntries_proper proper nested (Value.entries?_proper hvalue hread) houtput
  have once := nodup_names_output proper.names houtput
  rcases kind with ⟨rfl, rfl⟩ | ⟨pairs, rfl, rfl⟩
  · rw [Value.proper_keywords]
    exact ⟨once, parts⟩
  · rw [Value.proper_map]
    refine ⟨distinct_restoreKeys once, fun pair hpair => ?_⟩
    obtain ⟨entry, hentry, rfl⟩ := List.mem_map.mp hpair
    exact ⟨restoredKey_proper pairs entry.1, parts entry hentry⟩

theorem outputNested_proper : KeepsProper (schema.outputNested onward) := by
  intro value w hvalue h
  have whole := outputMapping_proper proper nested value w hvalue
  cases value with
  | list items =>
    obtain ⟨results, hresults, rfl⟩ := Option.map_eq_some_iff.mp h
    rw [Value.proper_list]
    intro result hresult
    obtain ⟨item, hitem, hout⟩ :=
      (Rearranged.of_forall₂ (mapM_eq_some_iff.mp hresults)).back hresult
    exact outputMapping_proper proper nested item result (hvalue.part hitem) hout
  | _ => exact whole h

end Proper

end Schema

theorem Nested.output_proper {resolve : Resolver} (levels : Nat) {nested : Nested}
    (every : ∀ schema, resolve nested = some schema → schema.EveryLevel resolve Schema.Proper) :
    KeepsProper (Nested.output resolve levels nested) := by
  induction levels generalizing nested with
  | zero => exact fun _ _ _ h => nomatch h
  | succ levels ih =>
    intro value w hvalue h
    obtain ⟨schema, hresolve, h⟩ := Option.bind_eq_some_iff.mp h
    have below := every schema hresolve
    exact Schema.outputNested_proper below.self
      (fun inner mention => ih fun next resolved => below.nested mention resolved) value w hvalue h

end OptionSchema
