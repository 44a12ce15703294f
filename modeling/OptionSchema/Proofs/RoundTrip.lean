import OptionSchema.Proofs.Repetition
import OptionSchema.Proofs.Schema.Checked
/-!
# Validating an output again

The output of a level has the names of the input and of the defaults that were added, so a second
pass expands the wildcard for the same keys and finds the first output under each of them.
-/
namespace OptionSchema

variable {onward : Onward}

namespace Schema

variable {schema : Schema} {input output : List (String × Value)}

theorem names_subset_output (once : schema.names.Nodup)
    (h : schema.outputEntries onward input = some output) {name : String}
    (hname : name ∈ Entries.names input) : name ∈ Entries.names output := by
  obtain ⟨spec, hspec⟩ :=
    Option.isSome_iff_exists.mp (((outputEntries_eq_some once).mp h).1 name hname)
  obtain ⟨value, hvalue⟩ := Entries.exists_lookup hname
  obtain ⟨w, hw, -⟩ := output_of_candidate once h ((mem_expand_of_observed once hname).mpr hspec)
    (KeySpec.candidate?_of_lookup hvalue)
  exact Entries.mem_names hw

/-- What is new in the output is named, so the wildcard stands for the same keys on both passes. -/
theorem mem_expand_output (once : schema.names.Nodup)
    (h : schema.outputEntries onward input = some output) {name : String} {spec : KeySpec} :
    (name, spec) ∈ (schema.expand (Entries.names output)).keys ↔
      (name, spec) ∈ (schema.expand (Entries.names input)).keys := by
  by_cases hin : name ∈ Entries.names input
  · rw [mem_expand_of_observed once hin,
      mem_expand_of_observed once (names_subset_output once h hin)]
  · by_cases hout : name ∈ Entries.names output
    · obtain ⟨w, hw⟩ := Entries.exists_lookup hout
      obtain ⟨own, value, hmem, -⟩ := source_of_output once h (Entries.mem_of_lookup hw)
      obtain ⟨hne, hfind⟩ := (mem_expand_of_absent once hin).mp hmem
      rw [mem_expand_of_observed once hout, mem_expand_of_absent once hin,
        specFor?_of_find? hfind, hfind]
      simp [hne]
    · rw [mem_expand_of_absent once hin, mem_expand_of_absent once hout]

/-- On its own output, a key contributes again what it has contributed. -/
theorem contribution_repeats (once : schema.names.Nodup)
    (repeats : ∀ own spec, (own, spec) ∈ schema.keys → Repeats (spec.output onward))
    (defaults : ∀ entry ∈ schema.keys, ∀ value ∈ entry.2.default, value.Proper)
    (hinput : ∀ entry ∈ input, entry.2.Proper)
    (h : schema.outputEntries onward input = some output) {key : String × KeySpec}
    (hkey : key ∈ (schema.expand (Entries.names input)).keys) :
    Option.Rel (Option.Rel Value.EntriesEqual) (KeySpec.contribution onward output key)
      (KeySpec.contribution onward input key) := by
  obtain ⟨name, spec⟩ := key
  obtain ⟨own, hown⟩ := mem_of_mem_expand hkey
  obtain ⟨-, given, hgiven, -⟩ := (outputEntries_eq_some once).mp h
  obtain ⟨contributed, -, hsome⟩ :=
    (Rearranged.of_forall₂ (mapM_eq_some_iff.mp hgiven)).forth hkey
  rw [hsome]
  rcases KeySpec.contribution_eq_some hsome with ⟨hcandidate, rfl⟩ | ⟨value, w, hcandidate, hw, rfl⟩
  · have habsent : name ∉ Entries.names output := by
      intro hname
      obtain ⟨w, hw⟩ := Entries.exists_lookup hname
      obtain ⟨other, value, hother, hvalue, -⟩ := source_of_output once h (Entries.mem_of_lookup hw)
      have nodup := nodup_names_expand once (Entries.names input)
      have same : some other = some spec :=
        (Entries.lookup_of_mem nodup hother).symm.trans (Entries.lookup_of_mem nodup hkey)
      rw [Option.some.inj same, hcandidate] at hvalue
      cases hvalue
    obtain ⟨-, hoptional, hdefault⟩ := KeySpec.candidate?_eq_none hcandidate
    rw [KeySpec.contribution, KeySpec.candidate?_of_absent habsent, hoptional, hdefault]
    exact .some .none
  · have hproper := KeySpec.candidate?_proper hinput (defaults _ hown) hcandidate
    obtain ⟨w', hmem, hw'⟩ := output_of_candidate once h hkey hcandidate
    obtain rfl := Option.some.inj (hw.symm.trans hw')
    obtain ⟨again, hagain, heq⟩ := repeats own spec hown w ⟨value, hproper, hw⟩
    have hlookup := Entries.lookup_of_mem (nodup_names_output once h) hmem
    rw [KeySpec.contribution, KeySpec.candidate?_of_lookup hlookup]
    simp only [Option.bind_some, hagain, Option.map_some]
    exact .some (.some ⟨rfl, heq⟩)

theorem outputEntries_repeats (once : schema.names.Nodup)
    (repeats : ∀ own spec, (own, spec) ∈ schema.keys → Repeats (spec.output onward))
    (defaults : ∀ entry ∈ schema.keys, ∀ value ∈ entry.2.default, value.Proper)
    (hinput : ∀ entry ∈ input, entry.2.Proper)
    (h : schema.outputEntries onward input = some output) :
    ∃ again, schema.outputEntries onward output = some again ∧
      Rearranged Value.EntriesEqual again output := by
  have same : ∀ key, key ∈ (schema.expand (Entries.names output)).keys ↔
      key ∈ (schema.expand (Entries.names input)).keys := fun _ => mem_expand_output once h
  have keys : Rearranged Eq (schema.expand (Entries.names output)).keys
      (schema.expand (Entries.names input)).keys := by
    refine Entries.rearranged_of_names (nodup_names_expand once _) (nodup_names_expand once _)
      ?_ ?_ ?_
    · exact fun a _ b _ heq => congrArg Prod.fst heq
    · exact fun a ha => ⟨a, (same a).mp ha, rfl⟩
    · exact fun b hb => ⟨b, (same b).mpr hb, rfl⟩
  have each : ∀ a ∈ (schema.expand (Entries.names output)).keys,
      ∀ b ∈ (schema.expand (Entries.names input)).keys, a = b →
        Option.Rel (Option.Rel Value.EntriesEqual) (KeySpec.contribution onward output a)
          (KeySpec.contribution onward input b) := by
    rintro a ha b hb rfl
    exact contribution_repeats once repeats defaults hinput h hb
  have contributions := keys.mapM_rel each
  obtain ⟨-, given, hgiven, rfl⟩ := (outputEntries_eq_some once).mp h
  have declared : ∀ name ∈ Entries.names (given.filterMap id), (schema.specFor? name).isSome := by
    intro name hname
    obtain ⟨w, hw⟩ := Entries.exists_lookup hname
    obtain ⟨spec, value, hmem, -⟩ := source_of_output once h (Entries.mem_of_lookup hw)
    have hspec := (mem_expand_of_observed once hname).mp ((same (name, spec)).mpr hmem)
    rw [hspec]
    rfl
  rw [hgiven] at contributions
  cases hagain : (schema.expand (Entries.names (given.filterMap id))).keys.mapM
      (KeySpec.contribution onward (given.filterMap id)) with
  | none => rw [hagain] at contributions; cases contributions
  | some given' =>
    rw [hagain] at contributions
    cases contributions with
    | some items =>
      refine ⟨given'.filterMap id, (outputEntries_eq_some once).mpr ?_, items.filterMap_id⟩
      exact ⟨declared, given', hagain, rfl⟩

theorem restoreKeys_restoreKeys {pairs : List (Value × Value)} {again : List (String × Value)}
    (nodup : (Entries.names output).Nodup) (h : Rearranged Value.EntriesEqual again output) :
    Rearranged Value.PairsEqual (restoreKeys (restoreKeys pairs output) again)
      (restoreKeys pairs output) := by
  refine h.map fun a _ b hb heq => ⟨?_, heq.2⟩
  have hmem : (restoredKey pairs b.1, b.2) ∈ restoreKeys pairs output :=
    mem_restoreKeys.mpr ⟨b.1, hb, rfl⟩
  have same := restoredKey_of_mem (namedEntries?_restoreKeys nodup) hmem
    (identifier?_restoredKey pairs b.1)
  change (restoredKey (restoreKeys pairs output) a.1 == restoredKey pairs b.1) = true
  rw [heq.1, same]
  exact (restoredKey_proper pairs b.1).beq_refl

theorem outputMapping_repeats (once : schema.names.Nodup)
    (repeats : ∀ own spec, (own, spec) ∈ schema.keys → Repeats (spec.output onward))
    (defaults : ∀ entry ∈ schema.keys, ∀ value ∈ entry.2.default, value.Proper)
    (keeps : KeepsProper (schema.outputMapping onward)) :
    Repeats (schema.outputMapping onward) := by
  rintro w ⟨value, hvalue, h⟩
  have hw := keeps value w hvalue h
  obtain ⟨input, output, hread, -, houtput, hkind⟩ := outputMapping_eq_some once h
  have hinput : ∀ entry ∈ input, entry.2.Proper := Value.entries?_proper hvalue hread
  obtain ⟨again, hagain, items⟩ := outputEntries_repeats once repeats defaults hinput houtput
  have nodup := nodup_names_output once houtput
  rcases hkind with ⟨rfl, rfl⟩ | ⟨pairs, rfl, rfl⟩
  · have hsecond : schema.outputMapping onward (.keywords output) = some (.keywords again) := by
      rw [outputMapping, hagain, Option.map_some]
    exact ⟨_, hsecond, ((keeps _ _ hw hsecond).beq_iff hw).mpr (.keywords items)⟩
  · have hsecond : schema.outputMapping onward (.map (restoreKeys pairs output)) =
        some (.map (restoreKeys (restoreKeys pairs output) again)) := by
      rw [outputMapping, namedEntries?_restoreKeys nodup, Option.bind_some, hagain, Option.map_some]
    refine ⟨_, hsecond, ((keeps _ _ hw hsecond).beq_iff hw).mpr (.map ?_)⟩
    exact restoreKeys_restoreKeys nodup items

theorem admits_output (once : schema.names.Nodup) {container : Ty} {value w : Value}
    (h : container.isContainer = true) (hadmits : container.admits value = true)
    (hout : schema.outputMapping onward value = some w) : container.admits w = true := by
  obtain ⟨input, output, hread, hread', houtput, hkind⟩ := outputMapping_eq_some once hout
  cases container with
  | keywordList => simp [Ty.admits, Value.isKeywordList, hread']
  | nonEmptyKeywordList =>
    have hinput : input ≠ [] := by simpa [Ty.admits, hread] using hadmits
    obtain ⟨entry, hentry⟩ := List.exists_mem_of_ne_nil input hinput
    have hname := names_subset_output once houtput (Entries.mem_names hentry)
    have houtput : output ≠ [] := by
      rintro rfl
      cases hname
    simpa [Ty.admits, hread'] using houtput
  | map =>
    rcases hkind with ⟨rfl, rfl⟩ | ⟨pairs, rfl, rfl⟩
    · cases hadmits
    · rfl
  | _ => cases h

theorem isSome_output_container (once : schema.names.Nodup) {inner : Onward} {container : Ty}
    {value w : Value} (h : container.isContainer = true)
    (hsome : (container.output inner value).isSome)
    (hout : schema.outputMapping onward value = some w) : (container.output inner w).isSome := by
  have plain := Ty.isPlain_of_isContainer h
  obtain ⟨matched, hmatched⟩ := Option.isSome_iff_exists.mp hsome
  have hadmits := ((Ty.output_plain_eq_some plain).mp hmatched).1
  refine Option.isSome_iff_exists.mpr ⟨w, (Ty.output_plain_eq_some plain).mpr ⟨?_, rfl⟩⟩
  exact admits_output once h hadmits hout

theorem isSome_output_outputNested (once : schema.names.Nodup) {inner : Onward} {ty : Ty}
    {value w : Value} (h : ty.acceptsKeys = true) (hsome : (ty.output inner value).isSome)
    (hout : schema.outputNested onward value = some w) : (ty.output inner w).isSome := by
  have one : ∀ {container : Ty}, container.isContainer = true →
      (container.output inner value).isSome → (container.output inner w).isSome := by
    intro container hcontainer hsome
    have whole : schema.outputMapping onward value = some w → (container.output inner w).isSome :=
      isSome_output_container once hcontainer hsome
    cases value with
    | list items =>
      cases container <;> first
        | exact absurd hcontainer Bool.false_ne_true
        | exact absurd hsome Bool.false_ne_true
    | _ => exact whole hout
  cases ty with
  | listOf item =>
    cases value with
    | list items =>
      obtain ⟨results, hresults, rfl⟩ := Option.map_eq_some_iff.mp hout
      rw [Ty.output, Option.isSome_map, isSome_mapM_iff] at hsome ⊢
      intro result hresult
      obtain ⟨element, helement, hr⟩ :=
        (Rearranged.of_forall₂ (mapM_eq_some_iff.mp hresults)).back hresult
      exact isSome_output_container once h (hsome element helement) hr
    | _ => cases hsome
  | union alternatives =>
    rw [Ty.output, Ty.outputAny_eq_findSome?, List.findSome?_isSome_iff] at hsome ⊢
    obtain ⟨container, hmem, hsome⟩ := hsome
    have hcontainer := List.all_eq_true.mp (Bool.and_eq_true_iff.mp h).2 container hmem
    exact ⟨container, hmem, one hcontainer hsome⟩
  | _ => exact one h hsome

/-- A walked mapping is no list, so it is entered as a whole again. -/
theorem outputNested_of_outputMapping {value w : Value}
    (h : schema.outputMapping onward value = some w) :
    schema.outputNested onward w = schema.outputMapping onward w := by
  cases value with
  | keywords input =>
    obtain ⟨output, -, rfl⟩ := Option.map_eq_some_iff.mp h
    rfl
  | map pairs =>
    obtain ⟨input, -, h⟩ := Option.bind_eq_some_iff.mp h
    obtain ⟨output, -, rfl⟩ := Option.map_eq_some_iff.mp h
    rfl
  | _ => cases h

theorem outputNested_repeats (h : Repeats (schema.outputMapping onward)) :
    Repeats (schema.outputNested onward) := by
  rintro w ⟨value, hvalue, hout⟩
  have whole : schema.outputMapping onward value = some w →
      ∃ again, schema.outputNested onward w = some again ∧ (again == w) = true := by
    intro hmapping
    rw [outputNested_of_outputMapping hmapping]
    exact h w ⟨value, hvalue, hmapping⟩
  cases value with
  | list items =>
    obtain ⟨results, hresults, rfl⟩ := Option.map_eq_some_iff.mp hout
    have again : ∀ result ∈ results, ∃ again, schema.outputMapping onward result = some again ∧
        (again == result) = true := by
      intro result hresult
      obtain ⟨item, hitem, hr⟩ :=
        (Rearranged.of_forall₂ (mapM_eq_some_iff.mp hresults)).back hresult
      exact h result ⟨item, hvalue.part hitem, hr⟩
    obtain ⟨agains, hagains, equal⟩ := exists_mapM again
    exact ⟨.list agains, by rw [outputNested, hagains]; rfl, Value.beqAll_iff.mpr equal⟩
  | _ => exact whole hout

def Settles (onward : Onward) (schema : Schema) : Prop :=
  ∀ alternatives, .union alternatives ∈ schema.types → Ty.Settled onward alternatives

/-- Each type of the level, taken by itself, repeats itself. -/
def TypesRepeat (onward : Onward) (schema : Schema) : Prop :=
  ∀ ty ∈ schema.types, Repeats (ty.output onward)

/-- The property holds of all levels that validation can enter, each with the levels that are left
there. -/
def Within (resolve : Resolver) (P : Onward → Schema → Prop) : Nat → Schema → Prop
  | 0, schema => P (Nested.output resolve 0) schema
  | levels + 1, schema => P (Nested.output resolve (levels + 1)) schema ∧
      ∀ nested next, schema.Mentions nested → resolve nested = some next →
        Within resolve P levels next

section Within

variable {resolve : Resolver} {P : Onward → Schema → Prop} {levels : Nat}

theorem Within.self (h : schema.Within resolve P levels) :
    P (Nested.output resolve levels) schema := by
  cases levels with
  | zero => exact h
  | succ levels => exact h.1

theorem Within.nested {nested : Nested} {next : Schema} (h : schema.Within resolve P levels)
    (mention : schema.Mentions nested) (resolved : resolve nested = some next)
    (hne : levels ≠ 0) : next.Within resolve P (levels - 1) := by
  cases levels with
  | zero => exact absurd rfl hne
  | succ levels => exact h.2 nested next mention resolved

end Within

structure Sound (schema : Schema) : Prop where
  proper : schema.Proper
  keyed : schema.WellKeyed
  idempotent : ∀ validator, .custom validator ∈ schema.types → validator.Idempotent

theorem TypesRepeat.settles (repeats : schema.TypesRepeat onward) : schema.Settles onward := by
  intro alternatives hunion
  obtain ⟨entry, hentry, hsub⟩ := List.mem_flatMap.mp hunion
  refine (Ty.repeats_union_iff fun ty hty => repeats ty ?_).mp (repeats _ hunion)
  have hpart : ty ∈ (Ty.union alternatives).parts := hty
  have hinner := Ty.subterms_of_part hpart (Ty.self_mem_subterms ty)
  exact mem_types hentry (Ty.subterms_trans hsub hinner)

section Level

variable (sound : schema.Sound)
  (nested : ∀ nested, schema.Mentions nested → Lasting (onward nested))

include sound nested

theorem Settles.typesRepeat (settles : schema.Settles onward) : schema.TypesRepeat onward := by
  intro ty hty
  obtain ⟨entry, hentry, hty⟩ := List.mem_flatMap.mp hty
  have types : ∀ {sub}, sub ∈ ty.subterms → sub ∈ schema.types := fun hsub =>
    mem_types hentry (Ty.subterms_trans hty hsub)
  refine Ty.output_repeats ?_ ?_ ?_ ?_
  · intro sub hsub
    exact sound.proper.types sub (types hsub)
  · intro container inner hsub
    exact ⟨sound.keyed.keyed container inner (types hsub),
      nested inner (.type (types hsub))⟩
  · intro validator hsub
    exact sound.idempotent validator (types hsub)
  · intro alternatives hsub
    exact settles alternatives (types hsub)

theorem TypesRepeat.outputMapping_repeats (repeats : schema.TypesRepeat onward) :
    Repeats (schema.outputMapping onward) := by
  refine Schema.outputMapping_repeats sound.proper.names (fun own spec hmem => ?_)
    sound.proper.defaults
    (outputMapping_proper sound.proper fun inner mention => (nested inner mention).proper)
  have ty := repeats spec.ty (mem_types hmem (Ty.self_mem_subterms spec.ty))
  exact KeySpec.output_repeats ty (sound.keyed.keys _ hmem) fun inner hnested =>
    nested inner (.key hmem hnested)

end Level

end Schema

theorem Nested.lasting_output {resolve : Resolver} (levels : Nat) {nested : Nested}
    (every : ∀ schema, resolve nested = some schema → schema.EveryLevel resolve Schema.Sound)
    (settles : ∀ schema, resolve nested = some schema → levels ≠ 0 →
      schema.Within resolve Schema.Settles (levels - 1)) :
    Lasting (Nested.output resolve levels nested) := by
  induction levels generalizing nested with
  | zero =>
    refine ⟨?_, (fun _ _ _ h => nomatch h), (fun _ _ _ _ _ _ h => nomatch h)⟩
    rintro w ⟨value, -, h⟩
    cases h
  | succ levels ih =>
    cases hresolve : resolve nested with
    | none =>
      have hnone : ∀ value, Nested.output resolve (levels + 1) nested value = none := by
        intro value
        rw [Nested.output, hresolve, Option.bind_none]
      refine ⟨?_, fun value w _ h => ?_, fun _ _ value w _ _ h => ?_⟩
      · rintro w ⟨value, -, h⟩
        cases (hnone value).symm.trans h
      · cases (hnone value).symm.trans h
      · cases (hnone value).symm.trans h
    | some schema =>
      have hsome : Nested.output resolve (levels + 1) nested =
          schema.outputNested (Nested.output resolve levels) := funext fun value => by
        rw [Nested.output, hresolve, Option.bind_some]
      have here := every schema hresolve
      have stays := settles schema hresolve (Nat.succ_ne_zero levels)
      rw [Nat.add_sub_cancel] at stays
      have below : ∀ inner, schema.Mentions inner →
          Lasting (Nested.output resolve levels inner) := by
        intro inner mention
        refine ih (fun next resolved => here.nested mention resolved) fun next resolved hne => ?_
        exact stays.nested mention resolved hne
      have repeats := (stays.self.typesRepeat here.self below).outputMapping_repeats here.self below
      have proper := here.self.proper
      rw [hsome]
      exact ⟨Schema.outputNested_repeats repeats,
        Schema.outputNested_proper proper fun inner mention => (below inner mention).proper,
        fun _ _ _ _ h hin hout => Schema.isSome_output_outputNested proper.names h hin hout⟩

section Levels

variable {resolve : Resolver} {schema : Schema} {levels : Nat}

theorem Schema.lasting_mentions (every : schema.EveryLevel resolve Schema.Sound)
    (settles : schema.Within resolve Schema.Settles levels) {nested : Nested}
    (mention : schema.Mentions nested) : Lasting (Nested.output resolve levels nested) :=
  Nested.lasting_output levels (fun _ resolved => every.nested mention resolved)
    fun _ resolved hne => settles.nested mention resolved hne

theorem Schema.output_repeats (every : schema.EveryLevel resolve Schema.Sound)
    (settles : schema.Within resolve Schema.Settles levels) :
    Repeats (schema.output resolve levels) := by
  have below : ∀ nested, schema.Mentions nested → Lasting (Nested.output resolve levels nested) :=
    fun _ => lasting_mentions every settles
  exact (settles.self.typesRepeat every.self below).outputMapping_repeats every.self below

/-- Nothing but unsettled unions keeps types from repeating themselves. -/
theorem Schema.settles_iff_typesRepeat (every : schema.EveryLevel resolve Schema.Sound) :
    schema.Within resolve Schema.Settles levels ↔ schema.Within resolve TypesRepeat levels := by
  induction levels generalizing schema with
  | zero =>
    refine ⟨fun settles => ?_, TypesRepeat.settles⟩
    exact settles.self.typesRepeat every.self fun _ => lasting_mentions every settles
  | succ levels ih =>
    have below : ∀ nested next, schema.Mentions nested → resolve nested = some next →
        (next.Within resolve Schema.Settles levels ↔ next.Within resolve TypesRepeat levels) :=
      fun nested next mention resolved => ih (every.nested mention resolved)
    constructor
    · intro settles
      refine ⟨settles.self.typesRepeat every.self fun _ => lasting_mentions every settles, ?_⟩
      exact fun nested next mention resolved =>
        (below nested next mention resolved).mp (settles.2 nested next mention resolved)
    · intro repeats
      refine ⟨repeats.1.settles, fun nested next mention resolved => ?_⟩
      exact (below nested next mention resolved).mpr (repeats.2 nested next mention resolved)

end Levels

/-- With idempotent validators, the types of all levels repeat themselves exactly when the unions
are settled. Then validating what validation returned returns an equal value, in every context. -/
theorem validate_repeats (producers : Producers) (schema : Schema) (ctx : Context)
    (levels : schema.EveryLevel (ctx.resolver producers) Schema.Proper)
    (passes : schema.EveryLevel (ctx.resolver producers) (·.Passes producers))
    (idempotent : schema.EveryLevel (ctx.resolver producers) fun level =>
      ∀ validator, .custom validator ∈ level.types → validator.Idempotent) :
    (schema.Within (ctx.resolver producers) Schema.Settles ctx.remaining ↔
      schema.Within (ctx.resolver producers) Schema.TypesRepeat ctx.remaining) ∧
    (schema.Within (ctx.resolver producers) Schema.Settles ctx.remaining →
      ∀ value output, value.Proper → (schema.validate producers value ctx).outcome = .ok output →
        ∃ again, (schema.validate producers output ctx).outcome = .ok again ∧
          (again == output) = true) := by
  have every : schema.EveryLevel (ctx.resolver producers) Schema.Sound := fun level reached =>
    ⟨levels level reached, (passes level reached).wellKeyed, idempotent level reached⟩
  refine ⟨Schema.settles_iff_typesRepeat every, fun settles value output proper h => ?_⟩
  rw [← Run.result?_eq_some, Schema.result?_validate] at h
  obtain ⟨again, hagain, heq⟩ := Schema.output_repeats every settles output ⟨value, proper, h⟩
  refine ⟨again, ?_, heq⟩
  rw [← Run.result?_eq_some, Schema.result?_validate]
  exact hagain

/-- The default that the first pass has added passes the second one. -/
theorem client_repeats :
    let output := .keywords [("retry", .keywords [("max", .integer 3)])]
    ∃ again, (Schema.clientSchema.validate (fun _ => .empty) output { maxDepth := 1 }).outcome =
      .ok again ∧ (again == output) = true := by
  have inline : ∀ schema, Context.resolver { maxDepth := 1 } (fun _ => .empty) (.inline schema) =
      some schema := fun _ => rfl
  have idempotent : Schema.clientSchema.EveryLevel
      (Context.resolver { maxDepth := 1 } fun _ => .empty) fun level =>
        ∀ validator, .custom validator ∈ level.types → validator.Idempotent := by
    refine Schema.clientSchema_everyLevel inline ?_ ?_ <;>
    simp [Schema.clientSchema, Schema.retrySchema, Schema.types, Ty.subterms, Ty.subtermsOfAll]
  refine (validate_repeats (fun _ => .empty) Schema.clientSchema { maxDepth := 1 }
    (Schema.clientSchema_proper inline) (Schema.clientSchema_passes inline) idempotent).2 ?_
    (.keywords [("retry", .keywords [])]) _ (by simp [Entries.names]) rfl
  refine ⟨fun alternatives h => ?_, fun nested next mention resolved => ?_⟩
  · have heq : alternatives = [.integer, .string] := by
      simpa [Schema.clientSchema, Schema.types, Ty.subterms, Ty.subtermsOfAll] using h
    rw [heq]
    exact Ty.settled_of_echoes (by simp [Ty.Echoes, Ty.subterms])
  · rw [Schema.clientSchema_mentions mention, inline] at resolved
    rw [← Option.some.inj resolved]
    intro alternatives h
    simp [Schema.retrySchema, Schema.types, Ty.subterms] at h

section Fork

def strictSchema : Schema :=
  ⟨[("b", { ty := .any, required := true }), ("c", { ty := .any, default := some (.integer 1) })]⟩

def lenientSchema : Schema := ⟨[("b", { ty := .any, default := some (.integer 0) })]⟩

def forkSchema : Schema :=
  ⟨[("x", { ty := .union [.keyed .keywordList (.inline strictSchema),
    .keyed .keywordList (.inline lenientSchema)] })]⟩

theorem forkSchema_mentions {nested : Nested} (h : forkSchema.Mentions nested) :
    nested = .inline strictSchema ∨ nested = .inline lenientSchema := by
  simpa [Schema.mentions_iff, forkSchema, Schema.types, Ty.subterms, Ty.subtermsOfAll,
    exists_or] using h

theorem forkSchema_everyLevel {resolve : Resolver} {P : Schema → Prop}
    (inline : ∀ schema, resolve (.inline schema) = some schema) (fork : P forkSchema)
    (strict : P strictSchema) (lenient : P lenientSchema) : forkSchema.EveryLevel resolve P := by
  have strictLevels : strictSchema.EveryLevel resolve P := .of_mentions strict fun _ _ mention =>
    absurd mention (Schema.not_mentions_of_isPlain (by simp [strictSchema, Ty.isPlain]))
  have lenientLevels : lenientSchema.EveryLevel resolve P := .of_mentions lenient fun _ _ mention =>
    absurd mention (Schema.not_mentions_of_isPlain (by simp [lenientSchema, Ty.isPlain]))
  refine .of_mentions fork fun nested next mention resolved => ?_
  rcases forkSchema_mentions mention with rfl | rfl
  · rw [inline] at resolved
    exact Option.some.inj resolved ▸ strictLevels
  · rw [inline] at resolved
    exact Option.some.inj resolved ▸ lenientLevels

set_option maxRecDepth 4000 in
/-- On the second pass the strict schema matches and adds a default more. -/
theorem second_pass_differs : ¬ ∀ (producers : Producers) (schema : Schema) (value : Value)
    (ctx : Context), value.Proper → schema.EveryLevel (ctx.resolver producers) Schema.Proper →
      schema.EveryLevel (ctx.resolver producers) (·.Passes producers) →
      schema.EveryLevel (ctx.resolver producers) (fun level =>
        ∀ validator, .custom validator ∈ level.types → validator.Idempotent) →
      ∀ output, (schema.validate producers value ctx).outcome = .ok output →
        ∃ again, (schema.validate producers output ctx).outcome = .ok again ∧
          (again == output) = true := by
  intro claim
  have inline : ∀ schema, Context.resolver {} (fun _ => .empty) (.inline schema) = some schema :=
    fun _ => rfl
  have levels : forkSchema.EveryLevel (Context.resolver {} fun _ => .empty) Schema.Proper := by
    refine forkSchema_everyLevel inline ⟨by decide, ?_, ?_⟩ ⟨by decide, ?_, ?_⟩
      ⟨by decide, ?_, ?_⟩ <;>
    simp [forkSchema, strictSchema, lenientSchema, Schema.types, Ty.subterms, Ty.subtermsOfAll,
      Ty.IsProper]
  have idempotent : forkSchema.EveryLevel (Context.resolver {} fun _ => .empty) fun level =>
      ∀ validator, .custom validator ∈ level.types → validator.Idempotent := by
    refine forkSchema_everyLevel inline ?_ ?_ ?_ <;>
    simp [forkSchema, strictSchema, lenientSchema, Schema.types, Ty.subterms, Ty.subtermsOfAll]
  obtain ⟨again, hagain, heq⟩ := claim (fun _ => .empty) forkSchema
    (.keywords [("x", .keywords [])]) {} (by simp [Entries.names]) levels
    (forkSchema_everyLevel inline rfl rfl rfl) idempotent
    (.keywords [("x", .keywords [("b", .integer 0)])]) rfl
  cases hagain
  exact absurd heq (by decide)

end Fork

end OptionSchema
