import OptionSchema.Proofs.Acceptance
import OptionSchema.Proofs.Schema.Likeness
/-!
# Schemas that accept no less

Where nested schemas stand on containers only, what is nested gets the given value, so whether a
value is accepted grows with what its nested schemas accept. A default matters only where it takes
the place of an absent key.
-/
namespace OptionSchema

def Onward.Covers (R : Nested → Nested → Prop) (onward onward' : Onward) : Prop :=
  ∀ nested nested' value, R nested nested' → (onward nested value).isSome →
    (onward' nested' value).isSome

/-- The other specification asks the same of a value that is given, and accepts its own default. -/
structure KeySpec.WidensTo (R : Nested → Nested → Prop) (onward' : Onward) (spec other : KeySpec) :
    Prop extends spec.SameShape R other where
  required : spec.required = other.required
  default : ∀ value, other.default = some value → (other.output onward' value).isSome

variable {R : Nested → Nested → Prop} {onward onward' : Onward}

theorem Ty.SameUpTo.isSome_output (covers : onward.Covers R onward') {ty ty' : Ty}
    (h : ty.SameUpTo R ty')
    (containers : ∀ container nested, .keyed container nested ∈ ty.subterms →
      container.isContainer = true) {value : Value}
    (accepted : (ty.output onward value).isSome) : (ty'.output onward' value).isSome := by
  induction ty using parts_induction generalizing ty' value with
  | step ty ih =>
    have part : ∀ sub ∈ ty.parts, ∀ sub', sub.SameUpTo R sub' → ∀ value,
        (sub.output onward value).isSome → (sub'.output onward' value).isSome :=
      fun sub hsub sub' hsame value => ih sub hsub hsame
        fun container nested hmem => containers container nested (subterms_of_part hsub hmem)
    cases h with
    | plain plain =>
      rw [output_of_isPlain plain] at accepted ⊢
      exact accepted
    | custom validator => exact accepted
    | @mapOf key key' held held' hkey hheld =>
      obtain ⟨pairs, rfl, each⟩ := isSome_output_mapOf_iff.mp accepted
      refine isSome_output_mapOf_iff.mpr ⟨pairs, rfl, fun pair hpair => ?_⟩
      have both := each pair hpair
      exact ⟨part key (by simp [parts]) key' hkey pair.1 both.1,
        part held (by simp [parts]) held' hheld pair.2 both.2⟩
    | @union as bs items =>
      rw [output, outputAny_eq_findSome?, List.findSome?_isSome_iff] at accepted ⊢
      obtain ⟨ty, hty, accepted⟩ := accepted
      have attached := forall₂_imp_mem items fun sub hsub sub' _ hsame => part sub hsub sub' hsame
      obtain ⟨ty', hty', widens⟩ := (Rearranged.of_forall₂ attached).forth hty
      exact ⟨ty', hty', widens value accepted⟩
    | @listOf item item' hitem =>
      obtain ⟨items, rfl, each⟩ := isSome_output_listOf_iff.mp accepted
      refine isSome_output_listOf_iff.mpr ⟨items, rfl, fun element helement => ?_⟩
      exact part item (by simp [parts]) item' hitem element (each element helement)
    | @tuple as bs types =>
      obtain ⟨items, rfl, each⟩ := isSome_output_tuple_iff.mp accepted
      have attached := forall₂_imp_mem types fun sub hsub sub' _ hsame => part sub hsub sub' hsame
      refine isSome_output_tuple_iff.mpr ⟨items, rfl, ?_⟩
      exact forall₂_trans attached.flip each fun _ _ _ _ item _ widens => widens item
    | @keyed container container' nested nested' hcontainer hnested =>
      have plain := isPlain_of_isContainer (containers container nested (self_mem_subterms _))
      obtain rfl := hcontainer.eq_of_isPlain plain
      rw [isSome_output_keyed_iff plain] at accepted ⊢
      exact ⟨accepted.1, covers nested nested' value hnested accepted.2⟩

theorem KeySpec.isSome_contribution_iff {input : List (String × Value)}
    {entry : String × KeySpec} :
    (contribution onward input entry).isSome ↔
      ∃ candidate, candidate? input entry.1 entry.2 = some candidate ∧
        ∀ value, candidate = some value → (entry.2.output onward value).isSome := by
  rw [contribution]
  cases candidate? input entry.1 entry.2 with
  | none => simp
  | some candidate => cases candidate <;> simp

structure KeySpec.WellKeyed (spec : KeySpec) : Prop where
  keyed : ∀ container nested, .keyed container nested ∈ spec.ty.subterms →
    container.isContainer = true
  keys : spec.nested.isSome → spec.ty.acceptsKeys = true

theorem Schema.WellKeyed.spec {schema : Schema} (h : schema.WellKeyed) {own : String}
    {spec : KeySpec} (hentry : (own, spec) ∈ schema.keys) : spec.WellKeyed :=
  ⟨fun container nested hsub => h.keyed container nested (Schema.mem_types hentry hsub),
    h.keys (own, spec) hentry⟩

namespace KeySpec.SameShape

variable {spec other : KeySpec}

theorem wellKeyed (h : spec.SameShape R other) (keyed : spec.WellKeyed) : other.WellKeyed := by
  constructor
  · intro container' nested' hsub'
    obtain ⟨sub, hsub, same⟩ := h.ty.exists_subterm hsub'
    cases same with
    | plain plain => cases plain
    | keyed hcontainer _ =>
      rw [← hcontainer.isContainer_eq]
      exact keyed.keyed _ _ hsub
  · rw [← h.ty.acceptsKeys_eq, ← isSome_eq_of_rel h.nested]
    exact keyed.keys

theorem isSome_output (covers : onward.Covers R onward') (h : spec.SameShape R other)
    (keyed : spec.WellKeyed) {value : Value} (accepted : (spec.output onward value).isSome) :
    (other.output onward' value).isSome := by
  rw [KeySpec.isSome_output keyed.keys] at accepted
  rw [KeySpec.isSome_output (h.wellKeyed keyed).keys]
  refine ⟨h.ty.isSome_output covers keyed.keyed accepted.1, fun nested' hnested' => ?_⟩
  have hnested := h.nested
  rw [hnested'] at hnested
  generalize own : spec.nested = nested at hnested
  cases hnested with
  | some hnested => exact covers _ nested' value hnested (accepted.2 _ own)

end KeySpec.SameShape

theorem KeySpec.WidensTo.isSome_contribution {spec other : KeySpec}
    (covers : onward.Covers R onward') (h : spec.WidensTo R onward' other)
    (keyed : spec.WellKeyed) {input : List (String × Value)} {name : String}
    (contributes : (contribution onward input (name, spec)).isSome) :
    (contribution onward' input (name, other)).isSome := by
  have accepted : ∀ value, (spec.output onward value).isSome →
      (other.output onward' value).isSome := fun _ => h.toSameShape.isSome_output covers keyed
  rw [isSome_contribution_iff] at contributes ⊢
  obtain ⟨candidate, hcandidate, outputs⟩ := contributes
  rw [candidate?] at hcandidate ⊢
  cases hlookup : input.lookup name with
  | some value =>
    rw [hlookup] at hcandidate
    cases hcandidate
    refine ⟨some value, rfl, fun given hgiven => accepted given (outputs given hgiven)⟩
  | none =>
    rw [hlookup] at hcandidate
    cases hrequired : spec.required with
    | true => rw [hrequired] at hcandidate; cases hcandidate
    | false =>
      rw [hrequired] at hcandidate
      cases hcandidate
      rw [← h.required, hrequired]
      exact ⟨other.default, rfl, h.default⟩

namespace Schema

variable {schema other : Schema}

theorem WellKeyed.of_keywise (h : schema.Keywise (KeySpec.SameShape R) other)
    (keyed : schema.WellKeyed) : other.WellKeyed := by
  have each : ∀ entry' ∈ other.keys, entry'.2.WellKeyed := fun entry' hentry' => by
    obtain ⟨entry, hentry, -, same⟩ := (Rearranged.of_forall₂ h).back hentry'
    exact same.wellKeyed (keyed.spec hentry)
  constructor
  · intro container nested hmem
    obtain ⟨entry', hentry', hsub⟩ := List.mem_flatMap.mp hmem
    exact (each entry' hentry').keyed container nested hsub
  · exact fun entry' hentry' => (each entry' hentry').keys

theorem isSome_outputEntries_of_keywise (covers : onward.Covers R onward')
    (h : schema.Keywise (KeySpec.WidensTo R onward') other) (keyed : schema.WellKeyed)
    {input : List (String × Value)} (accepted : (schema.outputEntries onward input).isSome) :
    (other.outputEntries onward' input).isSome := by
  have expanded := h.expand (Entries.names input)
  rw [isSome_outputEntries] at accepted ⊢
  obtain ⟨declared, contributes⟩ := accepted
  refine ⟨(expanded.undeclared_eq _).symm.trans declared, fun entry' hentry' => ?_⟩
  obtain ⟨⟨name, spec⟩, hentry, hname, widens⟩ := (Rearranged.of_forall₂ expanded).back hentry'
  obtain ⟨name', spec'⟩ := entry'
  obtain rfl : name = name' := hname
  obtain ⟨own, hown⟩ := mem_of_mem_expand hentry
  exact widens.isSome_contribution covers (keyed.spec hown) (contributes _ hentry)

theorem isSome_outputMapping_of_entries (entries : ∀ input,
      (schema.outputEntries onward input).isSome → (other.outputEntries onward' input).isSome)
    {value : Value} (accepted : (schema.outputMapping onward value).isSome) :
    (other.outputMapping onward' value).isSome := by
  cases value with
  | keywords input =>
    rw [outputMapping, Option.isSome_map] at accepted ⊢
    exact entries input accepted
  | map pairs =>
    rw [outputMapping] at accepted ⊢
    cases hread : Value.namedEntries? pairs with
    | none => rw [hread] at accepted; cases accepted
    | some input =>
      rw [hread, Option.bind_some, Option.isSome_map] at accepted
      rw [Option.bind_some, Option.isSome_map]
      exact entries input accepted
  | _ => cases accepted

theorem isSome_outputNested_of_mapping (mapping : ∀ value,
      (schema.outputMapping onward value).isSome → (other.outputMapping onward' value).isSome)
    {value : Value} (accepted : (schema.outputNested onward value).isSome) :
    (other.outputNested onward' value).isSome := by
  have whole := mapping value
  cases value with
  | list items =>
    rw [outputNested, Option.isSome_map, isSome_mapM_iff] at accepted ⊢
    exact fun item hitem => mapping item (accepted item hitem)
  | _ => exact whole accepted

theorem isSome_outputMapping_of_keywise (covers : onward.Covers R onward')
    (h : schema.Keywise (KeySpec.WidensTo R onward') other) (keyed : schema.WellKeyed)
    {value : Value} (accepted : (schema.outputMapping onward value).isSome) :
    (other.outputMapping onward' value).isSome :=
  isSome_outputMapping_of_entries (fun _ => isSome_outputEntries_of_keywise covers h keyed) accepted

theorem isSome_outputNested_of_keywise (covers : onward.Covers R onward')
    (h : schema.Keywise (KeySpec.WidensTo R onward') other) (keyed : schema.WellKeyed)
    {value : Value} (accepted : (schema.outputNested onward value).isSome) :
    (other.outputNested onward' value).isSome :=
  isSome_outputNested_of_mapping (fun _ => isSome_outputMapping_of_keywise covers h keyed) accepted

/-- A level accepts no less where its nested schemas do, whatever becomes of its defaults. -/
theorem isSome_outputMapping_of_mentions (keyed : schema.WellKeyed)
    (covers : ∀ nested, schema.Mentions nested →
      ∀ value, (onward nested value).isSome → (onward' nested value).isSome)
    {value : Value} (accepted : (schema.outputMapping onward value).isSome) :
    (schema.outputMapping onward' value).isSome := by
  have mentioned : onward.Covers (fun nested other => schema.Mentions nested ∧ nested = other)
      onward' := by
    rintro nested nested' value ⟨mention, rfl⟩
    exact covers nested mention value
  refine isSome_outputMapping_of_entries (fun input entries => ?_) accepted
  rw [isSome_outputEntries] at entries ⊢
  refine ⟨entries.1, fun entry hentry => ?_⟩
  obtain ⟨own, hown⟩ := mem_of_mem_expand hentry
  have same : entry.2.SameShape (fun nested other => schema.Mentions nested ∧ nested = other)
      entry.2 := sameShape_of_mentions (fun _ mention => ⟨mention, rfl⟩) hown
  obtain ⟨candidate, hcandidate, outputs⟩ := KeySpec.isSome_contribution_iff.mp
    (entries.2 entry hentry)
  refine KeySpec.isSome_contribution_iff.mpr ⟨candidate, hcandidate, fun value hvalue => ?_⟩
  exact same.isSome_output mentioned (keyed.spec hown) (outputs value hvalue)

end Schema

end OptionSchema
