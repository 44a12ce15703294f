import OptionSchema.Proofs.Schema.Levels
/-!
# Which specification a key gets

A key that is given gets its own specification or else the wildcard's; a key that is not given takes
part only if it is named.
-/
namespace OptionSchema.Schema

variable {schema : Schema} {observed : List String} {name : String} {spec : KeySpec}

def specFor? (schema : Schema) (name : String) : Option KeySpec :=
  (schema.find? name).or schema.wildcard?

theorem mem_unnamed :
    name ∈ schema.unnamed observed ↔
      name ∈ observed ∧ (name = wildcardName ∨ schema.find? name = none) := by
  simp [unnamed]

theorem find?_eq_some (once : schema.names.Nodup) :
    schema.find? name = some spec ↔ (name, spec) ∈ schema.keys := Entries.lookup_eq_some once

theorem specFor?_of_find? (h : schema.find? name = some spec) :
    schema.specFor? name = some spec := by
  rw [specFor?, h, Option.some_or]

/-- A specification for a key stands in the schema, under its own name or the wildcard's. -/
theorem mem_of_specFor? (h : schema.specFor? name = some spec) :
    ∃ own, (own, spec) ∈ schema.keys := by
  rcases Option.or_eq_some_iff.mp h with h | ⟨-, h⟩
  · exact ⟨name, Entries.mem_of_lookup h⟩
  · exact ⟨wildcardName, Entries.mem_of_lookup h⟩

/-- The keys of the expanded schema are the named ones, and the other observed names under the
wildcard. -/
theorem mem_expand_iff (once : schema.names.Nodup) :
    (name, spec) ∈ (schema.expand observed).keys ↔
      (name ≠ wildcardName ∧ schema.find? name = some spec) ∨
        (name ∈ schema.unnamed observed ∧ schema.wildcard? = some spec) := by
  cases hwild : schema.wildcard? with
  | none =>
    rw [expand_of_wildcard?_eq_none observed hwild, ← find?_eq_some once]
    constructor
    · intro h
      refine Or.inl ⟨?_, h⟩
      rintro rfl
      cases hwild.symm.trans h
    · rintro (h | ⟨-, h⟩)
      · exact h.2
      · cases h
  | some wild =>
    have hnamed : ∀ entry, entry ∈ schema.keys.filter (fun entry => entry.1 != wildcardName) ↔
        entry.1 ≠ wildcardName ∧ schema.find? entry.1 = some entry.2 := by
      intro entry
      rw [List.mem_filter, bne_iff_ne, find?_eq_some once, and_comm]
    have hothers : ∀ entry, entry ∈ (schema.unnamed observed).map (fun name => (name, wild)) ↔
        entry.1 ∈ schema.unnamed observed ∧ entry.2 = wild := by
      intro entry
      rw [List.mem_map]
      constructor
      · rintro ⟨name, hname, rfl⟩
        exact ⟨hname, rfl⟩
      · rintro ⟨hname, rfl⟩
        exact ⟨entry.1, hname, rfl⟩
    have apart : ∀ a b : String × KeySpec,
        (a.1 ≠ wildcardName ∧ schema.find? a.1 = some a.2) → b.1 ∈ schema.unnamed observed →
          a.1 ≠ b.1 := by
      rintro a b ⟨hne, hfind⟩ hb heq
      rcases (mem_unnamed.mp (heq ▸ hb)).2 with h | h
      · exact hne h
      · cases hfind.symm.trans h
    simp only [expand, hwild, ofList]
    rw [Entries.mem_ofList_iff, List.mem_append, hnamed, hothers]
    · simp [eq_comm]
    · intro a ha b hb heq
      rw [List.mem_append, hnamed, hothers] at ha hb
      rcases ha with ha | ha <;> rcases hb with hb | hb
      · exact Option.some.inj (ha.2.symm.trans (heq ▸ hb.2))
      · exact absurd heq (apart a b ha hb.1)
      · exact absurd heq.symm (apart b a hb ha.1)
      · exact ha.2.trans hb.2.symm

theorem mem_expand_of_observed (once : schema.names.Nodup) (h : name ∈ observed) :
    (name, spec) ∈ (schema.expand observed).keys ↔ schema.specFor? name = some spec := by
  rw [mem_expand_iff once, mem_unnamed, specFor?]
  by_cases hwild : name = wildcardName
  · have hfind : schema.find? name = schema.wildcard? := by rw [hwild]; rfl
    rw [hfind, Option.or_self]
    rw [hwild] at h
    simp [hwild, h]
  · cases hfind : schema.find? name with
    | none => simp [h]
    | some own => simp [hwild]

theorem mem_expand_of_absent (once : schema.names.Nodup) (h : name ∉ observed) :
    (name, spec) ∈ (schema.expand observed).keys ↔
      name ≠ wildcardName ∧ schema.find? name = some spec := by
  rw [mem_expand_iff once, mem_unnamed]
  simp [h]

/-- What holds for all keys of the expanded schema holds for the given keys and for the named keys
that are not given. -/
theorem forall_mem_expand (once : schema.names.Nodup) {P : String → KeySpec → Prop} :
    (∀ entry ∈ (schema.expand observed).keys, P entry.1 entry.2) ↔
      (∀ name ∈ observed, ∀ spec, schema.specFor? name = some spec → P name spec) ∧
      ∀ name ∉ observed, ∀ spec, name ≠ wildcardName → schema.find? name = some spec →
        P name spec := by
  constructor
  · intro all
    refine ⟨fun name hname spec hspec => ?_, fun name hname spec hne hfind => ?_⟩
    · exact all (name, spec) ((mem_expand_of_observed once hname).mpr hspec)
    · exact all (name, spec) ((mem_expand_of_absent once hname).mpr ⟨hne, hfind⟩)
  · rintro ⟨given, absent⟩ ⟨name, spec⟩ hmem
    by_cases hname : name ∈ observed
    · exact given name hname spec ((mem_expand_of_observed once hname).mp hmem)
    · obtain ⟨hne, hfind⟩ := (mem_expand_of_absent once hname).mp hmem
      exact absent name hname spec hne hfind

theorem mem_of_mem_expand (h : (name, spec) ∈ (schema.expand observed).keys) :
    ∃ own, (own, spec) ∈ schema.keys := by
  cases hwild : schema.wildcard? with
  | none =>
    rw [expand_of_wildcard?_eq_none observed hwild] at h
    exact ⟨name, h⟩
  | some wild =>
    simp only [expand, hwild] at h
    refine (Entries.forall_ofList (K := fun _ => True)
      (V := fun spec => ∃ own, (own, spec) ∈ schema.keys) ?_ _ h).2
    intro entry hentry
    refine ⟨trivial, ?_⟩
    rcases List.mem_append.mp hentry with hentry | hentry
    · exact ⟨entry.1, (List.mem_filter.mp hentry).1⟩
    · obtain ⟨other, -, rfl⟩ := List.mem_map.mp hentry
      exact ⟨wildcardName, Entries.mem_of_lookup hwild⟩

theorem nodup_names_expand (once : schema.names.Nodup) (observed : List String) :
    (schema.expand observed).names.Nodup := by
  cases hwild : schema.wildcard? with
  | none => rwa [expand_of_wildcard?_eq_none observed hwild]
  | some wild =>
    simp only [expand, hwild]
    exact Entries.nodup_names_ofList _

theorem find?_expand (once : schema.names.Nodup) (observed : List String) (name : String) :
    (schema.expand observed).find? name =
      if name ∈ observed then schema.specFor? name
      else if name = wildcardName then none else schema.find? name := by
  apply Option.ext
  intro spec
  rw [find?_eq_some (nodup_names_expand once observed)]
  by_cases hname : name ∈ observed
  · rw [if_pos hname, mem_expand_of_observed once hname]
  · rw [if_neg hname, mem_expand_of_absent once hname]
    split <;> simp [*]

/-- After expansion exactly the keys without a specification are undeclared. -/
theorem undeclared_expand_eq_nil (once : schema.names.Nodup) :
    (schema.expand observed).undeclared observed = [] ↔
      ∀ name ∈ observed, (schema.specFor? name).isSome := by
  rw [undeclared, List.filter_eq_nil_iff]
  apply forall₂_congr
  intro name h
  rw [find?_expand once, if_pos h]
  cases schema.specFor? name <;> simp

/-- What is undeclared after expansion is what has no specification, in the order observed. -/
theorem undeclared_expand (observed : List String) :
    (schema.expand observed).undeclared observed =
      observed.filter fun name => (schema.specFor? name).isNone := by
  cases hwild : schema.wildcard? with
  | none =>
    rw [expand_of_wildcard?_eq_none observed hwild, undeclared]
    simp only [specFor?, hwild, Option.or_none]
  | some wild =>
    have declared : ∀ name ∈ observed, ((schema.expand observed).find? name).isSome = true := by
      intro name hname
      simp only [expand, hwild]
      refine Entries.isSome_lookup_foldl_insert [] (.inl ?_)
      rw [Entries.names, List.map_append, List.mem_append, List.map_map]
      by_cases others : name ∈ schema.unnamed observed
      · exact .inr (List.mem_map.mpr ⟨name, others, rfl⟩)
      · rw [mem_unnamed, not_and_or, not_or] at others
        obtain ⟨hne, hfind⟩ := others.resolve_left (not_not_intro hname)
        obtain ⟨spec, hfind⟩ := Option.ne_none_iff_exists'.mp hfind
        refine .inl (List.mem_map.mpr ⟨(name, spec), List.mem_filter.mpr ⟨?_, ?_⟩, rfl⟩)
        · exact Entries.mem_of_lookup hfind
        · exact bne_iff_ne.mpr hne
    rw [undeclared, List.filter_eq_nil_iff.mpr, List.filter_eq_nil_iff.mpr]
    · intro name _
      simp [specFor?, hwild]
    · intro name hname absent
      have held := declared name hname
      rw [Option.isNone_iff_eq_none.mp absent] at held
      cases held

end OptionSchema.Schema
