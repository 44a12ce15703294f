import OptionSchema.Proofs.Raw.AnyDepth
/-!
# All problems of a raw schema are reported

The problems of a raw schema are those of its entries, one entry after the other, and each lies
under the name of its entry. An entry has one problem, or else all the problems of the nested schema
in it. Where a raw schema is read moves its problems and changes nothing else.
-/
namespace OptionSchema

def Defect.under (path : Path) (defect : Defect) : Defect :=
  { defect with path := path ++ defect.path }

def Defects.under (path : Path) (defects : Defects) : Defects :=
  ⟨defects.first.under path, defects.others.map (Defect.under path)⟩

theorem Defects.under_append (path : Path) (a b : Defects) :
    (a ++ b).under path = a.under path ++ b.under path := by
  refine congrArg (Defects.mk _) ?_
  exact List.map_append

namespace Raw

variable {reader : Reader} {raw : Value} {path inner : Path} {attrs : List (String × Value)}

def problems {α : Type} : Except Defects α → List Defect
  | .ok _ => []
  | .error defects => defects.toList

theorem problems_eq_nil_iff {α : Type} {reading : Except Defects α} :
    problems reading = [] ↔ ∃ result, reading = .ok result := by
  cases reading with
  | ok result => exact ⟨fun _ => ⟨result, rfl⟩, fun _ => rfl⟩
  | error defects => exact ⟨nofun, nofun⟩

theorem problems_map {α β : Type} (f : α → β) (reading : Except Defects α) :
    problems (reading.map f) = problems reading := by
  cases reading <;> rfl

theorem problems_under {α : Type} (path : Path) (reading : Except Defects α) :
    problems (reading.mapError (Defects.under path)) =
      (problems reading).map (Defect.under path) := by
  cases reading <;> rfl

section Entries

variable {read : String → Value → Except Defects KeySpec} {entries : List (String × Value)}
  {keys : List (String × KeySpec)}

theorem readEntries_eq_ok_iff :
    readEntries read entries = .ok keys ↔
      List.Forall₂ (fun entry key => entry.1 = key.1 ∧ read entry.1 entry.2 = .ok key.2)
        entries keys := by
  induction entries generalizing keys with
  | nil =>
    rw [readEntries, List.forall₂_nil_left_iff]
    exact ⟨fun h => (Except.ok.inj h).symm, fun h => h ▸ rfl⟩
  | cons entry entries ih =>
    obtain ⟨name, raw⟩ := entry
    rw [readEntries, List.forall₂_cons_left_iff]
    constructor
    · intro h
      cases hspec : read name raw with
      | error defects =>
        rw [hspec] at h
        cases hrest : readEntries read entries <;> rw [hrest] at h <;> cases h
      | ok spec =>
        cases hrest : readEntries read entries with
        | error defects =>
          rw [hspec, hrest] at h
          cases h
        | ok rest =>
          rw [hspec, hrest] at h
          exact ⟨(name, spec), rest, ⟨rfl, rfl⟩, ih.mp hrest, (Except.ok.inj h).symm⟩
    · rintro ⟨⟨_, spec⟩, rest, ⟨rfl, hspec⟩, hrest, rfl⟩
      rw [hspec, ih.mpr hrest]

/-- No problem is lost, repeated or moved. -/
theorem problems_readEntries (read : String → Value → Except Defects KeySpec)
    (entries : List (String × Value)) :
    problems (readEntries read entries) =
      entries.flatMap fun entry => problems (read entry.1 entry.2) := by
  induction entries with
  | nil => rfl
  | cons entry entries ih =>
    obtain ⟨name, raw⟩ := entry
    rw [List.flatMap_cons, ← ih, readEntries]
    cases read name raw with
    | ok spec => cases readEntries read entries <;> rfl
    | error defects =>
      cases readEntries read entries with
      | ok rest => exact (List.append_nil _).symm
      | error others => rfl

theorem readEntries_under (path : Path) (read : String → Value → Except Defects KeySpec)
    (entries : List (String × Value)) :
    readEntries (fun name raw => (read name raw).mapError (Defects.under path)) entries =
      (readEntries read entries).mapError (Defects.under path) := by
  induction entries with
  | nil => rfl
  | cons entry entries ih =>
    obtain ⟨name, raw⟩ := entry
    rw [readEntries, readEntries, ih]
    cases read name raw with
    | ok spec => cases readEntries read entries <;> rfl
    | error defects =>
      cases readEntries read entries with
      | ok rest => rfl
      | error others => exact congrArg Except.error (Defects.under_append path defects others).symm

end Entries

def Reader.withKeys (reader : Reader) (spec : KeySpec) (keys : Option Value)
    (shorthand : Option Nested) (path : Path) : Except Defects KeySpec :=
  match keys, shorthand with
  | none, _ => .ok spec
  | some _, some _ => .error (.single
      ⟨path.pushKey "keys", "keys are already given by the keyed type", "keys_not_allowed"⟩)
  | some keys, none =>
    match keys.identifier? with
    | some name => .ok { spec with nested := some (.ref name) }
    | none => (reader.schema keys path).map fun schema =>
      { spec with nested := some (.inline schema) }

theorem Reader.keySpec_of_typed {filled : Value} {ty : Ty}
    (hattrs : attributes reader raw = .ok filled)
    (typed : attributeType reader filled path = .ok ty) :
    reader.keySpec raw path =
      reader.withKeys (attributeSpec filled (liftKeyed ty).1 (liftKeyed ty).2)
        (filled.find? "keys") (liftKeyed ty).2 path := by
  rw [keySpec, hattrs]
  simp only [typed, bind, Except.bind]
  generalize liftKeyed ty = lifted
  obtain ⟨bare, shorthand⟩ := lifted
  fun_cases Reader.withKeys reader (attributeSpec filled bare shorthand) (filled.find? "keys")
    shorthand path with
  | case1 => rfl
  | case2 => rfl
  | case3 keys name named => simp only [named]
  | case4 keys unnamed =>
    simp only [unnamed]
    cases reader.schema keys path <;> rfl

/-- A key specification with attributes that pass has a type, and only its nested schema can make
it fail. -/
theorem Reader.keySpec_of_pass (reads : raw.Reads attrs) (pass : AttributesPass reader.ty attrs) :
    ∃ ty spec, reader.ty (rawType attrs) = .ok ty ∧ ∀ path, reader.keySpec raw path =
      reader.withKeys spec (attrs.lookup "keys") (liftKeyed ty).2 path := by
  obtain ⟨filled, hattrs, lookups⟩ := pass.attributes reads
  obtain ⟨ty, hty⟩ := pass.typed
  refine ⟨ty, attributeSpec filled (liftKeyed ty).1 (liftKeyed ty).2, hty, fun path => ?_⟩
  rw [keySpec_of_typed hattrs (attributeType_of_filled lookups hty path),
    find?_keys_of_filled lookups]

section Places

/-- A schema is read alike wherever it stands, and its defects say where that is. -/
def Reader.Relocates (reader : Reader) : Prop := ∀ raw path inner,
  reader.schema raw (path ++ inner) = (reader.schema raw inner).mapError (Defects.under path)

theorem defectOfFailure_append (path inner : Path) (failure : Failure) :
    defectOfFailure (path ++ inner) failure = (defectOfFailure inner failure).under path := by
  rw [defectOfFailure, defectOfFailure]
  cases failure.place <;>
    simp only [Defect.under, Path.pushKey, Path.push, List.append_assoc]

theorem pushKey_append (path inner : Path) (name : String) :
    (path ++ inner).pushKey name = path ++ inner.pushKey name := List.append_assoc ..

theorem Reader.Relocates.keySpec (relocates : reader.Relocates) (raw : Value) (path inner : Path) :
    reader.keySpec raw (path ++ inner) =
      (reader.keySpec raw inner).mapError (Defects.under path) := by
  cases hattrs : attributes reader raw with
  | error failure =>
    rw [Reader.keySpec, Reader.keySpec, hattrs]
    exact congrArg (fun defect => Except.error (Defects.single defect))
      (defectOfFailure_append path inner failure)
  | ok filled =>
    obtain ⟨attrs, reads, pass, -⟩ := attributes_eq_ok hattrs
    obtain ⟨ty, spec, -, result⟩ := Reader.keySpec_of_pass reads pass
    rw [result, result]
    fun_cases Reader.withKeys reader spec (attrs.lookup "keys") (liftKeyed ty).2 inner with
    | case1 => rfl
    | case2 =>
      rw [Reader.withKeys, pushKey_append]
      rfl
    | case3 keys name named => simp only [Reader.withKeys, named, Except.mapError]
    | case4 keys unnamed =>
      simp only [Reader.withKeys, unnamed, relocates keys path inner]
      cases reader.schema keys inner <;> rfl

theorem Reader.Relocates.schema_root (relocates : reader.Relocates) (raw : Value) (path : Path) :
    reader.schema raw path = (reader.schema raw .root).mapError (Defects.under path) := by
  have moved := relocates raw path .root
  rwa [Path.root, List.append_nil] at moved

theorem Reader.Relocates.keySpec_root (relocates : reader.Relocates) (raw : Value) (path : Path) :
    reader.keySpec raw path = (reader.keySpec raw .root).mapError (Defects.under path) := by
  have moved := relocates.keySpec raw path .root
  rwa [Path.root, List.append_nil] at moved

theorem Reader.Relocates.keys (relocates : reader.Relocates) (raw : Value) (path inner : Path) :
    reader.keys raw (path ++ inner) = (reader.keys raw inner).mapError (Defects.under path) := by
  rw [Reader.keys, Reader.keys]
  cases raw.entries? with
  | none => rfl
  | some entries =>
    simp only [pushKey_append, relocates.keySpec, readEntries_under]
    cases readEntries _ entries <;> rfl

theorem reader_relocates (validator? : String → Option Validator) :
    (Raw.reader validator?).Relocates := by
  have levels : ∀ depth, (Reader.ofDepth validator? depth).Relocates := by
    intro depth
    induction depth with
    | zero => exact fun _ _ _ => rfl
    | succ depth ih => exact ih.keys
  exact fun raw => levels raw.depth raw

end Places

section Faults

/-- The key specification can be read with an empty mapping for its nested schema, but not the
mapping that is given for it. -/
inductive OnlyKeysAtFault (reader : Reader) (raw keys : Value) : Prop where
  | intro {attrs : List (String × Value)} {spec : KeySpec} {defects : Defects}
      (reads : raw.Reads attrs) (given : attrs.lookup "keys" = some keys)
      (mapping : keys.isMapping = true) (unread : reader.schema keys .root = .error defects)
      (otherwise : reader.keySpec (.keywords (Entries.insert "keys" (.keywords []) attrs)) .root =
        .ok spec)

theorem rawType_insert_keys (keys : Value) (attrs : List (String × Value)) :
    rawType (Entries.insert "keys" keys attrs) = rawType attrs := by
  rw [rawType, rawType, Entries.lookup_insert_of_ne _ _ (by decide)]

theorem identifier?_of_isMapping {value : Value} (h : value.isMapping = true) :
    value.identifier? = none := by
  cases value <;> first | rfl | cases h

/-- A key specification that is read has attributes that pass, and one nested schema at most. -/
theorem Reader.pass_of_keySpec {spec : KeySpec} (reads : raw.Reads attrs)
    (h : reader.keySpec raw path = .ok spec) :
    ∃ ty, AttributesPass reader.ty attrs ∧ reader.ty (rawType attrs) = .ok ty ∧
      (attrs.lookup "keys" = none ∨ (liftKeyed ty).2 = none) := by
  cases hattrs : attributes reader raw with
  | error failure =>
    rw [keySpec, hattrs] at h
    cases h
  | ok filled =>
    obtain ⟨attrs', reads', pass, -⟩ := attributes_eq_ok hattrs
    obtain rfl : attrs = attrs' := Option.some.inj
      ((Value.reads_iff.mp reads).symm.trans (Value.reads_iff.mp reads'))
    obtain ⟨ty, spec', typed, result⟩ := keySpec_of_pass reads pass
    refine ⟨ty, pass, typed, ?_⟩
    rw [result] at h
    cases hkeys : attrs.lookup "keys" with
    | none => exact .inl rfl
    | some keys =>
      cases hshorthand : (liftKeyed ty).2 with
      | none => exact .inr rfl
      | some nested =>
        rw [hkeys, hshorthand] at h
        cases h

theorem OnlyKeysAtFault.keySpec {keys : Value} (fault : OnlyKeysAtFault reader raw keys) :
    ∃ spec : Schema → KeySpec, ∀ path,
      reader.keySpec raw path = (reader.schema keys path).map spec := by
  obtain @⟨attrs, _, _, reads, given, mapping, -, otherwise⟩ := fault
  obtain ⟨ty, pass', typed', single⟩ := Reader.pass_of_keySpec (.keywords _) otherwise
  have bare : (liftKeyed ty).2 = none := by
    rw [Entries.lookup_insert_self] at single
    exact single.resolve_left nofun
  have pass : AttributesPass reader.ty attrs := by
    refine pass'.withKeys (fun name hname => pass'.names name ?_) (fun name ne => ?_) given mapping
    · rw [Entries.names_insert, if_pos (Entries.mem_names (Entries.mem_of_lookup given))]
      exact hname
    · exact (Entries.lookup_insert_of_ne _ _ ne).symm
  obtain ⟨ty', spec, typed, result⟩ := Reader.keySpec_of_pass reads pass
  rw [rawType_insert_keys, typed] at typed'
  obtain rfl := Except.ok.inj typed'
  refine ⟨fun schema => { spec with nested := some (.inline schema) }, fun path => ?_⟩
  rw [result, given, bare]
  simp only [Reader.withKeys, identifier?_of_isMapping mapping]

theorem isPrefix_place (path : Path) (failure : Failure) :
    path <+: (defectOfFailure path failure).path := by
  rw [defectOfFailure]
  cases failure.place with
  | key name => exact (List.prefix_append _ _).trans (List.prefix_append _ _)
  | _ => exact List.prefix_append _ _

/-- With an empty mapping for its nested schema, a key specification with attributes that pass and
no other nested schema is read. -/
theorem Reader.keySpec_of_empty_keys {ty : Ty} (pass : AttributesPass reader.ty attrs)
    (empty : ∃ schema, reader.schema (.keywords []) .root = .ok schema)
    (typed : reader.ty (rawType attrs) = .ok ty) (bare : (liftKeyed ty).2 = none) :
    ∃ spec, reader.keySpec (.keywords (Entries.insert "keys" (.keywords []) attrs)) .root =
      .ok spec := by
  have pass' : AttributesPass reader.ty (Entries.insert "keys" (.keywords []) attrs) := by
    refine pass.withKeys (fun name hname => ?_)
      (fun name ne => Entries.lookup_insert_of_ne _ _ ne) (Entries.lookup_insert_self ..) rfl
    rw [Entries.names_insert] at hname
    split at hname
    · exact pass.names name hname
    · rcases List.mem_append.mp hname with hname | hname
      · exact pass.names name hname
      · rw [List.mem_singleton.mp hname]
        decide
  obtain ⟨ty', spec, typed', result⟩ := keySpec_of_pass (.keywords _) pass'
  rw [rawType_insert_keys, typed] at typed'
  obtain rfl := Except.ok.inj typed'
  obtain ⟨schema, hschema⟩ := empty
  refine ⟨{ spec with nested := some (.inline schema) }, ?_⟩
  rw [result, Entries.lookup_insert_self, bare]
  simp only [withKeys, Value.identifier?, hschema]
  rfl

theorem Reader.keySpec_eq_error {defects : Defects} (relocates : reader.Relocates)
    (empty : ∃ schema, reader.schema (.keywords []) .root = .ok schema)
    (h : reader.keySpec raw path = .error defects) :
    (∃ defect, defects = .single defect ∧ path <+: defect.path) ∨
      ∃ keys, OnlyKeysAtFault reader raw keys := by
  cases hattrs : attributes reader raw with
  | error failure =>
    rw [keySpec, hattrs] at h
    obtain rfl := Except.error.inj h
    exact .inl ⟨_, rfl, isPrefix_place path failure⟩
  | ok filled =>
    obtain ⟨attrs, reads, pass, -⟩ := attributes_eq_ok hattrs
    obtain ⟨ty, spec, typed, result⟩ := keySpec_of_pass reads pass
    rw [result] at h
    cases given : attrs.lookup "keys" with
    | none =>
      rw [given] at h
      cases h
    | some keys =>
      cases shorthand : (liftKeyed ty).2 with
      | some nested =>
        rw [given, shorthand] at h
        obtain rfl := Except.error.inj h
        exact .inl ⟨_, rfl, List.prefix_append _ _⟩
      | none =>
        refine .inr ⟨keys, ?_⟩
        rw [given, shorthand, withKeys] at h
        cases unnamed : keys.identifier? with
        | some name =>
          rw [unnamed] at h
          cases h
        | none =>
          obtain ⟨spec', otherwise⟩ := keySpec_of_empty_keys pass empty typed shorthand
          rw [unnamed, relocates.schema_root] at h
          cases unread : reader.schema keys .root with
          | ok schema =>
            rw [unread] at h
            cases h
          | error faults =>
            exact .intro reads given (pass.isMapping given unnamed) unread otherwise

end Faults

section Accumulation

variable {entries : List (String × Value)} {name : String}

theorem isPrefix_under {defect : Defect} {defects : List Defect}
    (h : defect ∈ defects.map (Defect.under path)) : path <+: defect.path := by
  obtain ⟨inside, -, rfl⟩ := List.mem_map.mp h
  exact List.prefix_append _ _

def problemsUnder {α : Type} (path : Path) (reading : Except Defects α) : List Defect :=
  (problems reading).filter fun defect => path.isPrefixOf defect.path

theorem pushKey_inj {name other : String} {place : Path} (h : path.pushKey name <+: place)
    (h' : path.pushKey other <+: place) : name = other := by
  have same : path.pushKey name = path.pushKey other :=
    (List.prefix_of_prefix_length_le h h' (by simp [Path.pushKey, Path.push])).eq_of_length
      (by simp [Path.pushKey, Path.push])
  have last := List.append_cancel_left same
  exact Segment.key.inj (List.head_eq_of_cons_eq last)

/-- Among what the entries of a schema contribute, the contribution of one entry is found again by
the place of its key. -/
theorem filter_flatMap_of_mem {contribution : String × Value → List Defect}
    (once : (Entries.names entries).Nodup)
    (places : ∀ entry, ∀ defect ∈ contribution entry, path.pushKey entry.1 <+: defect.path)
    {entry : String × Value} (hentry : entry ∈ entries) :
    (entries.flatMap contribution).filter
      (fun defect => (path.pushKey entry.1).isPrefixOf defect.path) = contribution entry := by
  have others : ∀ rest : List (String × Value), entry.1 ∉ Entries.names rest →
      (rest.flatMap contribution).filter
        (fun defect => (path.pushKey entry.1).isPrefixOf defect.path) = [] := by
    intro rest absent
    refine List.filter_eq_nil_iff.mpr fun defect hdefect inside => ?_
    obtain ⟨other, hother, hdefect⟩ := List.mem_flatMap.mp hdefect
    have same := pushKey_inj (List.isPrefixOf_iff_prefix.mp inside) (places other defect hdefect)
    exact absent (same ▸ Entries.mem_names hother)
  have own : (contribution entry).filter
      (fun defect => (path.pushKey entry.1).isPrefixOf defect.path) = contribution entry :=
    List.filter_eq_self.mpr fun defect hdefect =>
      List.isPrefixOf_iff_prefix.mpr (places entry defect hdefect)
  induction entries with
  | nil => cases hentry
  | cons head rest ih =>
    rw [Entries.nodup_names_cons] at once
    rw [List.flatMap_cons, List.filter_append]
    rcases List.mem_cons.mp hentry with rfl | hrest
    · rw [own, others rest once.1, List.append_nil]
    · have apart : entry.1 ∉ Entries.names [head] := by
        intro h
        have same : entry.1 = head.1 := List.mem_singleton.mp h
        exact once.1 (same ▸ Entries.mem_names hrest)
      have alone := others [head] apart
      rw [List.flatMap_cons, List.flatMap_nil, List.append_nil] at alone
      rw [alone, List.nil_append]
      exact ih once.2 hrest

/-- What is reported of a raw schema with these entries at `path`. -/
structure Accumulates (reader : Reader) (raw : Value) (entries : List (String × Value))
    (path : Path) : Prop where
  /-- The schema is read exactly when every entry is. -/
  succeeds : (∃ schema, reader.schema raw path = .ok schema) ↔
    ∀ entry ∈ entries, ∃ spec, reader.keySpec entry.2 (path.pushKey entry.1) = .ok spec
  /-- Its keys are those of the entries, in their order. -/
  keys : ∀ schema, reader.schema raw path = .ok schema →
    List.Forall₂ (fun entry key => entry.1 = key.1 ∧
      reader.keySpec entry.2 (path.pushKey entry.1) = .ok key.2) entries schema.keys
  /-- Its problems are those of the entries, in their order. -/
  problems : problems (reader.schema raw path) = entries.flatMap fun entry =>
    problems (reader.keySpec entry.2 (path.pushKey entry.1))
  /-- An entry with nothing wrong but its nested schema has the problems of that. -/
  nested : ∀ entry ∈ entries, ∀ keys, OnlyKeysAtFault reader entry.2 keys →
    ∃ defects, reader.schema keys (path.pushKey entry.1) = .error defects ∧
      reader.keySpec entry.2 (path.pushKey entry.1) = .error defects
  /-- Any other entry that is not read has one problem, at its key or inside. -/
  single : ∀ entry ∈ entries, (¬ ∃ keys, OnlyKeysAtFault reader entry.2 keys) → ∀ defects,
    reader.keySpec entry.2 (path.pushKey entry.1) = .error defects →
      ∃ defect, defects = .single defect ∧ path.pushKey entry.1 <+: defect.path
  /-- At `path` there are the problems that there are at the root, moved. -/
  relocated : reader.schema raw path = (reader.schema raw .root).mapError (Defects.under path)
  /-- The problems of an entry are the same whatever the other entries are. -/
  independent : ∀ entry ∈ entries, ∀ other others, other.entries? = some others →
    other.HasDistinctKeys → entry ∈ others →
      problemsUnder (path.pushKey entry.1) (reader.schema other path) =
        problemsUnder (path.pushKey entry.1) (reader.schema raw path)

theorem nodup_names_of_distinct (reads : raw.Reads entries) (distinct : raw.HasDistinctKeys) :
    (Entries.names entries).Nodup := by
  cases reads with
  | keywords => exact distinct
  | map _ once => exact once

variable (validator? : String → Option Validator)

theorem schema_of_reads (reads : raw.Reads entries) (once : (Entries.names entries).Nodup)
    (path : Path) :
    (Raw.reader validator?).schema raw path =
      (readEntries (fun name spec =>
        (Raw.reader validator?).keySpec spec (path.pushKey name)) entries).map Schema.mk := by
  rw [reader_schema, Reader.keys, Value.reads_iff.mp reads]
  simp only
  cases hread : readEntries _ entries with
  | error defects => rfl
  | ok keys =>
    have names : Entries.names entries = Entries.names keys :=
      Entries.names_eq_of_forall₂ ((readEntries_eq_ok_iff.mp hread).imp fun _ _ h => h.1)
    exact congrArg (fun keys => Except.ok (Schema.mk keys)) (Entries.ofList_of_nodup (names ▸ once))

theorem problems_keySpec_under (entry : String × Value) (defect : Defect)
    (h : defect ∈ problems ((Raw.reader validator?).keySpec entry.2 (path.pushKey entry.1))) :
    path.pushKey entry.1 <+: defect.path := by
  rw [(reader_relocates validator?).keySpec_root, problems_under] at h
  exact isPrefix_under h

/-- Reading a raw schema reports every problem of its entries and nothing else. -/
theorem problems_accumulate {raw : Value} {entries : List (String × Value)}
    (reads : raw.entries? = some entries) (distinct : raw.HasDistinctKeys) (path : Path) :
    Accumulates (Raw.reader validator?) raw entries path := by
  have relocates := reader_relocates validator?
  have once := nodup_names_of_distinct (Value.reads_iff.mpr reads) distinct
  have schema := schema_of_reads validator? (Value.reads_iff.mpr reads) once path
  have all : problems ((Raw.reader validator?).schema raw path) = entries.flatMap fun entry =>
      problems ((Raw.reader validator?).keySpec entry.2 (path.pushKey entry.1)) := by
    rw [schema, problems_map, problems_readEntries]
  refine ⟨?_, ?_, all, ?_, ?_, ?_, ?_⟩
  · rw [← problems_eq_nil_iff, all, List.flatMap_eq_nil_iff]
    simp only [problems_eq_nil_iff]
  · intro result hresult
    rw [schema] at hresult
    cases hread : readEntries _ entries with
    | error defects =>
      rw [hread] at hresult
      cases hresult
    | ok keys =>
      rw [hread] at hresult
      obtain rfl := Except.ok.inj hresult
      exact readEntries_eq_ok_iff.mp hread
  · intro entry _ keys fault
    obtain ⟨spec, result⟩ := fault.keySpec
    obtain @⟨_, _, defects, -, -, -, unread, -⟩ := fault
    have moved := relocates.schema_root keys (path.pushKey entry.1)
    rw [unread] at moved
    exact ⟨_, moved, by rw [result, moved]; rfl⟩
  · intro entry _ sound defects failed
    have empty : ∃ schema, (Raw.reader validator?).schema (.keywords []) .root = .ok schema :=
      ⟨_, schema_of_reads validator? (.keywords []) .nil .root⟩
    exact (Reader.keySpec_eq_error relocates empty failed).resolve_right sound
  · exact relocates.schema_root raw path
  · intro entry hentry other others reads' distinct' hother
    have once' := nodup_names_of_distinct (Value.reads_iff.mpr reads') distinct'
    rw [problemsUnder, problemsUnder, all,
      schema_of_reads validator? (Value.reads_iff.mpr reads') once', problems_map,
      problems_readEntries,
      filter_flatMap_of_mem once (problems_keySpec_under validator?) hentry,
      filter_flatMap_of_mem once' (problems_keySpec_under validator?) hother]

end Accumulation

section Drafts

def misnamed (name : String) : Value := .keywords [("type", .string name)]

def drafts : Value := .keywords [("port", misnamed "nope"),
  ("pool", .keywords [("type", .string "map"), ("keys", .keywords [("size", misnamed "none")])]),
  ("host", misnamed "string")]

def repairedDrafts : Value := .keywords [("port", misnamed "integer"),
  ("pool", .keywords [("type", .string "map"), ("keys", .keywords [("size", misnamed "none")])])]

/-- Both problems are reported, and that of the nested key stays when the other is repaired. -/
theorem drafts_accumulate :
    let reader := Raw.reader fun _ => none
    (problems (reader.schema drafts [.key "db"])).map (fun defect => (defect.path, defect.code)) =
      [([.key "db", .key "port", .key "type"], "custom"),
        ([.key "db", .key "pool", .key "size", .key "type"], "custom")] ∧
    problemsUnder [.key "db", .key "pool"] (reader.schema repairedDrafts [.key "db"]) =
      problemsUnder [.key "db", .key "pool"] (reader.schema drafts [.key "db"]) := by
  intro reader
  have all : Accumulates reader drafts _ [.key "db"] :=
    problems_accumulate (fun _ => none) (show drafts.entries? = some _ from rfl)
      (show ["port", "pool", "host"].Nodup by decide) _
  constructor
  · rw [all.problems]
    rfl
  · exact all.independent _ (List.mem_cons_of_mem _ List.mem_cons_self) repairedDrafts _ rfl
      (show ["port", "pool"].Nodup by decide) (List.mem_cons_of_mem _ List.mem_cons_self)

end Drafts

end Raw

end OptionSchema
