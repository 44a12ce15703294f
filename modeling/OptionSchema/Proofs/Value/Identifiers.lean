import Mathlib.Data.List.Induction
import OptionSchema.Proofs.Value.Following
/-!
# Names that a mapping holds twice

A mapping is read as entries, searched for a repeated name, or asked for one name. Two keys of a map
share a name only as its string and its atom. Where no name is shared the map reads as entries,
and each name stands for the same value in them as in the map. Otherwise the name is reported that
is the first to come a second time.
-/
namespace OptionSchema.Value

def HoldsTwice (pairs : List (Value × Value)) (name : String) : Prop :=
  .string name ∈ Entries.names pairs ∧ .atom name ∈ Entries.names pairs

/-- The map holds the name twice, and of all such names its second key comes first. -/
inductive FirstHeldTwice (name : String) : List (Value × Value) → Prop where
  | intro {before after : List (Value × Value)} {second : Value × Value}
      (twice : HoldsTwice (before ++ [second]) name) (once : ∀ other, ¬ HoldsTwice before other) :
      FirstHeldTwice name (before ++ second :: after)

def identifiers (pairs : List (Value × Value)) : List String := pairs.filterMap (·.1.identifier?)

section Repetition

variable {seen names : List String} {name : String}

theorem firstRepeated?_eq_some_iff :
    firstRepeated? seen names = some name ↔
      ∃ before after, names = before ++ name :: after ∧ before.Nodup ∧
        (∀ other ∈ before, other ∉ seen) ∧ (name ∈ seen ∨ name ∈ before) := by
  induction names generalizing seen with
  | nil => simp [firstRepeated?]
  | cons head names ih =>
    rw [firstRepeated?]
    by_cases hseen : head ∈ seen
    · rw [if_pos hseen]
      constructor
      · intro h
        obtain rfl := Option.some.inj h
        exact ⟨[], names, rfl, .nil, fun _ h => absurd h List.not_mem_nil, .inl hseen⟩
      · rintro ⟨before, after, heq, -, fresh, -⟩
        cases before with
        | nil => rw [(List.cons.inj heq).1]
        | cons first before =>
          obtain rfl := (List.cons.inj heq).1
          exact absurd hseen (fresh head List.mem_cons_self)
    · rw [if_neg hseen, ih]
      constructor
      · rintro ⟨before, after, rfl, nodup, fresh, repeated⟩
        refine ⟨head :: before, after, rfl, ?_, ?_, ?_⟩
        · exact List.nodup_cons.mpr ⟨fun h => fresh head h List.mem_cons_self, nodup⟩
        · exact List.forall_mem_cons.mpr
            ⟨hseen, fun other h hother => fresh other h (List.mem_cons_of_mem head hother)⟩
        · simp only [List.mem_cons] at repeated ⊢
          tauto
      · rintro ⟨before, after, heq, nodup, fresh, repeated⟩
        cases before with
        | nil =>
          obtain rfl := (List.cons.inj heq).1
          exact absurd (repeated.resolve_right List.not_mem_nil) hseen
        | cons first before =>
          obtain ⟨rfl, rfl⟩ := List.cons.inj heq
          rw [List.nodup_cons] at nodup
          refine ⟨before, after, rfl, nodup.2, fun other hother => ?_, ?_⟩
          · rw [List.mem_cons, not_or]
            refine ⟨?_, fresh other (List.mem_cons_of_mem head hother)⟩
            rintro rfl
            exact nodup.1 hother
          · simp only [List.mem_cons] at repeated ⊢
            tauto

end Repetition

section Shared

variable {pairs before after : List (Value × Value)} {second : Value × Value} {name : String}

theorem identifiers_append (before after : List (Value × Value)) :
    identifiers (before ++ after) = identifiers before ++ identifiers after :=
  List.filterMap_append

theorem identifiers_singleton (pair : Value × Value) :
    identifiers [pair] = pair.1.identifier?.toList := by
  cases named : pair.1.identifier? with
  | none => exact List.filterMap_cons_none named
  | some name => exact List.filterMap_cons_some named

theorem mem_identifiers_iff : name ∈ identifiers pairs ↔
    .string name ∈ Entries.names pairs ∨ .atom name ∈ Entries.names pairs := by
  rw [identifiers, List.mem_filterMap, Entries.names, List.mem_map, List.mem_map, ← exists_or]
  refine exists_congr fun pair => ?_
  rw [← and_or_left]
  refine and_congr_right fun _ => ⟨eq_of_identifier?, ?_⟩
  rintro (h | h)
  · rw [h]; rfl
  · rw [h]; rfl

theorem key_not_mem_before (distinct : Entries.Distinct (before ++ [second]))
    (named : second.1.identifier? = some name) : second.1 ∉ Entries.names before := by
  intro h
  obtain ⟨pair, hpair, same⟩ := List.mem_map.mp h
  have apart := (List.pairwise_append.mp distinct).2.2 pair hpair second (List.mem_singleton_self _)
  rw [same, (proper_of_scalar (isScalar_of_identifier? named)).beq_refl] at apart
  cases apart

theorem holdsTwice_append_iff (distinct : Entries.Distinct (before ++ [second])) :
    HoldsTwice (before ++ [second]) name ↔ HoldsTwice before name ∨
      second.1.identifier? = some name ∧ name ∈ identifiers before := by
  have names : Entries.names (before ++ [second]) = Entries.names before ++ [second.1] :=
    List.map_append
  rw [HoldsTwice, HoldsTwice, names, List.mem_append, List.mem_append, List.mem_singleton,
    List.mem_singleton, mem_identifiers_iff]
  constructor
  · rintro ⟨hstring | hstring, hatom | hatom⟩
    · exact .inl ⟨hstring, hatom⟩
    · exact .inr ⟨hatom ▸ rfl, .inl hstring⟩
    · exact .inr ⟨hstring ▸ rfl, .inr hatom⟩
    · cases hstring.trans hatom.symm
  · rintro (⟨hstring, hatom⟩ | ⟨named, held⟩)
    · exact ⟨.inl hstring, .inl hatom⟩
    · have new := key_not_mem_before distinct named
      rcases eq_of_identifier? named with own | own
      · rw [own] at new
        exact ⟨.inr own.symm, .inl (held.resolve_left new)⟩
      · rw [own] at new
        exact ⟨.inl (held.resolve_right new), .inr own.symm⟩

theorem nodup_identifiers_iff (distinct : Entries.Distinct pairs) :
    (identifiers pairs).Nodup ↔ ∀ name, ¬ HoldsTwice pairs name := by
  induction pairs using List.reverseRecOn with
  | nil => simp [identifiers, HoldsTwice, Entries.names]
  | append_singleton before second ih =>
    have alone : (identifiers (before ++ [second])).Nodup ↔ (identifiers before).Nodup ∧
        ∀ name, second.1.identifier? = some name → name ∉ identifiers before := by
      rw [identifiers_append, identifiers_singleton, List.perm_append_comm.nodup_iff]
      cases second.1.identifier? <;> simp [and_comm]
    rw [alone, ih (List.pairwise_append.mp distinct).1, ← forall_and]
    refine forall_congr' fun name => ?_
    rw [holdsTwice_append_iff distinct, not_or, not_and]

/-- The name that is reported is the first to be held twice. -/
theorem duplicateIdentifier?_map_eq_some_iff (distinct : Entries.Distinct pairs) :
    (Value.map pairs).duplicateIdentifier? = some name ↔ FirstHeldTwice name pairs := by
  change firstRepeated? [] (identifiers pairs) = some name ↔ _
  have snoc : ∀ {before : List (Value × Value)} {second : Value × Value} {after},
      Entries.Distinct (before ++ second :: after) → Entries.Distinct (before ++ [second]) :=
    fun distinct => distinct.sublist ((List.singleton_sublist.mpr List.mem_cons_self).append_left _)
  rw [firstRepeated?_eq_some_iff]
  constructor
  · rintro ⟨names, others, split, nodup, -, repeated⟩
    obtain ⟨start, rest, rfl, rfl, hrest⟩ := List.filterMap_eq_append_iff.mp split
    obtain ⟨unnamed, second, after, rfl, hunnamed, named, rfl⟩ :=
      List.filterMap_eq_cons_iff.mp hrest
    have before : identifiers (start ++ unnamed) = identifiers start := by
      rw [identifiers_append, identifiers, identifiers, List.filterMap_eq_nil_iff.mpr hunnamed,
        List.append_nil]
    rw [← List.append_assoc] at distinct ⊢
    have held : name ∈ identifiers (start ++ unnamed) :=
      before ▸ repeated.resolve_left List.not_mem_nil
    refine .intro ((holdsTwice_append_iff (snoc distinct)).mpr (.inr ⟨named, held⟩)) ?_
    exact (nodup_identifiers_iff (List.pairwise_append.mp distinct).1).mp (before ▸ nodup)
  · rintro ⟨twice, once⟩
    obtain ⟨named, held⟩ :=
      ((holdsTwice_append_iff (snoc distinct)).mp twice).resolve_left (once name)
    have nodup := (nodup_identifiers_iff (List.pairwise_append.mp distinct).1).mpr once
    refine ⟨_, _, (identifiers_append _ _).trans (congrArg _ (List.filterMap_cons_some named)),
      nodup, fun _ _ => List.not_mem_nil, .inr held⟩

theorem duplicateIdentifier?_map_eq_none_iff (distinct : Entries.Distinct pairs) :
    (Value.map pairs).duplicateIdentifier? = none ↔ ∀ name, ¬ HoldsTwice pairs name := by
  rw [← nodup_identifiers_iff distinct]
  change firstRepeated? [] (identifiers pairs) = none ↔ _
  rw [firstRepeated?_eq_none_iff]
  exact and_iff_left fun _ _ => List.not_mem_nil

theorem entries?_map_eq_none_iff : (Value.map pairs).entries? = none ↔
    (∃ key ∈ Entries.names pairs, ∀ name, key ≠ .string name ∧ key ≠ .atom name) ∨
      ∃ name, (Value.map pairs).duplicateIdentifier? = some name := by
  constructor
  · intro unread
    by_contra h
    rw [not_or] at h
    obtain ⟨named, once⟩ := h
    have each : ∀ pair ∈ pairs, (entryOf? pair).isSome = true := by
      intro pair hpair
      by_contra unnamed
      refine named ⟨pair.1, Entries.mem_names hpair, fun name => ⟨fun own => ?_, fun own => ?_⟩⟩
      · rw [entryOf?, own] at unnamed
        exact unnamed rfl
      · rw [entryOf?, own] at unnamed
        exact unnamed rfl
    obtain ⟨entries, hentries⟩ := Option.isSome_iff_exists.mp (isSome_mapM_iff.mpr each)
    have items : List.Forall₂ NamedAs pairs entries :=
      (mapM_eq_some_iff.mp hentries).imp fun _ _ => entryOf?_eq_some_iff.mp
    have nodup : (Entries.names entries).Nodup := by
      rw [← filterMap_identifier? items]
      exact (firstRepeated?_eq_none_iff.mp
        (Option.eq_none_iff_forall_ne_some.mpr fun name h => once ⟨name, h⟩)).1
    cases unread.symm.trans (namedEntries?_eq_some_iff.mpr ⟨items, nodup⟩)
  · intro h
    refine Option.eq_none_iff_forall_ne_some.mpr fun entries reads => ?_
    rcases h with ⟨key, hkey, unnamed⟩ | ⟨name, reported⟩
    · obtain ⟨pair, hpair, rfl⟩ := List.mem_map.mp hkey
      obtain ⟨name, named, -⟩ := Schema.named_of_mem reads hpair
      rcases eq_of_identifier? named with own | own
      · exact (unnamed name).1 own
      · exact (unnamed name).2 own
    · cases (duplicateIdentifier?_eq_none reads).symm.trans reported

end Shared

inductive Binds : Value → String → Value → Prop where
  | keyword {entries : List (String × Value)} {name : String} {held : Value}
      (h : (name, held) ∈ entries) : Binds (.keywords entries) name held
  | string {pairs : List (Value × Value)} {name : String} {held : Value}
      (h : (.string name, held) ∈ pairs) : Binds (.map pairs) name held
  | atom {pairs : List (Value × Value)} {name : String} {held : Value}
      (h : (.atom name, held) ∈ pairs) : Binds (.map pairs) name held

theorem Reads.binds_iff {value held : Value} {entries : List (String × Value)} {name : String}
    (reads : value.Reads entries) : value.Binds name held ↔ (name, held) ∈ entries := by
  cases reads with
  | keywords => exact ⟨fun | .keyword h => h, .keyword⟩
  | @map pairs _ named once =>
    have items := Rearranged.of_forall₂ named
    have entry : ∀ {key : Value}, key.identifier? = some name → (key, held) ∈ pairs →
        (name, held) ∈ entries := by
      intro key hname hpair
      obtain ⟨entry, hentry, hread, rfl⟩ := items.forth hpair
      obtain rfl := Option.some.inj (hname.symm.trans hread)
      exact hentry
    constructor
    · rintro (_ | h | h)
      · exact entry rfl h
      · exact entry rfl h
    · intro h
      obtain ⟨⟨key, own⟩, hpair, hname, hheld⟩ := items.back h
      obtain rfl : own = held := hheld
      have hname : key.identifier? = some name := hname
      rcases eq_of_identifier? hname with rfl | rfl
      · exact .string hpair
      · exact .atom hpair

/-- The readings of a mapping agree. One that reads as entries has no name reported and holds under
each name what the entries hold; a map reads as entries unless a key names nothing or a name is
reported; and a name is reported exactly when some name is held twice: that whose second key comes
first, whatever the other keys are. -/
theorem readings_agree {value : Value} (distinct : value.HasDistinctKeys) :
    (∀ entries, value.entries? = some entries →
      (∀ name, value.find? name = entries.lookup name) ∧ value.duplicateIdentifier? = none) ∧
    (∀ pairs, value = .map pairs → (value.entries? = none ↔
      (∃ key ∈ Entries.names pairs, ∀ name, key ≠ .string name ∧ key ≠ .atom name) ∨
        ∃ name, value.duplicateIdentifier? = some name)) ∧
    (value.duplicateIdentifier? ≠ none ↔
      ∃ pairs name, value = .map pairs ∧ HoldsTwice pairs name) ∧
    ∀ name, value.duplicateIdentifier? = some name ↔
      ∃ pairs, value = .map pairs ∧ FirstHeldTwice name pairs := by
  refine ⟨fun entries reads => ⟨(reads_iff.mpr reads).find?, ?_⟩, ?_, ?_, fun name => ?_⟩
  · cases value with
    | map pairs => exact duplicateIdentifier?_eq_none reads
    | _ => rfl
  · rintro pairs rfl
    exact entries?_map_eq_none_iff
  · cases value with
    | map pairs =>
      rw [Ne, duplicateIdentifier?_map_eq_none_iff distinct, not_forall]
      constructor
      · rintro ⟨name, twice⟩
        exact ⟨pairs, name, rfl, not_not.mp twice⟩
      · rintro ⟨_, name, ⟨⟩, twice⟩
        exact ⟨name, not_not.mpr twice⟩
    | _ => exact ⟨fun reported => absurd rfl reported, fun ⟨_, _, other, _⟩ => by cases other⟩
  · cases value with
    | map pairs =>
      rw [duplicateIdentifier?_map_eq_some_iff distinct]
      exact ⟨fun first => ⟨pairs, rfl, first⟩, fun ⟨_, same, first⟩ => map.inj same ▸ first⟩
    | _ => exact ⟨nofun, fun ⟨_, other, _⟩ => by cases other⟩

section Racks

def rackPairs : List (Value × Value) :=
  [(.string "zone", .integer 1), (.integer 7, .null), (.atom "rack", .integer 2)]

def racks : Value :=
  .map (rackPairs ++ (.string "rack", .integer 3) :: [(.atom "zone", .integer 4)])

def rack : Value := .map [(.string "zone", .integer 1), (.atom "rack", .integer 2)]

theorem racks_readings :
    racks.HasDistinctKeys ∧ racks.duplicateIdentifier? = some "rack" ∧ racks.entries? = none ∧
      rack.HasDistinctKeys ∧ rack.duplicateIdentifier? = none ∧
        rack.find? "rack" = some (.integer 2) := by
  have distinct : racks.HasDistinctKeys := show List.Pairwise _ _ by decide
  have distinct' : rack.HasDistinctKeys := show List.Pairwise _ _ by decide
  have twice : HoldsTwice (rackPairs ++ [(.string "rack", .integer 3)]) "rack" := by
    simp [HoldsTwice, rackPairs, Entries.names]
  have once : ∀ other, ¬ HoldsTwice rackPairs other := by
    simp +contextual [HoldsTwice, rackPairs, Entries.names]
  obtain ⟨-, unread, -, first⟩ := readings_agree distinct
  have reported := (first "rack").mpr ⟨_, rfl, .intro twice once⟩
  obtain ⟨agree, none⟩ := (readings_agree distinct').1 _ rfl
  exact ⟨distinct, reported, (unread _ rfl).mpr (.inr ⟨_, reported⟩), distinct', none,
    (agree "rack").trans rfl⟩

end Racks

end OptionSchema.Value
