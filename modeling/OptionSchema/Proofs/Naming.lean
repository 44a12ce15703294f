import OptionSchema.Proofs.Value.Equality
import OptionSchema.Validation.Walk
/-!
# Reading a map by name and writing it back

The entries of a map are its pairs with each key read as a name, and what a walk puts in their place
stands under the very keys that were read. So walking a map is walking its entries, but for what is
written back.
-/
namespace OptionSchema

namespace Value

theorem identifier?_eq_of_beq {a b : Value} (h : (a == b) = true) :
    a.identifier? = b.identifier? := by
  by_cases scalar : a.isScalar = true
  · rw [eq_of_beq_scalar scalar h]
  · cases a <;> first | exact absurd rfl scalar | skip
    all_goals cases b <;> first | exact absurd h Bool.false_ne_true | rfl

theorem isScalar_of_identifier? {a : Value} {name : String} (h : a.identifier? = some name) :
    a.isScalar = true := by
  cases a <;> first | rfl | cases h

/-- The entry shows the pair with its key read as a name. -/
def NamedAs (pair : Value × Value) (entry : String × Value) : Prop :=
  pair.1.identifier? = some entry.1 ∧ pair.2 = entry.2

theorem namedEntries?_eq_some_iff {pairs : List (Value × Value)}
    {entries : List (String × Value)} :
    namedEntries? pairs = some entries ↔
      List.Forall₂ NamedAs pairs entries ∧ (Entries.names entries).Nodup := by
  induction pairs generalizing entries with
  | nil =>
    rw [namedEntries?, List.forall₂_nil_left_iff]
    constructor
    · intro h
      obtain rfl := Option.some.inj h
      exact ⟨rfl, .nil⟩
    · rintro ⟨rfl, -⟩
      rfl
  | cons pair pairs ih =>
    obtain ⟨key, value⟩ := pair
    rw [namedEntries?, List.forall₂_cons_left_iff]
    constructor
    · intro h
      cases hkey : key.identifier? with
      | none => simp [hkey] at h
      | some name =>
        cases hrest : namedEntries? pairs with
        | none => simp [hkey, hrest] at h
        | some rest =>
          simp only [hkey, hrest] at h
          split at h
          · cases h
          · rename_i hnew
            obtain rfl := Option.some.inj h
            obtain ⟨items, nodup⟩ := ih.mp hrest
            refine ⟨⟨(name, value), rest, ⟨hkey, rfl⟩, items, rfl⟩, ?_⟩
            exact Entries.nodup_names_cons.mpr ⟨hnew, nodup⟩
    · rintro ⟨⟨⟨name, held⟩, rest, ⟨hkey, hheld⟩, items, rfl⟩, nodup⟩
      have hkey : key.identifier? = some name := hkey
      obtain rfl : value = held := hheld
      obtain ⟨hnew, nodup⟩ := Entries.nodup_names_cons.mp nodup
      rw [hkey, ih.mpr ⟨items, nodup⟩]
      exact if_neg hnew

/-- The entries of a keyword list, or of a map whose keys are strings and atoms that name nothing
twice. -/
inductive Reads : Value → List (String × Value) → Prop where
  | keywords (entries : List (String × Value)) : Reads (.keywords entries) entries
  | map {pairs : List (Value × Value)} {entries : List (String × Value)}
      (named : List.Forall₂ NamedAs pairs entries) (once : (Entries.names entries).Nodup) :
      Reads (.map pairs) entries

theorem reads_iff {value : Value} {entries : List (String × Value)} :
    value.Reads entries ↔ value.entries? = some entries := by
  cases value with
  | keywords own =>
    constructor
    · rintro ⟨⟩
      rfl
    · intro h
      obtain rfl := Option.some.inj h
      exact .keywords own
  | map pairs =>
    rw [show (Value.map pairs).entries? = namedEntries? pairs from rfl, namedEntries?_eq_some_iff]
    constructor
    · rintro ⟨⟩
      exact ⟨‹_›, ‹_›⟩
    · exact fun h => .map h.1 h.2
  | _ =>
    constructor
    · rintro ⟨⟩
    · nofun

theorem entries?_proper {value : Value} {entries : List (String × Value)} (proper : value.Proper)
    (h : value.entries? = some entries) : ∀ entry ∈ entries, entry.2.Proper := by
  intro entry hentry
  cases reads_iff.mpr h with
  | keywords => exact proper.part (mem_parts_keywords hentry)
  | map named once =>
    obtain ⟨pair, hpair, -, heq⟩ := (Rearranged.of_forall₂ named).back hentry
    exact heq ▸ proper.part (mem_parts_map hpair).2

def entryOf? (pair : Value × Value) : Option (String × Value) :=
  pair.1.identifier?.map fun name => (name, pair.2)

theorem entryOf?_eq_some_iff {pair : Value × Value} {entry : String × Value} :
    entryOf? pair = some entry ↔ NamedAs pair entry := by
  obtain ⟨name, value⟩ := entry
  rw [entryOf?, NamedAs]
  cases pair.1.identifier? <;> simp

theorem namedEntries?_eq_mapM (pairs : List (Value × Value)) :
    namedEntries? pairs = (pairs.mapM entryOf?).bind fun entries =>
      if (Entries.names entries).Nodup then some entries else none := by
  apply Option.ext
  intro entries
  rw [namedEntries?_eq_some_iff, Option.bind_eq_some_iff]
  simp only [mapM_eq_some_iff, entryOf?_eq_some_iff]
  constructor
  · exact fun h => ⟨entries, h.1, if_pos h.2⟩
  · rintro ⟨found, items, h⟩
    split at h
    · rename_i nodup
      obtain rfl := Option.some.inj h
      exact ⟨items, nodup⟩
    · cases h

theorem names_perm {as bs : List (String × Value)} (h : Rearranged EntriesEqual as bs) :
    (Entries.names as).Perm (Entries.names bs) := by
  have names : Rearranged Eq (as.map (·.1)) (bs.map (·.1)) := h.map fun _ _ _ _ heq => heq.1
  exact names.perm

theorem namedEntries?_rel {as bs : List (Value × Value)} (h : Rearranged PairsEqual as bs) :
    Option.Rel (Rearranged EntriesEqual) (namedEntries? as) (namedEntries? bs) := by
  have named : Option.Rel (Rearranged EntriesEqual) (as.mapM entryOf?) (bs.mapM entryOf?) := by
    apply h.mapM_rel
    intro a _ b _ heq
    rw [entryOf?, entryOf?, identifier?_eq_of_beq heq.1]
    cases b.1.identifier? with
    | none => exact .none
    | some name => exact .some ⟨rfl, heq.2⟩
  rw [namedEntries?_eq_mapM, namedEntries?_eq_mapM]
  apply rel_bind named
  intro entries entries' _ _ heq
  by_cases nodup : (Entries.names entries).Nodup
  · rw [if_pos nodup, if_pos ((names_perm heq).nodup_iff.mp nodup)]
    exact .some heq
  · rw [if_neg nodup, if_neg fun nodup' => nodup ((names_perm heq).nodup_iff.mpr nodup')]
    exact .none

theorem entries?_rel {a b : Value} (h : EqualByParts a b) :
    Option.Rel (Rearranged EntriesEqual) a.entries? b.entries? := by
  cases h with
  | keywords h => exact .some h
  | map h => exact namedEntries?_rel h
  | scalar h => cases a <;> first | exact .none | exact absurd h Bool.false_ne_true
  | _ => exact .none

theorem firstRepeated?_eq_none_iff {seen names : List String} :
    firstRepeated? seen names = none ↔ names.Nodup ∧ ∀ name ∈ names, name ∉ seen := by
  induction names generalizing seen with
  | nil => simp [firstRepeated?]
  | cons name names ih =>
    rw [firstRepeated?, List.nodup_cons, List.forall_mem_cons]
    by_cases hseen : name ∈ seen
    · simp [hseen]
    · rw [if_neg hseen, ih]
      simp only [List.mem_cons, not_or, forall_and]
      constructor
      · rintro ⟨nodup, apart, fresh⟩
        exact ⟨⟨fun hmem => apart name hmem rfl, nodup⟩, hseen, fresh⟩
      · rintro ⟨⟨hnew, nodup⟩, -, fresh⟩
        refine ⟨nodup, ?_, fresh⟩
        rintro _ hmem rfl
        exact hnew hmem

theorem filterMap_identifier? {pairs : List (Value × Value)} {entries : List (String × Value)}
    (items : List.Forall₂ NamedAs pairs entries) :
    pairs.filterMap (·.1.identifier?) = Entries.names entries := by
  induction items with
  | nil => rfl
  | cons hnamed _ ih => simp [hnamed.1, ih, Entries.names]

theorem duplicateIdentifier?_eq_none {pairs : List (Value × Value)}
    {entries : List (String × Value)} (h : namedEntries? pairs = some entries) :
    (Value.map pairs).duplicateIdentifier? = none := by
  obtain ⟨items, nodup⟩ := namedEntries?_eq_some_iff.mp h
  rw [duplicateIdentifier?, filterMap_identifier? items, firstRepeated?_eq_none_iff]
  exact ⟨nodup, fun _ _ => List.not_mem_nil⟩

end Value

theorem Run.noted_eq {ε α β : Type} (n : Note) (run : Run ε α) (f : α → β) :
    (note n >>= fun _ => run >>= fun value => succeed (f value)) =
      ⟨run.outcome.map f, n :: run.journal⟩ := by
  obtain ⟨outcome, journal⟩ := run
  cases outcome with
  | error error => rfl
  | ok value => simp [bind_eq, Run.bind, note, succeed, Except.map]

namespace Schema

open Value

def restoredKey (pairs : List (Value × Value)) (name : String) : Value :=
  match pairs.find? fun pair => pair.1.identifier? == some name with
  | some pair => pair.1
  | none => .string name

variable {pairs : List (Value × Value)} {entries output : List (String × Value)} {name : String}

theorem restoreKeys_eq_map (pairs : List (Value × Value)) (output : List (String × Value)) :
    restoreKeys pairs output = output.map fun entry => (restoredKey pairs entry.1, entry.2) := rfl

theorem identifier?_restoredKey (pairs : List (Value × Value)) (name : String) :
    (restoredKey pairs name).identifier? = some name := by
  unfold restoredKey
  split
  · rename_i pair found
    simpa using List.find?_some found
  · rfl

theorem restoredKey_proper (pairs : List (Value × Value)) (name : String) :
    (restoredKey pairs name).Proper :=
  proper_of_scalar (isScalar_of_identifier? (identifier?_restoredKey pairs name))

theorem restoredKey_of_absent (h : ∀ pair ∈ pairs, pair.1.identifier? ≠ some name) :
    restoredKey pairs name = .string name := by
  have hfind : pairs.find? (fun pair => pair.1.identifier? == some name) = none :=
    List.find?_eq_none.mpr fun pair hpair => by simpa using h pair hpair
  rw [restoredKey, hfind]

theorem restoredKey_of_mem (h : namedEntries? pairs = some entries) {pair : Value × Value}
    (hpair : pair ∈ pairs) (hname : pair.1.identifier? = some name) :
    restoredKey pairs name = pair.1 := by
  obtain ⟨items, nodup⟩ := namedEntries?_eq_some_iff.mp h
  have hfind : pairs.find? (fun pair => pair.1.identifier? == some name) = some pair := by
    clear h
    induction items with
    | nil => cases hpair
    | @cons head entry rest entries hnamed items ih =>
      obtain ⟨hnew, nodup⟩ := Entries.nodup_names_cons.mp nodup
      rcases List.mem_cons.mp hpair with rfl | hpair
      · exact List.find?_cons_of_pos (by simp [hname])
      · obtain ⟨other, hother, hread⟩ := (Rearranged.of_forall₂ items).forth hpair
        have hne : head.1.identifier? ≠ some name := by
          intro heq
          have hsame := hnamed.1.symm.trans (heq.trans (hname.symm.trans hread.1))
          rw [Option.some.inj hsame] at hnew
          exact hnew (Entries.mem_names hother)
        rw [List.find?_cons_of_neg (by simpa using hne)]
        exact ih hpair nodup
  rw [restoredKey, hfind]

/-- A pair of a map that was read has a name, an entry under it, and is found by it. -/
theorem named_of_mem (h : namedEntries? pairs = some entries) {pair : Value × Value}
    (hpair : pair ∈ pairs) :
    ∃ name, pair.1.identifier? = some name ∧ (name, pair.2) ∈ entries ∧
      restoredKey pairs name = pair.1 := by
  have items := (namedEntries?_eq_some_iff.mp h).1
  obtain ⟨entry, hentry, hname, heq⟩ := (Rearranged.of_forall₂ items).forth hpair
  exact ⟨entry.1, hname, heq ▸ hentry, restoredKey_of_mem h hpair hname⟩

theorem restoredKey_of_new (h : namedEntries? pairs = some entries)
    (hnew : restoredKey pairs name ∉ Entries.names pairs) :
    name ∉ Entries.names entries ∧ restoredKey pairs name = .string name := by
  have absent : ∀ pair ∈ pairs, pair.1.identifier? ≠ some name := by
    intro pair hpair hname
    rw [restoredKey_of_mem h hpair hname] at hnew
    exact hnew (Entries.mem_names hpair)
  refine ⟨fun hname => ?_, restoredKey_of_absent absent⟩
  have items := (namedEntries?_eq_some_iff.mp h).1
  obtain ⟨entry, hentry, rfl⟩ := List.mem_map.mp hname
  obtain ⟨pair, hpair, hread, -⟩ := (Rearranged.of_forall₂ items).back hentry
  exact absent pair hpair hread

theorem mem_restoreKeys {pair : Value × Value} :
    pair ∈ restoreKeys pairs output ↔
      ∃ name, (name, pair.2) ∈ output ∧ restoredKey pairs name = pair.1 := by
  rw [restoreKeys_eq_map, List.mem_map]
  constructor
  · rintro ⟨⟨name, w⟩, hmem, rfl⟩
    exact ⟨name, hmem, rfl⟩
  · rintro ⟨name, hmem, hkey⟩
    exact ⟨(name, pair.2), hmem, Prod.ext hkey rfl⟩

theorem namedEntries?_restoreKeys (nodup : (Entries.names output).Nodup) :
    namedEntries? (restoreKeys pairs output) = some output := by
  rw [namedEntries?_eq_some_iff, restoreKeys_eq_map, List.forall₂_map_left_iff]
  exact ⟨List.forall₂_same.mpr fun entry _ => ⟨identifier?_restoredKey pairs entry.1, rfl⟩, nodup⟩

theorem distinct_restoreKeys (nodup : (Entries.names output).Nodup) :
    Entries.Distinct (restoreKeys pairs output) := by
  rw [restoreKeys_eq_map, Entries.Distinct, List.pairwise_map]
  refine (List.pairwise_map.mp nodup).imp fun {a b} hne => ?_
  by_contra h
  have same := identifier?_eq_of_beq (Bool.of_not_eq_false h)
  rw [identifier?_restoredKey, identifier?_restoredKey] at same
  exact hne (Option.some.inj same)

theorem restoredKey_beq {as bs : List (Value × Value)} {read read' : List (String × Value)}
    (h : Rearranged PairsEqual as bs) (hread : namedEntries? as = some read)
    (hread' : namedEntries? bs = some read') (name : String) :
    (restoredKey as name == restoredKey bs name) = true := by
  by_cases held : ∃ pair ∈ as, pair.1.identifier? = some name
  · obtain ⟨pair, hpair, hname⟩ := held
    obtain ⟨pair', hpair', heq⟩ := h.forth hpair
    have hname' := (identifier?_eq_of_beq heq.1).symm.trans hname
    rw [restoredKey_of_mem hread hpair hname, restoredKey_of_mem hread' hpair' hname']
    exact heq.1
  · have absent : ∀ pair ∈ as, pair.1.identifier? ≠ some name := fun pair hpair hname =>
      held ⟨pair, hpair, hname⟩
    have absent' : ∀ pair ∈ bs, pair.1.identifier? ≠ some name := by
      intro pair' hpair' hname'
      obtain ⟨pair, hpair, heq⟩ := h.back hpair'
      exact absent pair hpair ((identifier?_eq_of_beq heq.1).trans hname')
    rw [restoredKey_of_absent absent, restoredKey_of_absent absent']
    exact (proper_string name).beq_refl

section Walk

variable {schema : Schema} {enter : Enter} {ctx : Context} {value : Value}

theorem walk_keywords (schema : Schema) (enter : Enter) (entries : List (String × Value))
    (ctx : Context) : schema.walk enter (.keywords entries) ctx =
      ⟨(schema.walkEntries enter entries ctx).outcome.map .keywords,
        .entered schema (.keywords entries) ctx ::
          (schema.walkEntries enter entries ctx).journal⟩ :=
  Run.noted_eq _ _ _

theorem walk_map (reads : (Value.map pairs).entries? = some entries) :
    schema.walk enter (.map pairs) ctx =
      ⟨(schema.walkEntries enter entries ctx).outcome.map fun output =>
          .map (restoreKeys pairs output),
        .entered schema (.map pairs) ctx :: (schema.walkEntries enter entries ctx).journal⟩ := by
  rw [walk, walkMapping, duplicateIdentifier?_eq_none reads, reads]
  exact Run.noted_eq _ _ _

/-- What reads as entries is walked by these; only how the output is written back differs. -/
theorem walk_of_entries (reads : value.entries? = some entries) :
    ∃ write, schema.walk enter value ctx =
      ⟨(schema.walkEntries enter entries ctx).outcome.map write,
        .entered schema value ctx :: (schema.walkEntries enter entries ctx).journal⟩ := by
  cases value with
  | keywords own =>
    obtain rfl := Option.some.inj reads
    exact ⟨.keywords, walk_keywords ..⟩
  | map pairs => exact ⟨fun output => .map (restoreKeys pairs output), walk_map reads⟩
  | _ => cases reads

theorem walk_of_unread (unread : value.entries? = none) :
    ∃ failure : Failure, failure.kind = .shape ∧ failure.place = .root ∧ failure.path = .root ∧
      ∀ (schema : Schema) enter ctx, schema.walk enter value ctx =
        ⟨.error failure, [.entered schema value ctx]⟩ := by
  cases value with
  | keywords => cases unread
  | map pairs =>
    cases duplicate : (Value.map pairs).duplicateIdentifier? with
    | some name =>
      refine ⟨.ambiguousKey name (.map pairs), rfl, rfl, rfl, fun schema enter ctx => ?_⟩
      rw [walk, walkMapping, duplicate]
      rfl
    | none =>
      refine ⟨.notAMapping (.map pairs), rfl, rfl, rfl, fun schema enter ctx => ?_⟩
      rw [walk, walkMapping, duplicate, unread]
      rfl
  | _ => exact ⟨.notAMapping _, rfl, rfl, rfl, fun _ _ _ => rfl⟩

end Walk

end Schema

end OptionSchema
