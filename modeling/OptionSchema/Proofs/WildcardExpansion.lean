import OptionSchema.Proofs.OutputProper
import OptionSchema.Proofs.Refusal
/-!
# What the wildcard does to a level

A level with a wildcard is walked as if each key that is given without a specification of its own
had been declared, with the specification of the wildcard. The name of the wildcard is then a key
like any other: it counts if it is given, and not otherwise.
-/
namespace OptionSchema

variable {producers : Producers} {levels : Nat} {failure : Failure} {place : Place} {value : Value}
  {ctx : Context}

theorem Nested.kind_of_enterWithin {nested : Nested}
    (failed : (Nested.enterWithin producers levels nested place value ctx).outcome =
      .error failure) (own : failure.path = .root) : failure.kind ≠ .unknownKeys := by
  cases levels with
  | zero =>
    cases failed
    nofun
  | succ levels =>
    rcases Nested.enterWithin_succ producers levels nested place value rfl with
      ⟨name, -, fails⟩ | ⟨next, -, walks⟩
    · rw [fails] at failed
      cases failed
      nofun
    · rw [walks] at failed
      obtain ⟨inner, -, rfl⟩ := Run.mapError_eq_error failed
      cases own

theorem Ty.kind_of_check {ty : Ty}
    (failed : (ty.check (Nested.enterWithin producers levels) place value ctx).outcome =
      .error failure) (own : failure.path = .root) : failure.kind ≠ .unknownKeys := by
  induction ty using parts_induction generalizing place value ctx failure with
  | step ty ih =>
    cases refuses_of_check failed with
    | mismatch => nofun
    | refused => nofun
    | exhausted => nofun
    | part hsub hitem hnoun stopped =>
      rename_i cause
      by_cases root : cause.path = .root
      · have kind : cause.kind ≠ .unknownKeys := ih _ hsub stopped root
        rwa [Failure.within_of_own root]
      · rw [Failure.within_of_nested root] at own
        cases own
    | container stopped => exact ih _ (by simp [parts]) stopped own
    | onward stopped => exact Nested.kind_of_enterWithin stopped own

theorem KeySpec.kind_of_contribute {spec : KeySpec} {input : List (String × Value)} {name : String}
    (failed : (spec.contribute (Nested.enterWithin producers levels) input ctx name).outcome =
      .error failure) (own : failure.path = .root) : failure.kind ≠ .unknownKeys := by
  rcases contribute_eq_error failed with rfl | ⟨held, -, failed⟩
  · nofun
  rcases Run.bind_eq_error failed with failed | ⟨matched, -, failed⟩
  · exact Ty.kind_of_check failed own
  · cases hnested : spec.nested with
    | none =>
      rw [hnested] at failed
      cases failed
    | some nested =>
      rw [hnested] at failed
      exact Nested.kind_of_enterWithin failed own

namespace KeySpec

variable {onward : Onward} {input : List (String × Value)} {keys : List (String × KeySpec)}

def hasCandidate (input : List (String × Value)) (name : String) (spec : KeySpec) : Bool :=
  name ∈ Entries.names input || spec.default.isSome

theorem names_contributions {given : List (Option (String × Value))}
    (h : keys.mapM (contribution onward input) = some given) :
    Entries.names (given.filterMap id) =
      Entries.names (keys.filter fun key => key.2.hasCandidate input key.1) := by
  have each := mapM_eq_some_iff.mp h
  clear h
  induction each with
  | nil => rfl
  | @cons key contributed keys given hkey _ ih =>
    rcases contribution_eq_some hkey with ⟨hnone, rfl⟩ | ⟨value, w, hcandidate, -, rfl⟩
    · obtain ⟨absent, -, undefaulted⟩ := candidate?_eq_none hnone
      rw [List.filter_cons, if_neg (by simp [hasCandidate, absent, undefaulted])]
      exact ih
    · have present : key.2.hasCandidate input key.1 = true := by
        rcases candidate?_eq_some hcandidate with hgiven | ⟨-, hdefault⟩
        · simp [hasCandidate, Entries.mem_names hgiven]
        · simp [hasCandidate, hdefault]
      rw [List.filter_cons, if_pos present]
      exact congrArg (key.1 :: ·) ih

end KeySpec

namespace Schema

theorem contributions_congr {contribute : String → KeySpec → Run Failure (Option Value)}
    {keys others : List (String × KeySpec)} (names : Entries.names keys = Entries.names others)
    (each : ∀ name spec other, (name, spec) ∈ keys → (name, other) ∈ others →
      contribute name spec = contribute name other) :
    contributions contribute keys = contributions contribute others := by
  induction keys generalizing others with
  | nil =>
    cases others with
    | nil => rfl
    | cons => cases names
  | cons key keys ih =>
    obtain ⟨name, spec⟩ := key
    cases others with
    | nil => cases names
    | cons head others =>
      obtain ⟨own, other⟩ := head
      have rest : Entries.names keys = Entries.names others := (List.cons.inj names).2
      obtain rfl : name = own := (List.cons.inj names).1
      have later := ih rest fun name spec other h h' =>
        each name spec other (List.mem_cons_of_mem _ h) (List.mem_cons_of_mem _ h')
      rw [contributions, contributions, later, each name spec other List.mem_cons_self
        List.mem_cons_self]

variable {schema : Schema} {wild : KeySpec} {enter : Enter}

theorem mem_names_iff {name : String} : name ∈ schema.names ↔ (schema.find? name).isSome := by
  rw [Option.isSome_iff_ne_none, ne_eq, find?, Entries.lookup_eq_none, not_not, names]

theorem mem_unnamed_iff {observed : List String} {name : String} :
    name ∈ schema.unnamed observed ↔
      name ∈ observed ∧ (name ∉ schema.names ∨ name = wildcardName) := by
  rw [mem_unnamed, mem_names_iff, or_comm]
  cases schema.find? name <;> simp

/-- The named keys keep their order; the others follow, as each is observed first. -/
theorem names_expand (once : schema.names.Nodup) (declared : schema.wildcard? = some wild)
    (observed : List String) :
    (schema.expand observed).names = schema.names.filter (· != wildcardName) ++
      (schema.unnamed observed).eraseDups := by
  have named : Entries.names (schema.keys.filter fun entry => entry.1 != wildcardName) =
      schema.names.filter (· != wildcardName) := Entries.names_filter fun _ _ => rfl
  have others : Entries.names ((schema.unnamed observed).map fun name => (name, wild)) =
      schema.unnamed observed := by
    rw [Entries.names, List.map_map]
    exact List.map_id _
  have apart : (schema.unnamed observed).removeAll (schema.names.filter (· != wildcardName)) =
      schema.unnamed observed := by
    rw [List.removeAll, List.filter_eq_self]
    intro name hname
    rcases (mem_unnamed_iff.mp hname).2 with absent | rfl
    · simp [absent]
    · simp
  simp only [expand, declared, names, ofList]
  rw [Entries.names_ofList, Entries.names, List.map_append]
  change (Entries.names _ ++ Entries.names _).eraseDups = _
  rw [named, others, List.eraseDups_append, apart, Entries.eraseDups_of_nodup (once.filter _)]
  rfl

/-- A key has its own specification if it is named, and the wildcard's if it is observed only. -/
theorem find?_expand_of_wildcard (once : schema.names.Nodup)
    (declared : schema.wildcard? = some wild) (observed : List String) (name : String) :
    (schema.expand observed).find? name =
      if name ∈ schema.names ∧ name ≠ wildcardName then schema.find? name
      else if name ∈ observed then some wild else none := by
  rw [find?_expand once]
  by_cases own : name ∈ schema.names ∧ name ≠ wildcardName
  · obtain ⟨spec, hspec⟩ := Option.isSome_iff_exists.mp (mem_names_iff.mp own.1)
    rw [if_pos own, specFor?_of_find? hspec, hspec, if_neg own.2, ite_self]
  · have others : schema.specFor? name = some wild := by
      by_cases hname : name = wildcardName
      · rw [hname, specFor?, ← wildcard?, declared, Option.some_or]
      · have absent : ¬ name ∈ schema.names := fun h => own ⟨h, hname⟩
        rw [mem_names_iff, Option.not_isSome_iff_eq_none] at absent
        rw [specFor?, absent, declared, Option.none_or]
    rw [if_neg own, others]
    by_cases hname : name = wildcardName
    · rw [if_pos hname]
    · have absent : ¬ name ∈ schema.names := fun h => own ⟨h, hname⟩
      rw [mem_names_iff, Option.not_isSome_iff_eq_none] at absent
      rw [if_neg hname, absent]

theorem walkEntries_of_wildcard (declared : schema.wildcard? = some wild)
    (input : List (String × Value)) : schema.walkEntries enter input ctx =
      contributions (KeySpec.contribute enter input ctx)
        (schema.expand (Entries.names input)).keys := by
  have known : (schema.expand (Entries.names input)).undeclared (Entries.names input) = [] := by
    rw [undeclared_expand, List.filter_eq_nil_iff]
    intro name _
    rw [specFor?, declared]
    cases schema.find? name <;> simp
  rw [walkEntries, known]

theorem walkEntries_insert_wildcard (once : schema.names.Nodup)
    (declared : schema.wildcard? = some wild) (input : List (String × Value)) (required : Bool)
    (default : Option Value) :
    (schema.insert wildcardName { wild with required, default }).walkEntries enter input ctx =
      schema.walkEntries enter input ctx := by
  generalize hother : schema.insert wildcardName { wild with required, default } = other
  have names : other.names = schema.names := by
    have named : wildcardName ∈ Entries.names schema.keys :=
      Entries.mem_names (Entries.mem_of_lookup declared)
    rw [← hother, insert, Schema.names, Entries.names_insert, if_pos named, Schema.names]
  have wildcard : other.wildcard? = some { wild with required, default } := by
    rw [← hother]
    exact Entries.lookup_insert_self _ _ _
  have find : ∀ name, name ≠ wildcardName → other.find? name = schema.find? name := by
    intro name hname
    rw [← hother]
    exact Entries.lookup_insert_of_ne _ _ hname
  have unnamed : other.unnamed (Entries.names input) = schema.unnamed (Entries.names input) := by
    refine List.filter_congr fun name _ => ?_
    by_cases hname : name = wildcardName
    · simp [hname]
    · rw [find name hname]
  have otherOnce : other.names.Nodup := names ▸ once
  rw [walkEntries_of_wildcard declared, walkEntries_of_wildcard wildcard]
  apply contributions_congr
  · have expanded := names_expand otherOnce wildcard (Entries.names input)
    rw [names, unnamed, ← names_expand once declared] at expanded
    exact expanded
  · intro name spec own h h'
    rcases (mem_expand_iff otherOnce).mp h with ⟨hname, hspec⟩ | ⟨hname, hspec⟩
    · rcases (mem_expand_iff once).mp h' with ⟨-, hown⟩ | ⟨hunnamed, -⟩
      · rw [find name hname, hown] at hspec
        rw [Option.some.inj hspec]
      · have absent := (mem_unnamed.mp hunnamed).2.resolve_left hname
        rw [find name hname, absent] at hspec
        cases hspec
    · rcases (mem_expand_iff once).mp h' with ⟨hne, hown⟩ | ⟨hunnamed, hown⟩
      · have absent := (mem_unnamed.mp hname).2.resolve_left hne
        rw [find name hne, hown] at absent
        cases absent
      -- The name is given, so neither the presence nor the default of the key is asked for.
      · obtain ⟨value, hvalue⟩ := Entries.exists_lookup (mem_unnamed.mp hunnamed).1
        obtain rfl := Option.some.inj (wildcard.symm.trans hspec)
        obtain rfl := Option.some.inj (declared.symm.trans hown)
        rw [KeySpec.contribute, KeySpec.contribute, hvalue]
        rfl

/-- The keys with an entry in the output: the given ones, and the named ones with a default. -/
theorem names_output (once : schema.names.Nodup) {input output : List (String × Value)}
    (returned : (schema.walkEntries (Nested.enterWithin producers levels) input ctx).outcome =
      .ok output) :
    Entries.names output = (schema.expand (Entries.names input)).names.filter fun name =>
      name ∈ Entries.names input || (schema.find? name).any (·.default.isSome) := by
  have result := outputEntries_of_walkEntries returned
  obtain ⟨-, given, hgiven, rfl⟩ := (outputEntries_eq_some once).mp result
  rw [KeySpec.names_contributions hgiven]
  refine Entries.names_filter fun key hkey => ?_
  obtain ⟨name, spec⟩ := key
  by_cases hname : name ∈ Entries.names input
  · simp [KeySpec.hasCandidate, hname]
  · have own := ((mem_expand_of_absent once hname).mp hkey).2
    simp [KeySpec.hasCandidate, hname, own]

end Schema

/-- Expanding the wildcard gives each key its own specification or else the wildcard's, if it is
given; named keys come first, the others as they are observed. So a level with a wildcard never
reports unknown keys, and matches each given key against one specification. What the wildcard says
of keys that are not given does not matter, and the output keeps the order. -/
theorem wildcard_expansion_exact (producers : Producers) (levels : Nat) (schema : Schema)
    (wild : KeySpec) (once : schema.names.Nodup) (declared : schema.wildcard? = some wild) :
    (∀ observed,
      (∀ name, (schema.expand observed).find? name =
        if name ∈ schema.names ∧ name ≠ Schema.wildcardName then schema.find? name
        else if name ∈ observed then some wild else none) ∧
      (schema.expand observed).names = schema.names.filter (· != Schema.wildcardName) ++
        (observed.filter fun name =>
          name ∉ schema.names ∨ name = Schema.wildcardName).eraseDups) ∧
    ∀ input (ctx : Context),
      let enter := Nested.enterWithin producers levels
      let expanded := schema.expand (Entries.names input)
      let run := schema.walkEntries enter input ctx
      (∀ failure, run.outcome = .error failure → failure.path = .root →
        failure.kind ≠ .unknownKeys) ∧
      run = Schema.contributions (KeySpec.contribute enter input ctx) expanded.keys ∧
      (∀ name ∈ Entries.names input, expanded.keys.filter (fun key => key.1 == name) =
        [(name, (schema.find? name).getD wild)]) ∧
      (∀ required default, (schema.insert Schema.wildcardName
        { wild with required, default }).walkEntries enter input ctx = run) ∧
      ∀ output, run.outcome = .ok output →
        Entries.names output = expanded.names.filter fun name =>
          name ∈ Entries.names input || (schema.find? name).any (·.default.isSome) := by
  refine ⟨fun observed => ⟨Schema.find?_expand_of_wildcard once declared observed, ?_⟩,
    fun input ctx => ⟨fun failure failed own => ?_, Schema.walkEntries_of_wildcard declared input,
      fun name given => ?_, Schema.walkEntries_insert_wildcard once declared input,
      fun output => Schema.names_output once⟩⟩
  · have others : schema.unnamed observed = observed.filter fun name =>
        name ∉ schema.names ∨ name = Schema.wildcardName := by
      refine List.filter_congr fun name _ => ?_
      rw [Bool.eq_iff_iff]
      cases found : schema.find? name <;> simp [Schema.mem_names_iff, found]
    rw [Schema.names_expand once declared, others]
  · rw [Schema.walkEntries_of_wildcard declared] at failed
    obtain ⟨-, name, spec, -, -, -, failed⟩ := Schema.contributions_stop failed
    exact KeySpec.kind_of_contribute failed own
  · refine Entries.filter_name (Schema.nodup_names_expand once _) ?_
    rw [Schema.mem_expand_of_observed once given, Schema.specFor?, declared]
    cases schema.find? name <;> rfl

section Zones

def zonesSchema : Schema :=
  ⟨[("*", { ty := .string, required := true, default := some (.string "nowhere") }),
    ("port", { ty := .posInteger, default := some (.integer 80) }),
    ("host", { ty := .string, required := true })]⟩

def zones : List (String × Value) :=
  [("eu", .string "a"), ("*", .string "b"), ("host", .string "c")]

theorem zones_walked : ∃ output,
    (zonesSchema.walkEntries (Nested.enterWithin (fun _ => .empty) 1) zones .new).outcome =
      .ok output ∧
    Entries.names output = ["port", "host", "eu", "*"] ∧
    (zonesSchema.expand ["eu", "*", "us", "eu"]).names = ["port", "host", "eu", "*", "us"] := by
  obtain ⟨expanded, walked⟩ := wildcard_expansion_exact (fun _ => .empty) 1 zonesSchema _
    (by decide) rfl
  have returned : (zonesSchema.walkEntries (Nested.enterWithin (fun _ => .empty) 1) zones
      .new).outcome = .ok _ := rfl
  refine ⟨_, returned, ?_, (expanded _).2.trans (by decide)⟩
  exact ((walked zones .new).2.2.2.2 _ returned).trans rfl

end Zones

end OptionSchema
