import OptionSchema.Log
import OptionSchema.Proofs.Invariant
/-!
# The walk that a failure comes from

Contexts push a step onto their path on the way in, and failures gain one on the way out, in other
functions. The two agree: a validation that fails ends with the walk of some level which fails by
itself, and where that walk stands is what the path of the failure says. So the warning about a
deprecated key that was refused names the place where the failure says it was refused.
-/
namespace OptionSchema

variable {producers : Producers}

namespace Failure

variable {outer : Path} {place inner : Place} {ctx : Context} {failure : Failure}
  {segment : Segment} {before journal : List Note}

/-- The failure as the level that it arose in has reported it. -/
def unnested (failure : Failure) : Failure := { failure with path := .root }

theorem unnested_of_path (h : failure.path = .root) : failure.unnested = failure := by
  cases failure
  cases h
  rfl

/-- What has been noted ends with the walk of a level, at the path of the failure below `outer`,
that fails by itself with the failure. -/
def EndsAt (producers : Producers) (outer : Path) (failure : Failure) (journal : List Note) :
    Prop :=
  ∃ (level : Schema) (mapping : Value) (here : Context), here.path = outer ++ failure.path ∧
    (level.validate producers mapping here).outcome = .error failure.unnested ∧
    (level.validate producers mapping here).journal <:+ journal

/-- The failure is one of the place itself or comes from a walk below. -/
inductive ComesFrom (producers : Producers) (place : Place) (ctx : Context) (journal : List Note) :
    Failure → Prop where
  | here {failure : Failure} (path : failure.path = .root) (own : failure.place = place) :
      ComesFrom producers place ctx journal failure
  | below {failure : Failure} (h : failure.EndsAt producers (ctx.path.push place.segment) journal) :
      ComesFrom producers place ctx journal (failure.nest place.segment)

theorem EndsAt.append (h : failure.EndsAt producers outer journal) :
    failure.EndsAt producers outer (before ++ journal) := by
  obtain ⟨level, mapping, here, path, failed, last⟩ := h
  exact ⟨level, mapping, here, path, failed, last.trans (List.suffix_append before journal)⟩

theorem EndsAt.nest (h : failure.EndsAt producers (outer.push segment) journal) :
    (failure.nest segment).EndsAt producers outer journal := by
  obtain ⟨level, mapping, here, path, failed, last⟩ := h
  refine ⟨level, mapping, here, path.trans ?_, failed, last⟩
  rw [Path.push, List.append_assoc]
  rfl

theorem ComesFrom.append (h : failure.ComesFrom producers place ctx journal) :
    failure.ComesFrom producers place ctx (before ++ journal) := by
  cases h with
  | here path own => exact .here path own
  | below h => exact .below h.append

theorem ComesFrom.endsAt (h : failure.ComesFrom producers place ctx journal)
    (own : failure.path ≠ .root) : failure.EndsAt producers ctx.path journal := by
  cases h with
  | here path => exact absurd path own
  | below h => exact h.nest

theorem ComesFrom.within (h : failure.ComesFrom producers inner (ctx.step place.segment) journal)
    (noun : String) (composite : Value) :
    (failure.within noun place composite).ComesFrom producers place ctx journal := by
  rw [Failure.within]
  cases h with
  | here path =>
    rw [isNested, path]
    exact .here rfl rfl
  | below h => exact .below h.nest

end Failure

def endsWhereItFails (producers : Producers) : Invariant producers fun _ => True where
  matching place ctx error journal :=
    ∀ failure, error = some failure → failure.ComesFrom producers place ctx journal
  inside ctx error journal := ∀ failure, error = some failure →
    failure.path = .root ∨ failure.EndsAt producers ctx.path journal
  walking ctx error journal :=
    ∀ failure, error = some failure → failure.EndsAt producers ctx.path journal
  matching_sequential place ctx := ⟨nofun, fun _ h failure heq => (h failure heq).append⟩
  inside_sequential ctx := ⟨nofun, fun _ h failure heq => (h failure heq).imp_right .append⟩
  walking_sequential ctx := ⟨nofun, fun _ h failure heq => (h failure heq).append⟩
  own path place := by
    rintro _ ⟨⟩
    exact .here path place
  part noun composite h := by
    intro failure heq
    obtain ⟨inner, hinner, rfl⟩ := Option.map_eq_some_iff.mp heq
    exact (h inner hinner).within noun composite
  alternative _ _ _ _ _ := nofun
  exhausted value causes _ := by
    rintro _ ⟨⟩
    exact .here rfl rfl
  tooDeep place ctx := by
    rintro _ ⟨⟩
    exact .here rfl rfl
  nested h := by
    intro failure heq
    obtain ⟨inner, hinner, rfl⟩ := Option.map_eq_some_iff.mp heq
    exact .below (h inner hinner)
  item h := by
    intro failure heq
    obtain ⟨inner, hinner, rfl⟩ := Option.map_eq_some_iff.mp heq
    exact (h inner hinner).nest
  fault path := by
    rintro _ ⟨⟩
    exact .inl path
  warning _ _ _ := nofun
  key h failure heq := by
    by_cases own : failure.path = .root
    · exact .inl own
    · exact .inr ((h failure heq).endsAt own)
  entered _ _ _ := nofun
  walk {level value ctx} _ h := by
    intro failure heq
    rcases h failure heq with own | ends
    -- A failure of the level's own: this is the walk that has failed.
    · refine ⟨level, value, ctx, ?_, ?_, List.suffix_refl _⟩
      · rw [own]
        exact (List.append_nil _).symm
      · rw [Run.error?_eq_some.mp heq, Failure.unnested_of_path own]
    · exact ends

namespace Schema

variable {schema : Schema} {value : Value} {ctx : Context} {failure : Failure} {name : String}
  {spec : KeySpec} {advice : String} {enter : Enter} {input : List (String × Value)}

/-- Contributions fail at a key for which the first specification of its name has contributed. -/
theorem contributions_eq_error {contribute : String → KeySpec → Run Failure (Option Value)}
    {keys : List (String × KeySpec)}
    (failed : (contributions contribute keys).outcome = .error failure) :
    ∃ own spec, (own, spec) ∈ keys ∧ (contribute own spec).outcome = .error failure ∧
      ∀ first, keys.lookup own = some first → ∀ note ∈ (contribute own first).journal,
        note ∈ (contributions contribute keys).journal := by
  induction keys with
  | nil => cases failed
  | cons entry keys ih =>
    obtain ⟨name, spec⟩ := entry
    rw [contributions] at failed ⊢
    cases contributed : (contribute name spec).outcome with
    | error own =>
      rw [Run.bind_of_error contributed] at failed ⊢
      cases failed
      refine ⟨name, spec, List.mem_cons_self, contributed, fun first hfirst => ?_⟩
      rw [List.lookup_cons_self] at hfirst
      obtain rfl := Option.some.inj hfirst
      exact fun note hnote => hnote
    | ok given =>
      rw [Run.bind_of_ok contributed] at failed ⊢
      cases others : (contributions contribute keys).outcome with
      | ok entries =>
        rw [Run.bind_of_ok others] at failed
        cases given <;> cases failed
      | error later =>
        rw [Run.bind_of_error others] at failed ⊢
        cases failed
        obtain ⟨own, other, hmem, hfailed, hnotes⟩ := ih others
        refine ⟨own, other, List.mem_cons_of_mem _ hmem, hfailed, fun first hfirst note hnote => ?_⟩
        rw [List.lookup_cons] at hfirst
        -- The failing key may be a second one of a name; the first has then contributed before.
        by_cases hname : own = name
        · subst hname
          rw [beq_self_eq_true] at hfirst
          obtain rfl := Option.some.inj hfirst
          exact List.mem_append_left _ hnote
        · rw [beq_false_of_ne hname] at hfirst
          exact List.mem_append_right _ (hnotes first hfirst note hnote)

theorem walk_eq_error (reads : value.entries? = some input)
    (failed : (schema.walk enter value ctx).outcome = .error failure) :
    (schema.walkEntries enter input ctx).outcome = .error failure ∧
      ∀ note ∈ (schema.walkEntries enter input ctx).journal,
        note ∈ (schema.walk enter value ctx).journal := by
  obtain ⟨write, walked⟩ := walk_of_entries reads
  rw [walked] at failed ⊢
  refine ⟨?_, fun note hnote => List.mem_cons_of_mem _ hnote⟩
  cases hentries : (schema.walkEntries enter input ctx).outcome with
  | ok output =>
    rw [hentries] at failed
    cases failed
  | error own =>
    rw [hentries] at failed
    cases failed
    rfl

theorem deprecated_mem_contribute {held : Value} (given : input.lookup name = some held)
    (deprecated : spec.deprecated = some advice) :
    .deprecated name advice (ctx.path.pushKey name) ∈
      (spec.contribute enter input ctx name).journal := by
  rw [KeySpec.contribute, given, KeySpec.warn, deprecated]
  exact List.mem_cons_self

theorem place_of_contribute {remaining : Nat} {own : String}
    (hremaining : ctx.remaining = remaining) (h : (own, spec) ∈ schema.keys)
    (failed : (spec.contribute (Nested.enterWithin producers remaining) input ctx name).outcome =
      .error failure) (path : failure.path = .root) : failure.place = .key name := by
  let promise : Run.Promise Failure := fun error _ =>
    ∀ failure, error = some failure → failure.path = .root → failure.place = .key name
  have seq : promise.Sequential := ⟨nofun, fun _ h => h⟩
  have kept : (spec.contribute (Nested.enterWithin producers remaining) input ctx name).Keeps
      promise := by
    refine .contribute seq (fun _ => nofun) (fun _ _ => ?_) fun value => ?_
    · rintro _ ⟨⟩ -
      rfl
    · intro failure failed path
      have comes := (endsWhereItFails producers).keeps_checkKey trivial
        (fun nested _ => (endsWhereItFails producers).keepsInto remaining fun _ _ _ _ => trivial)
        rfl hremaining h value failure failed
      cases comes with
      | here _ own => exact own
      | below => cases path
  exact kept failure (Run.error?_eq_some.mpr failed) path

theorem deprecated_mem_validate (failed : (schema.validate producers value ctx).outcome =
      .error failure) (path : failure.path = .root) (refused : failure.place = .key name)
    (reads : value.entries? = some input) (given : name ∈ Entries.names input)
    (found : (schema.expand (Entries.names input)).find? name = some spec)
    (deprecated : spec.deprecated = some advice) :
    .deprecated name advice (ctx.path.pushKey name) ∈
      (schema.validate producers value ctx).journal := by
  obtain ⟨failed, noted⟩ := walk_eq_error reads failed
  apply noted
  rw [walkEntries] at failed ⊢
  cases hunknown : (schema.expand (Entries.names input)).undeclared (Entries.names input) with
  | cons other names =>
    rw [hunknown] at failed
    cases failed
    cases refused
  | nil =>
    rw [hunknown] at failed
    obtain ⟨own, other, hmem, hfailed, notes⟩ := contributions_eq_error failed
    obtain ⟨_, hown⟩ := mem_of_mem_expand hmem
    have hplace := place_of_contribute rfl hown hfailed path
    obtain rfl := Place.key.inj (hplace.symm.trans refused)
    obtain ⟨held, hheld⟩ := Entries.exists_lookup given
    exact notes spec found _ (deprecated_mem_contribute hheld deprecated)

end Schema

/-- A failure that names a key is that of a walk at its path, with which the run ends. If the key
was given there and is deprecated there, the log warns about it at that path. -/
theorem refused_key_is_at_failure_path (producers : Producers) (schema : Schema) (value : Value)
    (ctx : Context) (failure : Failure) (name : String)
    (failed : (schema.validate producers value ctx).outcome = .error failure)
    (refused : failure.place = .key name) :
    ∃ (level : Schema) (mapping : Value) (here : Context),
      here.path = ctx.path ++ failure.path ∧
      .entered level mapping here ∈ (schema.validate producers value ctx).journal ∧
      (level.validate producers mapping here).outcome = .error failure.unnested ∧
      (level.validate producers mapping here).journal <:+
        (schema.validate producers value ctx).journal ∧
      ∀ entries spec advice, mapping.entries? = some entries → name ∈ Entries.names entries →
        (level.expand (Entries.names entries)).find? name = some spec →
        spec.deprecated = some advice →
          ⟨"WARN", "'" ++ name ++ "' is deprecated. " ++ advice,
            [("key", Path.text (ctx.path ++ failure.path ++ [.key name]))]⟩ ∈
              (schema.validate producers value ctx).log := by
  obtain ⟨level, mapping, here, path, own, last⟩ := (endsWhereItFails producers).keeps_validate
    schema value ctx (fun _ _ => trivial) failure (Run.error?_eq_some.mpr failed)
  refine ⟨level, mapping, here, path, ?_, own, last, ?_⟩
  · exact last.subset List.mem_cons_self
  · intro entries spec advice reads given found deprecated
    have warned : .deprecated name advice (here.path.pushKey name) ∈
        (level.validate producers mapping here).journal :=
      Schema.deprecated_mem_validate own rfl refused reads given found deprecated
    refine List.mem_filterMap.mpr ⟨_, last.subset warned, ?_⟩
    rw [Note.line?, path]
    rfl

section Cluster

def nodeSchema : Schema :=
  ⟨[("port", { ty := .integer }),
    ("timeout", { ty := .integer, deprecated := some "use deadline" })]⟩

def clusterSchema : Schema :=
  ⟨[("zones", { ty := .listOf (.mapOf .string (.keyed .map (.inline nodeSchema))) })]⟩

def cluster : Value :=
  .keywords [("zones", .list [.map [],
    .map [(.string "db", .map [(.string "timeout", .atom "long"), (.string "port", .integer 1)])]])]

def clusterContext : Context := Context.new.step (.key "cluster")

theorem cluster_timeout_warned : ∃ failure,
    (clusterSchema.validate (fun _ => .empty) cluster clusterContext).outcome = .error failure ∧
      failure.path = [.key "zones", .index 1, .key "db"] ∧ failure.place = .key "timeout" ∧
      (∃ level mapping here,
        here.path = [.key "cluster", .key "zones", .index 1, .key "db"] ∧
        .entered level mapping here ∈
          (clusterSchema.validate (fun _ => .empty) cluster clusterContext).journal ∧
        (level.validate (fun _ => .empty) mapping here).outcome = .error failure.unnested) ∧
      ⟨"WARN", "'timeout' is deprecated. use deadline",
        [("key", "cluster.zones[1].db.timeout")]⟩ ∈
          (clusterSchema.validate (fun _ => .empty) cluster clusterContext).log := by
  have failed : (clusterSchema.validate (fun _ => .empty) cluster clusterContext).outcome =
      .error _ := rfl
  obtain ⟨level, mapping, here, path, entered, own, -, warned⟩ := refused_key_is_at_failure_path
    (fun _ => .empty) clusterSchema cluster clusterContext _ "timeout" failed rfl
  refine ⟨_, failed, rfl, rfl, ⟨level, mapping, here, path, entered, own⟩, ?_⟩
  have walks : (clusterSchema.validate (fun _ => .empty) cluster clusterContext).journal =
      [.entered clusterSchema cluster clusterContext, .entered nodeSchema _ _, .deprecated ..] :=
    rfl
  rw [walks] at entered
  rcases List.mem_cons.mp entered with heq | entered
  · cases heq
    cases path
  · rcases List.mem_cons.mp entered with heq | entered
    · cases heq
      exact warned _ _ _ rfl (by decide) rfl rfl
    · cases List.mem_singleton.mp entered

end Cluster

end OptionSchema
