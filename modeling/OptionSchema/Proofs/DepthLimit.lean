import OptionSchema.Proofs.Invariant
import OptionSchema.Proofs.Widening
/-!
# The depth limit

A larger limit accepts no less. Another alternative of a union may then be the first to match, but
below it the same holds, and what a level passes on does not depend on what lies below.

Where the limit is reached, the validation fails for that reason, with one exception: a union takes
the failure of an alternative for a mismatch, and goes on to the next one. So reaching the limit is
never silent where no nested schema stands inside a union.
-/
namespace OptionSchema

variable {producers : Producers}

theorem Nested.isSome_output_of_le {resolve : Resolver} {levels more : Nat} (le : levels ≤ more)
    {nested : Nested}
    (keyed : ∀ next, resolve nested = some next → next.EveryLevel resolve Schema.WellKeyed)
    {value : Value} (accepted : (Nested.output resolve levels nested value).isSome) :
    (Nested.output resolve more nested value).isSome := by
  induction levels generalizing more nested value with
  | zero => cases accepted
  | succ levels ih =>
    obtain ⟨more, rfl⟩ : ∃ fewer, more = fewer + 1 := Nat.exists_eq_add_one.mpr (by omega)
    rw [Nested.output] at accepted ⊢
    cases hresolve : resolve nested with
    | none => rw [hresolve] at accepted; cases accepted
    | some next =>
      rw [hresolve, Option.bind_some] at accepted
      rw [Option.bind_some]
      have every := keyed next hresolve
      refine Schema.isSome_outputNested_of_mapping (fun mapping => ?_) accepted
      refine Schema.isSome_outputMapping_of_mentions every.self fun inner mention held => ?_
      exact ih (Nat.le_of_succ_le_succ le) fun other resolved => every.nested mention resolved

/-- Raising the depth limit rejects nothing that was accepted. -/
theorem larger_limit_accepts (producers : Producers) (schema : Schema) (value : Value)
    (ctx : Context) (passes : schema.EveryLevel (ctx.resolver producers) (·.Passes producers))
    {m n : Nat} (le : m ≤ n)
    (accepted : ∃ output,
      (schema.validate producers value (ctx.withMaxDepth m)).outcome = .ok output) :
    ∃ output, (schema.validate producers value (ctx.withMaxDepth n)).outcome = .ok output := by
  simp only [← Run.result?_eq_some, ← Option.isSome_iff_exists, Schema.result?_validate]
    at accepted ⊢
  have keyed : schema.EveryLevel (ctx.resolver producers) Schema.WellKeyed :=
    fun level reached => (passes level reached).wellKeyed
  have remaining : (ctx.withMaxDepth m).remaining ≤ (ctx.withMaxDepth n).remaining :=
    Nat.sub_le_sub_right le ctx.depth
  refine Schema.isSome_outputMapping_of_mentions keyed.self (fun nested mention held => ?_) accepted
  exact Nested.isSome_output_of_le remaining fun next resolved => keyed.nested mention resolved

def folderSchema : Schema :=
  ⟨[("size", { ty := .integer, default := some (.integer 0) }),
    ("inner", { ty := .union [.keyed .map (.ref "folder"), .map] })]⟩

def folders : Context :=
  Context.new.withRegistry ⟨{ schemas := [("folder", folderSchema)] }, defaultMaxDepth⟩

theorem folderSchema_mentions {nested : Nested} (h : folderSchema.Mentions nested) :
    nested = .ref "folder" := by
  simpa [Schema.mentions_iff, folderSchema, Schema.types, Ty.subterms, Ty.subtermsOfAll] using h

theorem folderSchema_everyLevel {P : Schema → Prop} (folder : P folderSchema) :
    folderSchema.EveryLevel (folders.resolver producers) P := by
  intro level reached
  generalize hschema : folderSchema = schema at reached
  induction reached with
  | refl => exact hschema ▸ folder
  | step mention resolved _ ih =>
    subst hschema
    rw [folderSchema_mentions mention] at resolved
    exact ih (Option.some.inj resolved)

/-- With no level to go the inner folder is taken for any map; with one more it gets its size. -/
theorem folder_accepted_above :
    let run := folderSchema.validate (fun _ => .empty) (.keywords [("inner", .map [])])
      (folders.withMaxDepth 0)
    let other := folderSchema.validate (fun _ => .empty) (.keywords [("inner", .map [])])
      (folders.withMaxDepth 1)
    run.outcome = .ok (.keywords [("size", .integer 0), ("inner", .map [])]) ∧
      other.outcome ≠ run.outcome ∧ ∃ output, other.outcome = .ok output := by
  intro run other
  have ok : run.outcome = .ok _ := rfl
  have inner : other.outcome = .ok (.keywords [("size", .integer 0),
    ("inner", .map [(.string "size", .integer 0)])]) := rfl
  refine ⟨ok, ?_, larger_limit_accepts (fun _ => .empty) folderSchema _ folders
    (folderSchema_everyLevel rfl) (Nat.zero_le 1) ⟨_, ok⟩⟩
  rw [inner, ok]
  simp

/-- The limit was reached in an alternative of a union, which failed for that reason. -/
inductive Note.LostInUnion (producers : Producers) (levels : Schema → Prop) (note : Note)
    (journal : List Note) : Prop where
  | intro {level : Schema} {alternatives : List Ty} {ty : Ty} {place : Place} {value : Value}
      {ctx : Context} {failure : Failure} (among : levels level)
      (union : .union alternatives ∈ level.types) (alternative : ty ∈ alternatives)
      (failed : (ty.check (Nested.enterWithin producers ctx.remaining) place value ctx).outcome =
        .error failure)
      (kind : failure.kind = .depthLimit)
      (met : note ∈ (ty.check (Nested.enterWithin producers ctx.remaining) place value ctx).journal)
      (during : (ty.check (Nested.enterWithin producers ctx.remaining) place value ctx).journal <:+:
        journal)

theorem Note.LostInUnion.mono {levels : Schema → Prop} {note : Note} {journal longer : List Note}
    (h : note.LostInUnion producers levels journal) (le : journal <:+: longer) :
    note.LostInUnion producers levels longer := by
  obtain ⟨among, union, alternative, failed, kind, met, during⟩ := h
  exact ⟨among, union, alternative, failed, kind, met, during.trans le⟩

/-- Wherever the limit has been reached, a run fails for that reason, or the note of it is lost in a
union. -/
def LimitKept (producers : Producers) (levels : Schema → Prop) : Run.Promise Failure :=
  fun error journal => ∀ place here, .limitReached place here ∈ journal →
    (∃ failure, error = some failure ∧ failure.kind = .depthLimit) ∨
      (Note.limitReached place here).LostInUnion producers levels journal

namespace LimitKept

variable {levels : Schema → Prop} {error : Option Failure} {journal : List Note}

theorem of_none (h : LimitKept producers levels none journal) :
    LimitKept producers levels error journal := by
  intro place here hmem
  rcases h place here hmem with ⟨_, failed, _⟩ | lost
  · cases failed
  · exact .inr lost

theorem sequential (producers : Producers) (levels : Schema → Prop) :
    (LimitKept producers levels).Sequential where
  nothing _ _ hmem := nomatch hmem
  append {before error journal} first second place here hmem := by
    rcases List.mem_append.mp hmem with hmem | hmem
    · exact (first.of_none place here hmem).imp_right fun lost =>
        lost.mono (List.infix_append_left ..)
    · exact (second place here hmem).imp_right fun lost => lost.mono (List.infix_append_right ..)

theorem map {f : Failure → Failure} (kind : ∀ failure, (f failure).kind = failure.kind)
    (h : LimitKept producers levels error journal) :
    LimitKept producers levels (error.map f) journal := by
  intro place here hmem
  refine (h place here hmem).imp_left ?_
  rintro ⟨failure, rfl, limit⟩
  exact ⟨f failure, rfl, (kind failure).trans limit⟩

end LimitKept

theorem Failure.kind_within (failure : Failure) (noun : String) (place : Place)
    (composite : Value) : (failure.within noun place composite).kind = failure.kind := by
  rw [within]
  split <;> rfl

def keepsLimit (producers : Producers) (levels : Schema → Prop) : Invariant producers levels where
  matching _ _ := LimitKept producers levels
  inside _ := LimitKept producers levels
  walking _ := LimitKept producers levels
  matching_sequential _ _ := LimitKept.sequential producers levels
  inside_sequential _ := LimitKept.sequential producers levels
  walking_sequential _ := LimitKept.sequential producers levels
  own _ _ _ _ hmem := nomatch hmem
  part noun composite := .map fun failure => failure.kind_within noun _ composite
  alternative among union alternative failed kept place here hmem := by
    rcases kept place here hmem with ⟨failure, heq, limit⟩ | lost
    -- Here the failure is dropped for the next alternative, so this is the trial that lost it.
    · exact .inr ⟨among, union, alternative, Run.error?_eq_some.mp heq, limit, hmem, List.infix_rfl⟩
    · exact .inr lost
  exhausted _ _ := .of_none
  tooDeep place ctx _ _ _ := .inl ⟨.tooDeep ctx.maxDepth place, rfl, rfl⟩
  nested := .map fun _ => rfl
  item := .map fun _ => rfl
  fault _ _ _ hmem := nomatch hmem
  warning _ _ _ _ _ hmem := nomatch List.mem_singleton.mp hmem
  key h := h
  entered _ _ _ _ _ hmem := nomatch List.mem_singleton.mp hmem
  walk _ h := h

theorem Schema.limitKept_validate (schema : Schema) (value : Value) (ctx : Context) :
    (schema.validate producers value ctx).Keeps
      (LimitKept producers (schema.Reaches (ctx.resolver producers))) :=
  (keepsLimit producers (schema.Reaches (ctx.resolver producers))).keeps_validate schema value ctx
    fun _ among => among

/-- Where the depth limit is reached, the validation fails for that reason, unless an alternative of
a union does so first. -/
theorem limit_reached_fails_or_is_lost (producers : Producers) (schema : Schema) (value : Value)
    (ctx : Context) (place : Place) (here : Context)
    (reached : .limitReached place here ∈ (schema.validate producers value ctx).journal) :
    (∃ failure, (schema.validate producers value ctx).outcome = .error failure ∧
      failure.kind = .depthLimit) ∨
    (Note.limitReached place here).LostInUnion producers
      (schema.Reaches (ctx.resolver producers)) (schema.validate producers value ctx).journal := by
  refine (schema.limitKept_validate value ctx place here reached).imp_left ?_
  rintro ⟨failure, failed, limit⟩
  exact ⟨failure, Run.error?_eq_some.mp failed, limit⟩

def oversized : Value :=
  .keywords [("inner", .map [(.string "inner", .map [(.string "size", .string "huge")])])]

theorem folder_limit_lost :
    let run := folderSchema.validate (fun _ => .empty) oversized (folders.withMaxDepth 1)
    ∃ here, .limitReached (.key "inner") here ∈ run.journal ∧
      (∃ output, run.outcome = .ok output) ∧
      (Note.limitReached (.key "inner") here).LostInUnion (fun _ => .empty)
        (folderSchema.Reaches ((folders.withMaxDepth 1).resolver fun _ => .empty)) run.journal := by
  intro run
  have ok : run.outcome = .ok _ := rfl
  have reached : .limitReached (.key "inner") _ ∈ run.journal :=
    List.mem_cons_of_mem _ (List.mem_cons_of_mem _ List.mem_cons_self)
  refine ⟨_, reached, ⟨_, ok⟩, ?_⟩
  rcases limit_reached_fails_or_is_lost (fun _ => .empty) folderSchema oversized
    (folders.withMaxDepth 1) _ _ reached with ⟨failure, failed, -⟩ | lost
  · cases ok.symm.trans failed
  · exact lost

/-- The size of the innermost folder is refused neither for what it is nor for where it is. -/
theorem limit_passed_silently : ¬ ∀ (producers : Producers) (schema : Schema) (value : Value)
    (ctx : Context), schema.EveryLevel (ctx.resolver producers) (·.Passes producers) →
      ∀ place here, .limitReached place here ∈ (schema.validate producers value ctx).journal →
        ∃ failure, (schema.validate producers value ctx).outcome = .error failure ∧
          failure.kind = .depthLimit := by
  intro claim
  have ok : (folderSchema.validate (fun _ => .empty) oversized (folders.withMaxDepth 1)).outcome =
      .ok _ := rfl
  obtain ⟨failure, failed, -⟩ := claim (fun _ => .empty) folderSchema oversized
    (folders.withMaxDepth 1) (folderSchema_everyLevel rfl) (.key "inner") _
    (List.mem_cons_of_mem _ (List.mem_cons_of_mem _ List.mem_cons_self))
  cases ok.symm.trans failed

def notesNothing (producers : Producers) : MatchInvariant producers fun _ => True where
  matching _ _ _ journal := journal = []
  matching_sequential _ _ := ⟨rfl, by rintro _ _ _ rfl rfl; rfl⟩
  own _ _ := rfl
  part _ _ h := h
  alternative _ _ _ _ h := h
  exhausted _ _ h := h

theorem Ty.journal_check_eq_nil {ty : Ty}
    (flat : ∀ container nested, .keyed container nested ∉ ty.subterms) (place : Place)
    (value : Value) (ctx : Context) :
    (ty.check (Nested.enterWithin producers ctx.remaining) place value ctx).journal = [] := by
  let level : Schema := ⟨[("", { ty })]⟩
  have hty : ty ∈ level.types := Schema.mem_types List.mem_cons_self ty.self_mem_subterms
  have unmentioned : ∀ nested, ¬ level.Mentions nested := by
    intro nested mention
    obtain ⟨container, hsub⟩ : ∃ container, .keyed container nested ∈ ty.subterms := by
      simpa [Schema.mentions_iff, level, Schema.types] using mention
    exact flat container nested hsub
  exact (notesNothing producers).keeps_check trivial
    (fun nested mention => absurd mention (unmentioned nested)) rfl rfl hty

/-- Where no nested schema stands inside a union, reaching the depth limit is never silent. -/
theorem limit_reached_fails {schema : Schema} {value : Value} {ctx : Context}
    (outside : schema.EveryLevel (ctx.resolver producers) fun level =>
      ∀ alternatives, .union alternatives ∈ level.types →
        ∀ container nested, .keyed container nested ∉ (Ty.union alternatives).subterms)
    {place : Place} {here : Context}
    (reached : .limitReached place here ∈ (schema.validate producers value ctx).journal) :
    ∃ failure, (schema.validate producers value ctx).outcome = .error failure ∧
      failure.kind = .depthLimit := by
  rcases schema.limitKept_validate value ctx place here reached with ⟨failure, failed, limit⟩ | lost
  · exact ⟨failure, Run.error?_eq_some.mp failed, limit⟩
  · obtain ⟨among, union, alternative, -, -, met, -⟩ := lost
    rw [Ty.journal_check_eq_nil fun container nested hsub =>
      outside _ among _ union container nested (Ty.subterms_of_part alternative hsub)] at met
    cases met

end OptionSchema
