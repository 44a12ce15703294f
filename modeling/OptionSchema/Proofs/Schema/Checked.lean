import OptionSchema.Proofs.Schema.Definition
/-!
# What a level without defects looks like

Nested schemas stand only where the type holds mappings, so matching leaves such a value as it is.
-/
namespace OptionSchema.Schema

variable {producers : Producers}

/-- Nested schemas stand only on types that hold mappings. -/
structure WellKeyed (schema : Schema) : Prop where
  keyed : ∀ container nested, .keyed container nested ∈ schema.types → container.isContainer = true
  keys : ∀ entry ∈ schema.keys, entry.2.nested.isSome → entry.2.ty.acceptsKeys = true

theorem WellDefined.wellKeyed {schema : Schema} (h : schema.WellDefined) : schema.WellKeyed :=
  ⟨fun _ _ hmem => h.of_type hmem, fun entry hentry => (h entry hentry).keys⟩

theorem Passes.wellKeyed {schema : Schema} (h : schema.Passes producers) : schema.WellKeyed :=
  (h.clean .self).wellDefined.wellKeyed

section Client

def retrySchema : Schema := ⟨[("max", { ty := .posInteger, default := some (.integer 3) })]⟩

def clientSchema : Schema :=
  ⟨[("retry", { ty := .keywordList, nested := some (.inline retrySchema) }),
    ("*", { ty := .union [.integer, .string] })]⟩

theorem clientSchema_mentions {nested : Nested} (h : clientSchema.Mentions nested) :
    nested = .inline retrySchema := by
  simpa [mentions_iff, clientSchema, types, Ty.subterms, Ty.subtermsOfAll, eq_comm] using h

theorem retrySchema_everyLevel {resolve : Resolver} {P : Schema → Prop} (retry : P retrySchema) :
    retrySchema.EveryLevel resolve P :=
  .of_mentions retry fun _ _ mention => absurd mention
    (not_mentions_of_isPlain (by simp [retrySchema, Ty.isPlain]))

theorem clientSchema_everyLevel {resolve : Resolver} {P : Schema → Prop}
    (inline : ∀ schema, resolve (.inline schema) = some schema) (client : P clientSchema)
    (retry : P retrySchema) : clientSchema.EveryLevel resolve P := by
  refine .of_mentions client fun nested next mention resolved => ?_
  rw [clientSchema_mentions mention, inline] at resolved
  exact Option.some.inj resolved ▸ retrySchema_everyLevel retry

set_option maxRecDepth 4000 in
theorem clientSchema_passes {resolve : Resolver}
    (inline : ∀ schema, resolve (.inline schema) = some schema) :
    clientSchema.EveryLevel resolve (·.Passes producers) :=
  clientSchema_everyLevel inline rfl rfl

theorem clientSchema_proper {resolve : Resolver}
    (inline : ∀ schema, resolve (.inline schema) = some schema) :
    clientSchema.EveryLevel resolve Schema.Proper := by
  refine clientSchema_everyLevel inline ⟨by decide, ?_, ?_⟩ ⟨by decide, ?_, ?_⟩
  · simp [clientSchema]
  · simp [clientSchema, types, Ty.subterms, Ty.subtermsOfAll, Ty.IsProper]
  · simp [retrySchema]
  · simp [retrySchema, types, Ty.subterms, Ty.IsProper]

end Client

section Jobs

def jobSchema : Schema :=
  ⟨[("name", { ty := .string, required := true }),
    ("retries", { ty := .nonNegInteger, default := some (.integer 2) }),
    ("steps", { ty := .listOf .keywordList, nested := some (.ref "job") }),
    ("after", { ty := .mapOf .atom (.listOf (.keyed .map (.ref "job"))) })]⟩

def jobs : Context :=
  Context.new.withRegistry ⟨{ schemas := [("job", jobSchema)] }, defaultMaxDepth⟩

theorem jobSchema_mentions {nested : Nested} (h : jobSchema.Mentions nested) :
    nested = .ref "job" := by
  simpa [mentions_iff, jobSchema, types, Ty.subterms, eq_comm] using h

theorem jobSchema_everyLevel {P : Schema → Prop} (job : P jobSchema) :
    jobSchema.EveryLevel (jobs.resolver producers) P := by
  intro level reached
  generalize hschema : jobSchema = schema at reached
  induction reached with
  | refl => exact hschema ▸ job
  | step mention resolved _ ih =>
    subst hschema
    rw [jobSchema_mentions mention] at resolved
    exact ih (Option.some.inj resolved)

end Jobs

end OptionSchema.Schema
