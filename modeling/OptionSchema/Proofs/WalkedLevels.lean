import OptionSchema.Proofs.Invariant
import OptionSchema.Proofs.Schema.Checked
/-!
# The levels that validation walks

The journal of a run names every level that it enters. These are levels reached from the validated
schema, so most of them have been looked at when that schema or a registered one was compiled. What
a producer makes below another producer is not expanded then, and only there can a level be walked
that breaks a definition rule.
-/
namespace OptionSchema

def EnteredOnly (P : Schema → Prop) : Run.Promise Failure :=
  fun _ journal => ∀ level mapping here, .entered level mapping here ∈ journal → P level

theorem EnteredOnly.sequential (P : Schema → Prop) : (EnteredOnly P).Sequential where
  nothing _ _ _ hmem := nomatch hmem
  append first second level mapping here hmem :=
    (List.mem_append.mp hmem).elim (first level mapping here) (second level mapping here)

def entersOnly (producers : Producers) (P : Schema → Prop) : Invariant producers P where
  matching _ _ := EnteredOnly P
  inside _ := EnteredOnly P
  walking _ := EnteredOnly P
  matching_sequential _ _ := EnteredOnly.sequential P
  inside_sequential _ := EnteredOnly.sequential P
  walking_sequential _ := EnteredOnly.sequential P
  own _ _ _ _ _ hmem := nomatch hmem
  part _ _ h := h
  alternative _ _ _ _ h := h
  exhausted _ _ h := h
  tooDeep _ _ _ _ _ hmem := nomatch List.mem_singleton.mp hmem
  nested h := h
  item h := h
  fault _ _ _ _ hmem := nomatch hmem
  warning _ _ _ _ _ _ hmem := nomatch List.mem_singleton.mp hmem
  key h := h
  entered _ _ among level _ _ hmem := by
    cases List.mem_singleton.mp hmem
    exact among
  walk _ h := h

variable {P : Schema → Prop} {schema : Schema} {ctx : Context}

namespace Schema

/-- Validation enters no levels but those reached from the schema. -/
theorem enters_validate (producers : Producers) (value : Value)
    (every : schema.EveryLevel (ctx.resolver producers) P) :
    ∀ level mapping here,
      .entered level mapping here ∈ (schema.validate producers value ctx).journal → P level :=
  (entersOnly producers P).keeps_validate schema value ctx every

/-- The level lies behind a lazy key of a level that a producer has made, which reviews of the
schema leave alone. -/
def Overlooks (producers : Producers) (resolve : Resolver) (schema level : Schema) : Prop :=
  ∃ made producer, schema.Reviews producers true made ∧ made.Mentions (.lazy producer) ∧
    (producers producer).Reaches resolve level

end Schema

/-- The schemas that have been compiled when one is validated in the context. -/
def Context.Compiled (ctx : Context) (schema compiled : Schema) : Prop :=
  compiled = schema ∨ ∃ name, ctx.schema? name = some compiled

/-- Each nested schema leads to a reviewed level, starts over at a registered schema or gets beyond
the second producer on the way. -/
theorem Schema.reviewed_or_overlooked {producers : Producers} {origin level : Schema} {made : Bool}
    (compiled : ctx.Compiled schema origin) (reviews : origin.Reviews producers made level)
    {last : Schema} (reaches : level.Reaches (ctx.resolver producers) last) :
    (∃ origin made, ctx.Compiled schema origin ∧ origin.Reviews producers made last) ∨
      ∃ origin, ctx.Compiled schema origin ∧
        origin.Overlooks producers (ctx.resolver producers) last := by
  induction reaches generalizing origin made with
  | refl level => exact Or.inl ⟨origin, made, compiled, reviews⟩
  | @step level next last nested mention resolved rest ih =>
    cases nested with
    | inline inner =>
      cases resolved
      exact ih compiled (reviews.inline mention)
    | ref name => exact ih (Or.inr ⟨name, resolved⟩) .self
    | lazy producer =>
      cases resolved
      cases made with
      | false => exact ih compiled (reviews.lazy mention)
      | true => exact Or.inr ⟨origin, compiled, level, producer, reviews, mention, rest⟩

/-- The levels between a compiled schema and the second producer on the way are well defined, and
validation walks no others but what lies behind that producer. -/
theorem walked_levels_wellDefined (producers : Producers) (schema : Schema) (value : Value)
    (ctx : Context) (passes : schema.Passes producers)
    (registered : ∀ name other, ctx.schema? name = some other → other.Passes producers) :
    (∀ origin made level, ctx.Compiled schema origin → origin.Reviews producers made level →
      level.WellDefined) ∧
    ∀ level mapping here,
      .entered level mapping here ∈ (schema.validate producers value ctx).journal →
        (∃ origin made, ctx.Compiled schema origin ∧ origin.Reviews producers made level) ∨
          ∃ origin, ctx.Compiled schema origin ∧
            origin.Overlooks producers (ctx.resolver producers) level := by
  constructor
  · rintro origin made level (rfl | ⟨name, hname⟩) reviews
    · exact (passes.clean reviews).wellDefined
    · exact ((registered name origin hname).clean reviews).wellDefined
  · exact Schema.enters_validate producers value fun level reaches =>
      Schema.reviewed_or_overlooked (Or.inl rfl) .self reaches

section Producers

def treeSchema : Schema :=
  ⟨[("label", { ty := .union [.string, .choice (.range 1 9)] }),
    ("children", { ty := .listOf .keywordList, nested := some (.lazy 0) })]⟩

def forestSchema : Schema := ⟨[("trees", { ty := .listOf (.keyed .map (.ref "tree")) })]⟩

def forest : Context :=
  Context.new.withRegistry ⟨{ schemas := [("tree", treeSchema)] }, defaultMaxDepth⟩

theorem forest_schema? {name : String} {schema : Schema} (h : forest.schema? name = some schema) :
    schema = treeSchema := by
  have hmem : (name, schema) ∈ [("tree", treeSchema)] := Entries.mem_of_lookup h
  exact (Prod.mk.inj (List.mem_singleton.mp hmem)).2

set_option maxRecDepth 4000 in
/-- Of the three nodes, the first is registered and the third comes from a producer below one. -/
theorem forest_walked :
    let leaf := .keywords [("label", .string "leaf")]
    let tree := .map [(.atom "children", .list [.keywords [("children", .list [leaf])]])]
    let run := forestSchema.validate (fun _ => treeSchema) (.keywords [("trees", .list [tree])])
      forest
    (∃ here, .entered treeSchema leaf here ∈ run.journal) ∧
      (∀ origin made level, forest.Compiled forestSchema origin →
        origin.Reviews (fun _ => treeSchema) made level → level.WellDefined) ∧
      ∀ level mapping here, .entered level mapping here ∈ run.journal →
        (∃ origin made, forest.Compiled forestSchema origin ∧
          origin.Reviews (fun _ => treeSchema) made level) ∨
        ∃ origin, forest.Compiled forestSchema origin ∧
          origin.Overlooks (fun _ => treeSchema) (forest.resolver fun _ => treeSchema) level := by
  refine ⟨?_, walked_levels_wellDefined (fun _ => treeSchema) forestSchema _ forest rfl ?_⟩
  · exact ⟨_, List.mem_cons_of_mem _ (List.mem_cons_of_mem _
      (List.mem_cons_of_mem _ List.mem_cons_self))⟩
  · intro name other h
    rw [forest_schema? h]
    rfl

def layered : Producers
  | 0 => ⟨[("inner", { ty := .keywordList, nested := some (.lazy 1) })]⟩
  | _ => ⟨[("mode", { ty := .union [] })]⟩

set_option maxRecDepth 4000 in
/-- The schema compiles although a level behind its second producer breaks a rule. -/
theorem broken_level_walked : ¬ ∀ (producers : Producers) (schema : Schema) (value : Value)
    (ctx : Context), schema.Passes producers →
      (∀ name other, ctx.schema? name = some other → other.Passes producers) →
      ∀ level mapping here,
        .entered level mapping here ∈ (schema.validate producers value ctx).journal →
          level.WellDefined := by
  intro claim
  have wellDefined := claim layered
    ⟨[("outer", { ty := .keywordList, nested := some (.lazy 0) })]⟩
    (.keywords [("outer", .keywords [("inner", .keywords [])])]) {} rfl (fun _ _ h => nomatch h)
    (layered 1) (.keywords []) _
    (List.mem_cons_of_mem _ (List.mem_cons_of_mem _ List.mem_cons_self))
  exact (wellDefined _ List.mem_cons_self).types (.union []) (Ty.self_mem_subterms _) rfl

end Producers

end OptionSchema
