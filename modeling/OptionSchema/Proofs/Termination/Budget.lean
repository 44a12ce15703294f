import Mathlib.Data.Prod.Lex
import OptionSchema.Proofs.Termination.Calls
/-!
# Every run ends

Neither the value nor the schema shrinks on the way into a nested schema: defaults supply fresh
values, and producers and registries fresh schemas. But each level uses up one of those that the
depth limit leaves, and within a level matching descends into the type. A review descends into the
schema and expands a lazy key only outside of what a producer made.
-/
namespace OptionSchema

namespace Context

structure SameLevel (ctx here : Context) : Prop where
  depth : here.depth = ctx.depth
  maxDepth : here.maxDepth = ctx.maxDepth

structure NextLevel (ctx here : Context) : Prop where
  within : ctx.depth < ctx.maxDepth
  depth : here.depth = ctx.depth + 1
  maxDepth : here.maxDepth = ctx.maxDepth

variable {ctx here : Context}

theorem SameLevel.remaining (h : ctx.SameLevel here) : here.remaining = ctx.remaining := by
  rw [Context.remaining, Context.remaining, h.depth, h.maxDepth]

theorem NextLevel.remaining (h : ctx.NextLevel here) : here.remaining + 1 = ctx.remaining := by
  have := h.within
  rw [Context.remaining, Context.remaining, h.depth, h.maxDepth]
  omega

structure Under (limit : Nat) (ctx : Context) : Prop where
  depth : ctx.depth ≤ ctx.maxDepth
  maxDepth : ctx.maxDepth = limit

theorem SameLevel.under {limit : Nat} (h : ctx.SameLevel here) (under : ctx.Under limit) :
    here.Under limit where
  depth := h.depth ▸ h.maxDepth ▸ under.depth
  maxDepth := h.maxDepth.trans under.maxDepth

theorem NextLevel.under {limit : Nat} (h : ctx.NextLevel here) (under : ctx.Under limit) :
    here.Under limit where
  depth := h.depth ▸ h.maxDepth ▸ h.within
  maxDepth := h.maxDepth.trans under.maxDepth

end Context

namespace Call

/-- The calls that a call can make, and at which level. -/
inductive Follows (producers : Producers) : Call → Call → Prop where
  | part {ty part : Ty} {place inside : Place} {value held : Value} {ctx here : Context}
      (h : part ∈ ty.parts) (level : ctx.SameLevel here) :
      Follows producers (.matching ty place value ctx) (.matching part inside held here)
  | keyed {container : Ty} {nested : Nested} {place : Place} {value held : Value} {ctx : Context} :
      Follows producers (.matching (.keyed container nested) place value ctx)
        (.entering nested place held ctx)
  | key {schema : Schema} {value : Value} {ctx : Context} {ty : Ty} {place : Place} {held : Value} :
      Follows producers (.walking schema value ctx) (.matching ty place held ctx)
  | keyNested {schema : Schema} {value : Value} {ctx : Context} {nested : Nested} {place : Place}
      {held : Value} :
      Follows producers (.walking schema value ctx) (.entering nested place held ctx)
  | level {nested : Nested} {place : Place} {value : Value} {ctx here : Context} {schema : Schema}
      {held : Value} (next : ctx.NextLevel here) :
      Follows producers (.entering nested place value ctx) (.walking schema held here)
  | default {spec : KeySpec} {name : String} {value : Value} {ty : Ty} {place : Place}
      {held : Value} :
      Follows producers (.checkingDefault spec name value) (.matching ty place held .new)
  | defaultNested {spec : KeySpec} {name : String} {value : Value} {nested : Nested} {place : Place}
      {held : Value} :
      Follows producers (.checkingDefault spec name value) (.entering nested place held .new)
  | reviewedType {schema : Schema} {entry : String × KeySpec} {path here : Path}
      {keyedAllowed expand : Bool} (h : entry ∈ schema.keys) :
      Follows producers (.reviewing schema path expand)
        (.reviewingType entry.2.ty here keyedAllowed expand)
  | reviewedNested {schema : Schema} {entry : String × KeySpec} {nested : Nested}
      {path here : Path} {expand : Bool} (h : entry ∈ schema.keys)
      (hnested : entry.2.nested = some nested) :
      Follows producers (.reviewing schema path expand) (.reviewingNested nested here expand)
  | reviewedDefault {schema : Schema} {path : Path} {expand : Bool} {spec : KeySpec}
      {name : String} {value : Value} :
      Follows producers (.reviewing schema path expand) (.checkingDefault spec name value)
  | reviewedPart {ty part : Ty} {path here : Path} {keyedAllowed inside expand : Bool}
      (h : part ∈ ty.parts) : Follows producers (.reviewingType ty path keyedAllowed expand)
        (.reviewingType part here inside expand)
  | reviewedKeyed {container : Ty} {nested : Nested} {path here : Path}
      {keyedAllowed expand : Bool} :
      Follows producers (.reviewingType (.keyed container nested) path keyedAllowed expand)
        (.reviewingNested nested here expand)
  | inline {schema : Schema} {path here : Path} {expand : Bool} :
      Follows producers (.reviewingNested (.inline schema) path expand)
        (.reviewing schema here expand)
  | produced {producer : Nat} {path here : Path} :
      Follows producers (.reviewingNested (.lazy producer) path true)
        (.reviewing (producers producer) here false)

def Creates : Call → Context → Prop
  | .matching _ _ _ ctx, here => ctx.SameLevel here
  | .entering _ _ _ ctx, here => ctx.NextLevel here
  | .checkingDefault .., here => here = .new
  | _, _ => False

end Call

namespace Program

variable {producers : Producers}

section Inversion

theorem all_matchAny {P : Call → Prop} {Q : Context → Prop} {place : Place} {value : Value}
    {ctx : Context} {types : List Ty} (h : ∀ ty ∈ types, P (.matching ty place value ctx)) :
    (matchAny place value ctx types).All P Q := by
  induction types with
  | nil => trivial
  | cons ty types ih =>
    rw [List.forall_mem_cons] at h
    exact (Script.all_ask h.1).orCollect (ih h.2)

theorem all_matchValue (ty : Ty) (place : Place) (value : Value) (ctx : Context) :
    (matchValue ty place value ctx).All
      (Call.Follows producers (.matching ty place value ctx)) ctx.SameLevel := by
  have step : ctx.SameLevel (ctx.step place.segment) := ⟨rfl, rfl⟩
  cases ty with
  | mapOf keyTy valueTy =>
    cases value with
    | map pairs =>
      refine ⟨step, (Script.all_traverseFrom (fun _ pair _ => ?_) 0).map _⟩
      refine (Script.all_ask (.part List.mem_cons_self step)).andThen fun key => ?_
      refine (Script.all_ask (.part ?_ step)).andThen fun _ => trivial
      exact List.mem_cons_of_mem _ List.mem_cons_self
    | _ => trivial
  | union alternatives => exact (all_matchAny fun ty hty => .part hty ⟨rfl, rfl⟩).map _
  | listOf item =>
    cases value with
    | list items =>
      refine ⟨step, (Script.all_traverseFrom (fun _ pair hpair => ?_) 0).map _⟩
      obtain ⟨element, -, rfl⟩ := List.mem_map.mp hpair
      exact Script.all_ask (.part List.mem_cons_self step)
    | _ => trivial
  | tuple types =>
    cases value with
    | tuple items =>
      rw [matchValue]
      split
      · refine ⟨step, (Script.all_traverseFrom (fun _ item hitem => ?_) 0).map _⟩
        exact Script.all_ask (.part (List.of_mem_zip hitem).1 step)
      · trivial
    | _ => trivial
  | keyed container nested =>
    refine (Script.all_ask (.part List.mem_cons_self ⟨rfl, rfl⟩)).andThen fun matched => ?_
    exact Script.all_ask .keyed
  | _ => trivial

section Walking

variable {P : Call → Prop} {Q : Context → Prop} {ctx : Context}
  (matched : ∀ ty place value, P (.matching ty place value ctx))
  (entered : ∀ nested place value, P (.entering nested place value ctx))

include matched entered

theorem all_checkKey (spec : KeySpec) (name : String) (value : Value) :
    (checkKey spec name value ctx).All P Q := by
  refine (Script.all_ask (matched ..)).andThen fun result => ?_
  cases spec.nested with
  | some nested => exact Script.all_ask (entered ..)
  | none => trivial

theorem all_contribute (input : List (String × Value)) (name : String) (spec : KeySpec) :
    (contribute input ctx name spec).All P Q := by
  have key := fun value => all_checkKey (Q := Q) matched entered spec name value
  rw [contribute]
  cases input.lookup name with
  | some value => exact Script.All.andThen trivial fun _ => (key value).map _
  | none =>
    cases spec.required with
    | true => trivial
    | false =>
      cases spec.default with
      | some value => exact (key value).map _
      | none => trivial

omit matched entered in
theorem all_contributions {contribute : String → KeySpec → Program (Run Failure (Option Value))}
    (h : ∀ name spec, (contribute name spec).All P Q) (keys : List (String × KeySpec)) :
    (contributions contribute keys).All P Q := by
  induction keys with
  | nil => trivial
  | cons entry keys ih =>
    obtain ⟨name, spec⟩ := entry
    refine (h name spec).andThen fun given => ih.andThen fun others => ?_
    cases given <;> trivial

theorem all_walkEntries (schema : Schema) (input : List (String × Value)) :
    (walkEntries schema input ctx).All P Q := by
  rw [walkEntries]
  cases (schema.expand (Entries.names input)).undeclared (Entries.names input) with
  | nil => exact all_contributions (all_contribute matched entered input) _
  | cons name unknown => trivial

theorem all_walk (schema : Schema) (value : Value) : (walk schema value ctx).All P Q := by
  refine Script.All.andThen trivial fun _ => ?_
  have entries := all_walkEntries (Q := Q) matched entered schema
  cases value with
  | keywords input => exact (entries input).map _
  | map pairs =>
    rw [walkMapping]
    cases (Value.map pairs).duplicateIdentifier? with
    | some name => trivial
    | none =>
      cases (Value.map pairs).entries? with
      | none => trivial
      | some input => exact (entries input).andThen fun _ => trivial
  | _ => trivial

end Walking

theorem all_enter (nested : Nested) (place : Place) (value : Value) (ctx : Context) :
    (enter producers nested place value ctx).All
      (Call.Follows producers (.entering nested place value ctx)) ctx.NextLevel := by
  rw [enter]
  cases hlimit : ctx.atLimit with
  | true => trivial
  | false =>
    have within : ctx.depth < ctx.maxDepth := by simpa [Context.atLimit] using hlimit
    cases nested.resolve producers place ctx with
    | error failure => trivial
    | ok schema =>
      refine ⟨⟨within, rfl, rfl⟩, Script.All.map ?_ _⟩
      cases value with
      | list items =>
        refine (Script.all_traverseFrom (fun index item _ => ?_) 0).map _
        exact ⟨⟨within, rfl, rfl⟩, (Script.all_ask (.level ⟨within, rfl, rfl⟩)).map _⟩
      | _ => exact Script.all_ask (.level ⟨within, rfl, rfl⟩)

theorem all_checkDefault (spec : KeySpec) (name : String) (value : Value) :
    (checkDefault spec name value).All
      (Call.Follows producers (.checkingDefault spec name value)) (· = .new) := by
  refine ⟨rfl, (Script.all_ask .default).andThen fun matched => ?_⟩
  cases spec.nested with
  | none => trivial
  | some nested =>
    cases spec.ty.acceptsKeys with
    | true => exact Script.all_ask .defaultNested
    | false => trivial

section Reviewing

variable {P : Call → Prop} {Q : Context → Prop}

theorem all_append {a b : Program Review} (ha : a.All P Q) (hb : b.All P Q) : (a ++ b).All P Q :=
  ha.bind fun _ => hb.map _

theorem all_reviewEach {α : Type} {review : α → Program Review} {items : List α}
    (h : ∀ item ∈ items, (review item).All P Q) : (reviewEach review items).All P Q := by
  induction items with
  | nil => trivial
  | cons item items ih =>
    rw [List.forall_mem_cons] at h
    exact all_append h.1 (ih h.2)

theorem all_reviewType (ty : Ty) (path : Path) (keyedAllowed expand : Bool) :
    (reviewType expand ty path keyedAllowed).All
      (Call.Follows producers (.reviewingType ty path keyedAllowed expand)) Q := by
  cases ty with
  | union alternatives =>
    exact all_append trivial (all_reviewEach fun ty hty => Script.all_ask (.reviewedPart hty))
  | listOf item => exact Script.all_ask (.reviewedPart List.mem_cons_self)
  | mapOf key value =>
    refine all_append (Script.all_ask (.reviewedPart List.mem_cons_self)) ?_
    exact Script.all_ask (.reviewedPart (List.mem_cons_of_mem _ List.mem_cons_self))
  | tuple items => exact all_reviewEach fun ty hty => Script.all_ask (.reviewedPart hty)
  | choice choices => cases choices <;> trivial
  | keyed container nested => exact all_append trivial (Script.all_ask .reviewedKeyed)
  | _ => trivial

theorem all_review (schema : Schema) (path : Path) (expand : Bool) :
    (review schema path expand).All (Call.Follows producers (.reviewing schema path expand)) Q := by
  refine all_reviewEach fun entry hentry => ?_
  refine all_append (all_append (all_append ?_ trivial) ?_) ?_
  · exact Script.all_ask (.reviewedType hentry)
  · cases hnested : entry.2.nested with
    | some nested => exact Script.all_ask (.reviewedNested hentry hnested)
    | none => trivial
  · cases entry.2.default with
    | some value => exact (Script.all_ask .reviewedDefault).map _
    | none => trivial

theorem all_reviewNested (nested : Nested) (path : Path) (expand : Bool) :
    (reviewNested producers nested path expand).All
      (Call.Follows producers (.reviewingNested nested path expand)) Q := by
  cases nested with
  | inline schema => exact Script.all_ask .inline
  | lazy producer =>
    cases expand with
    | true => exact Script.all_ask .produced
    | false => trivial
  | ref name => trivial

end Reviewing

/-- Whatever the calls return, a call makes and creates nothing else. -/
theorem all_body (producers : Producers) (call : Call) :
    (body producers call).All (Call.Follows producers call) call.Creates := by
  cases call with
  | matching ty place value ctx => exact all_matchValue ty place value ctx
  | walking schema value ctx =>
    exact all_walk (fun _ _ _ => .key) (fun _ _ _ => .keyNested) schema value
  | entering nested place value ctx => exact all_enter nested place value ctx
  | checkingDefault spec name value => exact all_checkDefault spec name value
  | reviewing schema path expand => exact all_review schema path expand
  | reviewingType ty path keyedAllowed expand => exact all_reviewType ty path keyedAllowed expand
  | reviewingNested nested path expand => exact all_reviewNested nested path expand

end Inversion

end Program

theorem Schema.sizeOf_keySpec {schema : Schema} {name : String} {spec : KeySpec}
    (h : (name, spec) ∈ schema.keys) : sizeOf spec < sizeOf schema := by
  obtain ⟨keys⟩ := schema
  have := List.sizeOf_lt_of_mem h
  simp only [Schema.mk.sizeOf_spec, Prod.mk.sizeOf_spec] at this ⊢
  omega

theorem KeySpec.sizeOf_ty (spec : KeySpec) : sizeOf spec.ty < sizeOf spec := by
  cases spec
  simp only [KeySpec.mk.sizeOf_spec]
  omega

theorem KeySpec.sizeOf_nested {spec : KeySpec} {nested : Nested} (h : spec.nested = some nested) :
    sizeOf nested < sizeOf spec := by
  cases spec
  subst h
  simp only [KeySpec.mk.sizeOf_spec, Option.some.sizeOf_spec]
  omega

namespace Call

def ctx : Call → Context
  | .matching _ _ _ ctx => ctx
  | .walking _ _ ctx => ctx
  | .entering _ _ _ ctx => ctx
  | _ => .new

def descends : Call → Bool
  | .entering .. => true
  | _ => false

def reviewsLazyKey : Call → Bool
  | .reviewingNested (.lazy _) .. => true
  | _ => false

/-- How many lazy keys a review may still expand on its way down. -/
def expansions : Call → Nat
  | .reviewing _ _ expand => expand.toNat
  | .reviewingType _ _ _ expand => expand.toNat
  | .reviewingNested _ _ expand => expand.toNat
  | _ => 0

/-- Decreases with each call. At each level, walking comes before matching and entering. -/
noncomputable def rank : Call → ℕ ×ₗ ℕ ×ₗ ℕ
  | .reviewing schema _ expand => toLex (2 + expand.toNat, toLex (0, sizeOf schema))
  | .reviewingType ty _ _ expand => toLex (2 + expand.toNat, toLex (0, sizeOf ty))
  | .reviewingNested nested _ expand => toLex (2 + expand.toNat, toLex (0, sizeOf nested))
  | .checkingDefault .. => toLex (1, toLex (0, 0))
  | .walking _ _ ctx => toLex (0, toLex (2 * ctx.remaining + 1, 0))
  | .matching ty _ _ ctx => toLex (0, toLex (2 * ctx.remaining, sizeOf ty + 1))
  | .entering _ _ _ ctx => toLex (0, toLex (2 * ctx.remaining, 0))

variable {producers : Producers} {caller callee : Call}

theorem Follows.rank_lt (h : Follows producers caller callee) : callee.rank < caller.rank := by
  cases h with
  | part h level => simpa [rank, Prod.Lex.toLex_lt_toLex, level.remaining] using Ty.sizeOf_part h
  | level next =>
    have := next.remaining
    exact Prod.Lex.toLex_lt_toLex.mpr (.inr ⟨rfl, Prod.Lex.toLex_lt_toLex.mpr (.inl (by omega))⟩)
  | reviewedType h =>
    have := (KeySpec.sizeOf_ty _).trans (Schema.sizeOf_keySpec h)
    simpa [rank, Prod.Lex.toLex_lt_toLex] using this
  | reviewedNested h hnested =>
    have := (KeySpec.sizeOf_nested hnested).trans (Schema.sizeOf_keySpec h)
    simpa [rank, Prod.Lex.toLex_lt_toLex] using this
  | reviewedPart h => simpa [rank, Prod.Lex.toLex_lt_toLex] using Ty.sizeOf_part h
  | _ => simp [rank, Prod.Lex.toLex_lt_toLex] <;> omega

theorem Follows.remaining_le (h : Follows producers caller callee) :
    (if caller.descends then 1 else 0) + callee.ctx.remaining ≤ caller.ctx.remaining := by
  cases h with
  | part h level => exact (Nat.zero_add _).trans_le level.remaining.le
  | level next => exact (Nat.add_comm ..).trans_le next.remaining.le
  | _ => exact (Nat.zero_add _).le

theorem Follows.expansions_le (h : Follows producers caller callee) :
    (if caller.reviewsLazyKey then 1 else 0) + callee.expansions ≤ caller.expansions := by
  cases h <;> simp [reviewsLazyKey, expansions]

theorem expansions_le_one (call : Call) : call.expansions ≤ 1 := by
  cases call <;> first | exact Nat.zero_le 1 | exact Bool.toNat_le _

theorem Follows.under {limit : Nat} (h : Follows producers caller callee)
    (under : caller.ctx.Under limit) : callee.ctx.Under limit := by
  cases h with
  | part h level => exact level.under under
  | level next => exact next.under under
  | _ => exact under

theorem Creates.under {limit : Nat} {call : Call} {here : Context} (h : call.Creates here)
    (under : call.ctx.Under limit) : here.Under limit := by
  cases call with
  | matching ty place value ctx => exact Context.SameLevel.under h under
  | entering nested place value ctx => exact Context.NextLevel.under h under
  | checkingDefault spec name value => exact h ▸ under
  | _ => exact h.elim

abbrev Stack (producers : Producers) (first : Call) : List Call → Call → Prop :=
  Script.Stack (Program.body producers) (answer producers) first

/-- A run of the call ends with the result, and with no other. On the way down, the levels left and
then the type become smaller from one matching to the next inside it, and the levels left from one
walk to the next. No context is created deeper than its limit, so that depths fit wherever limits
do. No more levels have been entered than were left, and at most one lazy key has been expanded by
the review itself. A call that has reached the limit encloses no others. -/
structure Ends (producers : Producers) (first : Call) (result : first.Answer) : Prop where
  returns : Script.Returns (Program.body producers) (Program.body producers first) result
  unique : ∀ other, Script.Returns (Program.body producers) (Program.body producers first) other →
    other = result
  matching_lt : ∀ {stack part inside held here},
    first.Stack producers stack (.matching part inside held here) →
      ∀ ty place value ctx, .matching ty place value ctx ∈ stack →
        toLex (here.remaining, sizeOf part) < toLex (ctx.remaining, sizeOf ty)
  walking_lt : ∀ {stack inner held here},
    first.Stack producers stack (.walking inner held here) →
      ∀ schema value ctx, .walking schema value ctx ∈ stack → here.remaining < ctx.remaining
  contexts : first.ctx.depth ≤ first.ctx.maxDepth → ∀ {stack call},
    first.Stack producers stack call →
      ∀ here ∈ (Program.body producers call).created (answer producers),
        here.depth ≤ here.maxDepth ∧ here.maxDepth = first.ctx.maxDepth
  descents : ∀ {stack call}, first.Stack producers stack call →
    stack.countP descends ≤ first.ctx.remaining
  expanded : ∀ {stack call}, first.Stack producers stack call → stack.countP reviewsLazyKey ≤ 1

theorem follows_of_makes
    (makes : Script.Makes (Program.body producers) (answer producers) caller callee) :
    Follows producers caller callee :=
  (Program.all_body producers caller).calls callee makes

/-- No call encloses further ones forever. -/
theorem wellFounded_makes (producers : Producers) : WellFounded fun callee caller =>
    Script.Makes (Program.body producers) (answer producers) caller callee :=
  Subrelation.wf (fun makes => (follows_of_makes makes).rank_lt) (InvImage.wf rank wellFounded_lt)

theorem returns (producers : Producers) (call : Call) :
    Script.Returns (Program.body producers) (Program.body producers call) (call.answer producers) :=
  Script.returns_of_wellFounded (Program.eval_body producers) (wellFounded_makes producers) call

theorem ends (producers : Producers) (first : Call) :
    first.Ends producers (first.answer producers) where
  returns := returns producers first
  unique other h := h.unique (returns producers first)
  matching_lt {_ _ _ _ _} h ty place value ctx encloses := by
    have := h.lt_of_mem (fun makes => (follows_of_makes makes).rank_lt) encloses
    simp only [rank, Prod.Lex.toLex_lt_toLex] at this ⊢
    omega
  walking_lt {_ _ _ _} h schema value ctx encloses := by
    have := h.lt_of_mem (fun makes => (follows_of_makes makes).rank_lt) encloses
    simp only [rank, Prod.Lex.toLex_lt_toLex] at this
    omega
  contexts within {_ call} h here hmem := by
    have under : call.ctx.Under first.ctx.maxDepth :=
      h.holds (P := fun call => call.ctx.Under first.ctx.maxDepth)
        (fun makes => (follows_of_makes makes).under) ⟨within, rfl⟩
    have created := ((Program.all_body producers call).created here hmem).under under
    exact ⟨created.depth, created.maxDepth⟩
  descents {_ _} h :=
    Nat.le_of_add_right_le (h.countP_add_le fun makes => (follows_of_makes makes).remaining_le)
  expanded {_ _} h :=
    (Nat.le_of_add_right_le
      (h.countP_add_le fun makes => (follows_of_makes makes).expansions_le)).trans
      first.expansions_le_one

end Call

def Schema.verdict (schema : Schema) (review : Review) : Run Defects Schema :=
  match Defects.ofList? (review.findings.map Finding.defect) with
  | none => ⟨.ok schema, review.journal ++ [.accepted schema.size]⟩
  | some defects => ⟨.error defects, review.journal ++ [.rejected defects.size]⟩

def Program.compile (schema : Schema) : Program (Run Defects Schema) :=
  (Program.ask (.reviewing schema .root true)).map schema.verdict

/-- Validation and compilation end on all schemas, whatever producers and registries make of their
nested ones, whatever is given and whatever the defaults are. -/
theorem validation_and_compilation_terminate (producers : Producers) :
    (∀ schema value ctx,
      (Call.walking schema value ctx).Ends producers (schema.validate producers value ctx)) ∧
    (∀ schema, (Call.reviewing schema .root true).Ends producers (schema.review producers)) ∧
    ∀ schema, Script.Returns (Program.body producers) (Program.compile schema)
      (schema.compile producers) := by
  refine ⟨fun schema value ctx => Call.ends producers _, fun schema => Call.ends producers _, ?_⟩
  exact fun schema => Script.returns_of_calls fun call _ => Call.returns producers call

def endless : Producers := fun producer =>
  ⟨[("next", { ty := .map, default := some (.map []), nested := some (.lazy (producer + 1)) })]⟩

/-- Three levels down the limit is reached, and at each of them the next default is walked. -/
theorem endless_defaults_end :
    let run := (endless 0).validate endless (.keywords []) (Context.new.withMaxDepth 3)
    (∃ failure, run.outcome = .error failure ∧ failure.kind = .depthLimit) ∧
      (Call.walking (endless 0) (.keywords []) (Context.new.withMaxDepth 3)).Ends endless run ∧
      Script.Returns (Program.body endless) (Program.compile (endless 0))
        ((endless 0).compile endless) := by
  obtain ⟨validation, -, compilation⟩ := validation_and_compilation_terminate endless
  exact ⟨⟨_, rfl, rfl⟩, validation .., compilation _⟩

end OptionSchema
