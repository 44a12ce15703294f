import OptionSchema.Compile
import OptionSchema.Proofs.FirstFault
import OptionSchema.Proofs.Termination.Script
/-!
# Validation and review, call by call

Here each function of the engine and of the review says what it does with explicit calls of the
others, in the contexts that it creates for them, and nothing but the depth limit keeps it from
calling on forever. Runs with a budget of levels and reviews by recursion on the schema solve these
equations.
-/
namespace OptionSchema

/-- A call of a recursive function, with its arguments. -/
inductive Call where
  /-- Matches a value against a type. -/
  | matching (ty : Ty) (place : Place) (value : Value) (ctx : Context)
  /-- Walks a schema level over a value. -/
  | walking (schema : Schema) (value : Value) (ctx : Context)
  /-- Goes on into a nested schema. -/
  | entering (nested : Nested) (place : Place) (value : Value) (ctx : Context)
  /-- Runs a default through its key. -/
  | checkingDefault (spec : KeySpec) (name : String) (value : Value)
  /-- Reviews a schema; `expand` outside of what producers make. -/
  | reviewing (schema : Schema) (path : Path) (expand : Bool)
  | reviewingType (ty : Ty) (path : Path) (keyedAllowed expand : Bool)
  | reviewingNested (nested : Nested) (path : Path) (expand : Bool)

abbrev Call.Answer : Call → Type
  | .matching .. => Run Failure Value
  | .walking .. => Run Failure Value
  | .entering .. => Run Failure Value
  | .checkingDefault .. => Run Failure Value
  | .reviewing .. => Review
  | .reviewingType .. => Review
  | .reviewingNested .. => Review

abbrev Program (α : Type) := Script Call Call.Answer α

namespace Program

abbrev ask (call : Call) : Program call.Answer := Script.ask call

section Matching

def matchAny (place : Place) (value : Value) (ctx : Context) :
    List Ty → Program (Run (List Failure) Value)
  | [] => .done (.fail [])
  | ty :: types =>
    (ask (.matching ty place value ctx)).orCollect (matchAny place value ctx types)

def matchItems (here : Context) (items : List (Ty × Value)) : Program (Run Failure (List Value)) :=
  .traverseFrom (fun index item => ask (.matching item.1 (.position index) item.2 here)) 0 items

def matchPairs (keyTy valueTy : Ty) (here : Context) (pairs : List (Value × Value)) :
    Program (Run Failure (List (Value × Value))) :=
  .traverseFrom (fun _ pair =>
    (ask (.matching keyTy .mapKey pair.1 here)).andThen fun key =>
      (ask (.matching valueTy (.mapValue key) pair.2 here)).andThen fun held =>
        .done (.succeed (key, held))) 0 pairs

def matchValue : Ty → Place → Value → Context → Program (Run Failure Value)
  | .mapOf keyTy valueTy, place, value, ctx =>
    match value with
    | .map pairs =>
      let here := ctx.step place.segment
      let run := matchPairs keyTy valueTy here pairs
      .create here <| run.map fun run =>
        Value.mapOf <$> run.mapError fun failure => failure.within "map" place value
    | _ => .done (.fail (.mismatch (.mapOf keyTy valueTy) place value))
  | .custom validator, place, value, _ =>
    .done (.ofExcept ((validator.call value).mapError fun reason => .refused reason place value))
  | .union alternatives, place, value, ctx =>
    (matchAny place value ctx alternatives).map fun run =>
      run.mapError (Failure.exhausted place value)
  | .listOf item, place, value, ctx =>
    match value with
    | .list items =>
      let here := ctx.step place.segment
      let run := matchItems here (items.map fun element => (item, element))
      .create here <| run.map fun run =>
        Value.list <$> run.mapError fun failure => failure.within "list" place value
    | _ => .done (.fail (.mismatch (.listOf item) place value))
  | .tuple types, place, value, ctx =>
    match value with
    | .tuple items =>
      if types.length = items.length then
        let here := ctx.step place.segment
        let run := matchItems here (types.zip items)
        .create here <| run.map fun run =>
          Value.tuple <$> run.mapError fun failure => failure.within "tuple" place value
      else .done (.fail (.mismatch (.tuple types) place value))
    | _ => .done (.fail (.mismatch (.tuple types) place value))
  | .keyed container nested, place, value, ctx =>
    (ask (.matching container place value ctx)).andThen fun matched =>
      ask (.entering nested place matched ctx)
  | ty, place, value, _ =>
    .done (if ty.admits value then .succeed value else .fail (.mismatch ty place value))

end Matching

section Walking

def checkKey (spec : KeySpec) (name : String) (value : Value) (ctx : Context) :
    Program (Run Failure Value) :=
  (ask (.matching spec.ty (.key name) value ctx)).andThen fun matched =>
    match spec.nested with
    | some nested => ask (.entering nested (.key name) matched ctx)
    | none => .done (.succeed matched)

def contribute (input : List (String × Value)) (ctx : Context) (name : String) (spec : KeySpec) :
    Program (Run Failure (Option Value)) :=
  match input.lookup name with
  | some value =>
    (Script.done (spec.warn name ctx)).andThen fun _ =>
      (checkKey spec name value ctx).map fun run => some <$> run
  | none =>
    if spec.required then .done (.fail (.missing name (Entries.names input)))
    else match spec.default with
      | some value => (checkKey spec name value ctx).map fun run => some <$> run
      | none => .done (.succeed none)

def contributions (contribute : String → KeySpec → Program (Run Failure (Option Value))) :
    List (String × KeySpec) → Program (Run Failure (List (String × Value)))
  | [] => .done (.succeed [])
  | (name, spec) :: keys =>
    (contribute name spec).andThen fun given =>
      (contributions contribute keys).andThen fun others =>
        match given with
        | some value => .done (.succeed ((name, value) :: others))
        | none => .done (.succeed others)

def walkEntries (schema : Schema) (input : List (String × Value)) (ctx : Context) :
    Program (Run Failure (List (String × Value))) :=
  let expanded := schema.expand (Entries.names input)
  match expanded.undeclared (Entries.names input) with
  | [] => contributions (contribute input ctx) expanded.keys
  | unknown => .done (.fail (.unknownKeys unknown expanded.names))

def walkMapping (schema : Schema) (value : Value) (ctx : Context) : Program (Run Failure Value) :=
  match value with
  | .keywords entries => (walkEntries schema entries ctx).map fun run => Value.keywords <$> run
  | .map pairs =>
    match value.duplicateIdentifier?, value.entries? with
    | some name, _ => .done (.fail (.ambiguousKey name value))
    | none, none => .done (.fail (.notAMapping value))
    | none, some entries =>
      (walkEntries schema entries ctx).andThen fun output =>
        .done (.succeed (.map (Schema.restoreKeys pairs output)))
  | _ => .done (.fail (.notAMapping value))

def walk (schema : Schema) (value : Value) (ctx : Context) : Program (Run Failure Value) :=
  (Script.done (.note (.entered schema value ctx))).andThen fun _ => walkMapping schema value ctx

def walkItems (schema : Schema) (ctx : Context) (items : List Value) :
    Program (Run Failure (List Value)) :=
  .traverseFrom (fun index item =>
    let here := ctx.step (.index index)
    .create here <| (ask (.walking schema item here)).map fun run =>
      run.mapError (·.nest (.index index))) 0 items

def walkNested (schema : Schema) (value : Value) (ctx : Context) : Program (Run Failure Value) :=
  match value with
  | .list items => (walkItems schema ctx items).map fun run => Value.list <$> run
  | _ => ask (.walking schema value ctx)

def enter (producers : Producers) (nested : Nested) (place : Place) (value : Value)
    (ctx : Context) : Program (Run Failure Value) :=
  if ctx.atLimit then
    .done do
      Run.note (.limitReached place ctx)
      Run.fail (.tooDeep ctx.maxDepth place)
  else match nested.resolve producers place ctx with
    | .error failure => .done (.fail failure)
    | .ok schema =>
      let here := ctx.descend place.segment
      .create here <| (walkNested schema value here).map fun run =>
        run.mapError (·.nest place.segment)

end Walking

section Reviewing

def append (a b : Program Review) : Program Review :=
  a.bind fun first => b.map fun second => first ++ second

instance : Append (Program Review) := ⟨append⟩

def reviewEach {α : Type} (review : α → Program Review) : List α → Program Review
  | [] => .done .empty
  | item :: items => review item ++ reviewEach review items

def checkDefault (spec : KeySpec) (name : String) (value : Value) : Program (Run Failure Value) :=
  let ctx := Context.new
  .create ctx <| (ask (.matching spec.ty (.key name) value ctx)).andThen fun matched =>
    match spec.nested with
    | some nested =>
      if spec.ty.acceptsKeys then ask (.entering nested (.key name) matched ctx)
      else .done (.succeed matched)
    | none => .done (.succeed matched)

def reviewType (expand : Bool) : Ty → Path → Bool → Program Review
  | .union alternatives, path, _ =>
    .done (.check alternatives.isEmpty path .emptyUnion) ++
      reviewEach (fun ty => ask (.reviewingType ty path true expand)) alternatives
  | .listOf item, path, _ => ask (.reviewingType item path true expand)
  | .mapOf key value, path, _ =>
    ask (.reviewingType key path false expand) ++ ask (.reviewingType value path false expand)
  | .tuple items, path, _ =>
    reviewEach (fun ty => ask (.reviewingType ty path false expand)) items
  | .choice choices, path, _ =>
    match choices with
    | .range first last => .done (.check (decide (last < first)) path (.emptyRange first last))
    | .values _ => .done .empty
  | .struct tag, path, _ => .done (.check tag.isEmpty path .emptyStructTag)
  | .keyed container nested, path, keyedAllowed =>
    .done (.check (!keyedAllowed) path .misplacedKeyed ++
        .check (!container.isContainer) path (.keyedNonContainer container)) ++
      ask (.reviewingNested nested path expand)
  | _, _, _ => .done .empty

def reviewKey (spec : KeySpec) (name : String) (path : Path) (expand : Bool) : Program Review :=
  ask (.reviewingType spec.ty path false expand) ++
    .done (.check (spec.nested.isSome && !spec.ty.acceptsKeys) path (.keysNotAllowed spec.ty)) ++
    (match spec.nested with
      | some nested => ask (.reviewingNested nested path expand)
      | none => .done .empty) ++
    match spec.default with
    | some value => (ask (.checkingDefault spec name value)).map (Review.ofDefault path)
    | none => .done .empty

def review (schema : Schema) (path : Path) (expand : Bool) : Program Review :=
  reviewEach (fun entry => reviewKey entry.2 entry.1 (path.pushKey entry.1) expand) schema.keys

def reviewNested (producers : Producers) (nested : Nested) (path : Path) (expand : Bool) :
    Program Review :=
  match nested with
  | .inline schema => ask (.reviewing schema path expand)
  | .lazy producer =>
    if expand then ask (.reviewing (producers producer) path false) else .done .empty
  | .ref _ => .done .empty

end Reviewing

def body (producers : Producers) : (call : Call) → Program call.Answer
  | .matching ty place value ctx => matchValue ty place value ctx
  | .walking schema value ctx => walk schema value ctx
  | .entering nested place value ctx => enter producers nested place value ctx
  | .checkingDefault spec name value => checkDefault spec name value
  | .reviewing schema path expand => review schema path expand
  | .reviewingType ty path keyedAllowed expand => reviewType expand ty path keyedAllowed
  | .reviewingNested nested path expand => reviewNested producers nested path expand

end Program

def OnLazy.when (producers : Producers) (expand : Bool) : OnLazy :=
  if expand then .once producers else fun _ _ => .empty

/-- What each call returns where runs have a budget of levels and reviews are recursion on the
schema. -/
def Call.answer (producers : Producers) : (call : Call) → call.Answer
  | .matching ty place value ctx =>
    ty.check (Nested.enterWithin producers ctx.remaining) place value ctx
  | .walking schema value ctx => schema.validate producers value ctx
  | .entering nested place value ctx => Nested.enter producers nested place value ctx
  | .checkingDefault spec name value => spec.checkDefault producers name value
  | .reviewing schema path expand => schema.reviewAt producers (.when producers expand) path
  | .reviewingType ty path keyedAllowed expand =>
    ty.review producers (.when producers expand) path keyedAllowed
  | .reviewingNested nested path expand => nested.review producers (.when producers expand) path

theorem Run.traverseFrom_map {α β γ ε : Type} (f : Nat → β → Run ε γ) (g : α → β)
    (items : List α) (position : Nat) : traverseFrom f position (items.map g) =
      traverseFrom (fun index item => f index (g item)) position items := by
  induction items generalizing position with
  | nil => rfl
  | cons item items ih => rw [List.map_cons, traverseFrom, traverseFrom, ih]

namespace Program

section Solution

variable {producers : Producers} {answer : (call : Call) → call.Answer} {enter : Enter}

theorem eval_matchAny {place : Place} {value : Value} {ctx : Context} {types : List Ty}
    (matched : ∀ ty ∈ types,
      answer (.matching ty place value ctx) = ty.check enter place value ctx) :
    (matchAny place value ctx types).eval answer = Ty.checkAny enter types place value ctx := by
  induction types with
  | nil => rfl
  | cons ty types ih =>
    rw [List.forall_mem_cons] at matched
    rw [matchAny, Script.eval_orCollect, Script.eval_ask, matched.1, ih matched.2, Ty.checkAny]

theorem eval_matchItems {here : Context} (items : List (Ty × Value))
    (matched : ∀ item ∈ items, ∀ place,
      answer (.matching item.1 place item.2 here) = item.1.check enter place item.2 here) :
    (matchItems here items).eval answer =
      Run.traverseFrom (fun index item => item.1.check enter (.position index) item.2 here) 0
        items := by
  refine Script.eval_traverseFrom (fun index item hitem => ?_) 0
  exact matched item hitem (.position index)

theorem eval_matchPairs {keyTy valueTy : Ty} {here : Context}
    (key : ∀ value,
      answer (.matching keyTy .mapKey value here) = keyTy.check enter .mapKey value here)
    (held : ∀ place value,
      answer (.matching valueTy place value here) = valueTy.check enter place value here)
    (pairs : List (Value × Value)) :
    (matchPairs keyTy valueTy here pairs).eval answer =
      Run.traverse (fun (pair : Value × Value) => do
        let key ← keyTy.check enter .mapKey pair.1 here
        let held ← valueTy.check enter (.mapValue key) pair.2 here
        Run.succeed (key, held)) pairs := by
  rw [Run.traverse_eq_traverseFrom _ pairs 0]
  refine Script.eval_traverseFrom (fun _ pair _ => ?_) 0
  simp only [Script.eval_andThen, Script.eval_ask, key, held]
  rfl

/-- Matching is recursion on the type, and goes on into nested schemas from its own context. -/
theorem eval_matchValue {ty : Ty} {ctx : Context}
    (matched : ∀ part ∈ ty.parts, ∀ place value here, here.remaining = ctx.remaining →
      answer (.matching part place value here) = part.check enter place value here)
    (entered : ∀ nested place value,
      answer (.entering nested place value ctx) = enter nested place value ctx)
    (place : Place) (value : Value) :
    (matchValue ty place value ctx).eval answer = ty.check enter place value ctx := by
  have inside : ∀ part ∈ ty.parts, ∀ place' value',
      answer (.matching part place' value' (ctx.step place.segment)) =
        part.check enter place' value' (ctx.step place.segment) :=
    fun part hpart place' value' => matched part hpart place' value' _ rfl
  cases ty with
  | mapOf keyTy valueTy =>
    cases value with
    | map pairs =>
      rw [matchValue, Script.eval_create, Script.eval_map,
        eval_matchPairs (inside keyTy List.mem_cons_self .mapKey)
          (inside valueTy (List.mem_cons_of_mem _ List.mem_cons_self))]
      rfl
    | _ => rfl
  | union alternatives =>
    have hany : (matchAny place value ctx alternatives).eval answer =
        Ty.checkAny enter alternatives place value ctx :=
      eval_matchAny fun ty hty => matched ty hty place value ctx rfl
    rw [matchValue, Script.eval_map, hany]
    rfl
  | listOf item =>
    cases value with
    | list items =>
      have hitems := eval_matchItems (items.map fun element => (item, element))
        fun pair hpair place' => by
          obtain ⟨element, -, rfl⟩ := List.mem_map.mp hpair
          exact inside item List.mem_cons_self place' element
      rw [matchValue, Script.eval_create, Script.eval_map, hitems, Run.traverseFrom_map]
      rfl
    | _ => rfl
  | tuple types =>
    cases value with
    | tuple items =>
      have hitems := eval_matchItems (types.zip items) fun item hitem place' =>
        inside item.1 (List.of_mem_zip hitem).1 place' item.2
      rw [matchValue, Ty.check, Ty.checkEach_eq_traverseFrom]
      split
      · rw [Script.eval_create, Script.eval_map, hitems]
      · rfl
    | _ => rfl
  | keyed container nested =>
    rw [matchValue, Script.eval_andThen, Script.eval_ask,
      matched container List.mem_cons_self place value ctx rfl]
    simp only [Script.eval_ask, entered]
    rfl
  | _ => rfl

section Level

variable {ctx : Context}
  (matched : ∀ ty place value,
    answer (.matching ty place value ctx) = ty.check enter place value ctx)
  (entered : ∀ nested place value,
    answer (.entering nested place value ctx) = enter nested place value ctx)

include matched entered

theorem eval_checkKey (spec : KeySpec) (name : String) (value : Value) :
    (checkKey spec name value ctx).eval answer = spec.check enter name value ctx := by
  rw [checkKey, Script.eval_andThen, Script.eval_ask, matched, KeySpec.check, Run.bind_eq]
  refine congrArg _ (funext fun value => ?_)
  cases spec.nested with
  | some nested => exact entered nested _ value
  | none => rfl

theorem eval_contribute (input : List (String × Value)) (name : String) (spec : KeySpec) :
    (contribute input ctx name spec).eval answer = spec.contribute enter input ctx name := by
  rw [contribute, KeySpec.contribute]
  cases input.lookup name with
  | some value =>
    simp only [Script.eval_andThen, Script.eval_map, eval_checkKey matched entered]
    rfl
  | none =>
    cases spec.required with
    | true => rfl
    | false =>
      cases spec.default with
      | some value =>
        exact (Script.eval_map _).trans (congrArg _ (eval_checkKey matched entered spec name value))
      | none => rfl

omit matched entered in
theorem eval_contributions {contribute : String → KeySpec → Program (Run Failure (Option Value))}
    {contribute' : String → KeySpec → Run Failure (Option Value)}
    (contributes : ∀ name spec, (contribute name spec).eval answer = contribute' name spec)
    (keys : List (String × KeySpec)) :
    (contributions contribute keys).eval answer = Schema.contributions contribute' keys := by
  induction keys with
  | nil => rfl
  | cons entry keys ih =>
    obtain ⟨name, spec⟩ := entry
    simp only [contributions, Script.eval_andThen, contributes, ih]
    refine congrArg _ (funext fun given => congrArg _ (funext fun others => ?_))
    cases given <;> rfl

theorem eval_walkEntries (schema : Schema) (input : List (String × Value)) :
    (walkEntries schema input ctx).eval answer = schema.walkEntries enter input ctx := by
  rw [walkEntries, Schema.walkEntries]
  cases (schema.expand (Entries.names input)).undeclared (Entries.names input) with
  | nil => exact eval_contributions (eval_contribute matched entered input) _
  | cons name unknown => rfl

theorem eval_walkMapping (schema : Schema) (value : Value) :
    (walkMapping schema value ctx).eval answer = schema.walkMapping enter value ctx := by
  cases value with
  | keywords entries =>
    rw [walkMapping, Script.eval_map, eval_walkEntries matched entered, Schema.walkMapping]
  | map pairs =>
    rw [walkMapping, Schema.walkMapping]
    cases (Value.map pairs).duplicateIdentifier? with
    | some name => rfl
    | none =>
      cases (Value.map pairs).entries? with
      | none => rfl
      | some entries =>
        simp only [Script.eval_andThen, eval_walkEntries matched entered]
        rfl
  | _ => rfl

theorem eval_walk (schema : Schema) (value : Value) :
    (walk schema value ctx).eval answer = schema.walk enter value ctx := by
  simp only [walk, Script.eval_andThen, eval_walkMapping matched entered]
  rfl

end Level

theorem eval_walkNested {ctx : Context} {schema : Schema}
    (walked : ∀ value here, here.remaining = ctx.remaining →
      answer (.walking schema value here) = schema.walk enter value here) (value : Value) :
    (walkNested schema value ctx).eval answer = schema.walkNested enter value ctx := by
  cases value with
  | list items =>
    have hitems : (walkItems schema ctx items).eval answer = Run.traverseFrom (fun index item =>
        (schema.walk enter item (ctx.step (.index index))).mapError (·.nest (.index index))) 0
          items := by
      refine Script.eval_traverseFrom (fun index item _ => ?_) 0
      rw [Script.eval_create, Script.eval_map, Script.eval_ask,
        walked _ _ (ctx.remaining_step _)]
    rw [walkNested, Script.eval_map, hitems, Schema.walkNested]
  | _ => exact walked _ ctx rfl

/-- Each level has one less to go. -/
theorem eval_enter (nested : Nested) (place : Place) (value : Value) (ctx : Context) :
    (Program.enter producers nested place value ctx).eval (Call.answer producers) =
      Nested.enter producers nested place value ctx := by
  rw [Program.enter, Nested.enter]
  cases hlevels : ctx.remaining with
  | zero => rw [if_pos (ctx.atLimit_iff_remaining.mpr hlevels)]; rfl
  | succ levels =>
    have below : ctx.atLimit ≠ true := fun limit => by
      rw [ctx.atLimit_iff_remaining, hlevels] at limit
      cases limit
    rw [if_neg below, Nested.enterWithin]
    cases nested.resolve producers place ctx with
    | error failure => rfl
    | ok schema =>
      have hinner : (ctx.descend place.segment).remaining = levels := by
        rw [Context.remaining_descend, hlevels, Nat.add_sub_cancel]
      have hwalk : (walkNested schema value (ctx.descend place.segment)).eval
          (Call.answer producers) = schema.walkNested (Nested.enterWithin producers levels) value
            (ctx.descend place.segment) :=
        eval_walkNested (fun value here hhere => by
          rw [Call.answer, Schema.validate, hhere, hinner]) value
      simp only [Script.eval_create, Script.eval_map, hwalk]

/-- Where the number of levels to go is read off makes no difference. -/
theorem check_enterWithin (ty : Ty) (place : Place) (value : Value) (ctx : Context) :
    ty.check (Nested.enterWithin producers ctx.remaining) place value ctx =
      ty.check (Nested.enter producers) place value ctx := by
  induction ty using Ty.parts_induction generalizing place value ctx with
  | step ty ih =>
    -- Both are what the program returns, which asks for the parts of the type only.
    have within : (matchValue ty place value ctx).eval (Call.answer producers) =
        ty.check (Nested.enterWithin producers ctx.remaining) place value ctx :=
      eval_matchValue (fun part _ place value here same => by rw [Call.answer, same])
        (fun _ _ _ => rfl) place value
    have asked : (matchValue ty place value ctx).eval (Call.answer producers) =
        ty.check (Nested.enter producers) place value ctx :=
      eval_matchValue (fun part hpart place value here _ => ih part hpart place value here)
        (fun _ _ _ => rfl) place value
    exact within.symm.trans asked

theorem eval_checkDefault (spec : KeySpec) (name : String) (value : Value) :
    (checkDefault spec name value).eval (Call.answer producers) =
      spec.checkDefault producers name value := by
  rw [checkDefault, Script.eval_create, Script.eval_andThen, Script.eval_ask, Call.answer,
    check_enterWithin, KeySpec.checkDefault, Run.bind_eq]
  refine congrArg _ (funext fun matched => ?_)
  cases spec.nested with
  | some nested => cases spec.ty.acceptsKeys <;> rfl
  | none => rfl

theorem eval_append (a b : Program Review) :
    (a ++ b).eval answer = a.eval answer ++ b.eval answer :=
  (Script.eval_bind _).trans (Script.eval_map _)

theorem eval_reviewTypes (types : List Ty) (path : Path) (keyedAllowed expand : Bool) :
    (reviewEach (fun ty => ask (.reviewingType ty path keyedAllowed expand)) types).eval
        (Call.answer producers) =
      Ty.reviewAll producers (.when producers expand) types path keyedAllowed := by
  induction types with
  | nil => rfl
  | cons ty types ih => rw [reviewEach, eval_append, ih]; rfl

theorem eval_reviewType (ty : Ty) (path : Path) (keyedAllowed expand : Bool) :
    (reviewType expand ty path keyedAllowed).eval (Call.answer producers) =
      ty.review producers (.when producers expand) path keyedAllowed := by
  cases ty with
  | union alternatives => rw [reviewType, eval_append, eval_reviewTypes]; rfl
  | tuple items => exact eval_reviewTypes items path false expand
  | choice choices => cases choices <;> rfl
  | _ => rfl

theorem eval_reviewKey (spec : KeySpec) (name : String) (path : Path) (expand : Bool) :
    (reviewKey spec name path expand).eval (Call.answer producers) =
      spec.review producers (.when producers expand) name path := by
  obtain ⟨ty, required, default, nested, deprecated, doc, subsection, typeDoc⟩ := spec
  cases nested <;> cases default <;> rfl

theorem eval_review (schema : Schema) (path : Path) (expand : Bool) :
    (review schema path expand).eval (Call.answer producers) =
      schema.reviewAt producers (.when producers expand) path := by
  obtain ⟨keys⟩ := schema
  rw [review, Schema.reviewAt]
  induction keys with
  | nil => rfl
  | cons entry keys ih =>
    rw [reviewEach, eval_append, eval_reviewKey, ih, Schema.reviewKeys]

theorem eval_reviewNested (nested : Nested) (path : Path) (expand : Bool) :
    (reviewNested producers nested path expand).eval (Call.answer producers) =
      nested.review producers (.when producers expand) path := by
  cases nested with
  | inline schema => rfl
  | lazy producer => cases expand <;> rfl
  | ref name => rfl

/-- Runs with a budget of levels and reviews by recursion on the schema solve the equations of the
program. -/
theorem eval_body (producers : Producers) (call : Call) :
    (body producers call).eval (Call.answer producers) = Call.answer producers call := by
  cases call with
  | matching ty place value ctx =>
    exact eval_matchValue (fun part _ place value here same => by rw [Call.answer, same])
      (fun _ _ _ => rfl) place value
  | walking schema value ctx => exact eval_walk (fun _ _ _ => rfl) (fun _ _ _ => rfl) schema value
  | entering nested place value ctx => exact eval_enter nested place value ctx
  | checkingDefault spec name value => exact eval_checkDefault spec name value
  | reviewing schema path expand => exact eval_review schema path expand
  | reviewingType ty path keyedAllowed expand => exact eval_reviewType ty path keyedAllowed expand
  | reviewingNested nested path expand => exact eval_reviewNested nested path expand

end Solution

end Program

end OptionSchema
