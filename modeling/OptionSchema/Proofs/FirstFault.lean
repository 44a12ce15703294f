import OptionSchema.Proofs.Acceptance
import OptionSchema.Proofs.FailingWalk
/-!
# The first fault is the one reported

Validation stops at its first failure, whose path says where. At every level on the way all given
keys are declared, and the keys before the one that the path goes on with are in order; so are the
elements before the one that it goes on with, in every list or tuple on the way. Being in order is a
property of the given values, said without running anything.
-/
namespace OptionSchema

namespace Run

variable {ε α β : Type} {items : List α} {error : ε}

theorem traverseFrom_eq_error {f : Nat → α → Run ε β} {position : Nat}
    (failed : (traverseFrom f position items).outcome = .error error) :
    ∃ before item after, items = before ++ item :: after ∧
      (∀ earlier ∈ before, ∃ index, (f index earlier).result?.isSome) ∧
      (f (position + before.length) item).outcome = .error error := by
  induction items generalizing position with
  | nil => cases failed
  | cons item items ih =>
    rcases bind_eq_error failed with failed | ⟨result, first, failed⟩
    · exact ⟨[], item, items, rfl, nofun, failed⟩
    rcases bind_eq_error failed with failed | ⟨results, -, failed⟩
    · obtain ⟨before, other, after, rfl, earlier, failed⟩ := ih failed
      refine ⟨item :: before, other, after, rfl, List.forall_mem_cons.mpr ⟨?_, earlier⟩, ?_⟩
      · exact ⟨position, Option.isSome_of_eq_some (result?_eq_some.mpr first)⟩
      · rwa [List.length_cons, ← Nat.add_assoc, Nat.add_right_comm]
    · cases failed

theorem traverse_eq_traverseFrom (f : α → Run ε β) (items : List α) (position : Nat) :
    traverse f items = traverseFrom (fun _ => f) position items := by
  induction items generalizing position with
  | nil => rfl
  | cons item items ih => rw [traverse, traverseFrom, ih (position + 1)]

theorem traverse_eq_error {f : α → Run ε β}
    (failed : (traverse f items).outcome = .error error) :
    ∃ before item after, items = before ++ item :: after ∧
      (∀ earlier ∈ before, (f earlier).result?.isSome) ∧ (f item).outcome = .error error := by
  rw [traverse_eq_traverseFrom f items 0] at failed
  obtain ⟨before, item, after, split, earlier, failed⟩ := traverseFrom_eq_error failed
  exact ⟨before, item, after, split, fun other hother => (earlier other hother).choose_spec, failed⟩

end Run

theorem Ty.checkEach_eq_traverseFrom (enter : Enter) (types : List Ty) (index : Nat)
    (items : List Value) (ctx : Context) : checkEach enter types index items ctx =
      Run.traverseFrom (fun index part => part.1.check enter (.position index) part.2 ctx) index
        (types.zip items) := by
  induction types generalizing index items with
  | nil => rfl
  | cons ty types ih =>
    cases items with
    | nil => rfl
    | cons item items => rw [checkEach, List.zip_cons_cons, Run.traverseFrom, ih]

theorem Schema.contributions_stop {contribute : String → KeySpec → Run Failure (Option Value)}
    {keys : List (String × KeySpec)} {failure : Failure}
    (failed : (contributions contribute keys).outcome = .error failure) :
    ∃ before name spec after, keys = before ++ (name, spec) :: after ∧
      (∀ earlier ∈ before, (contribute earlier.1 earlier.2).result?.isSome) ∧
      (contribute name spec).outcome = .error failure := by
  induction keys with
  | nil => cases failed
  | cons entry keys ih =>
    obtain ⟨name, spec⟩ := entry
    rcases Run.bind_eq_error failed with failed | ⟨given, first, failed⟩
    · exact ⟨[], name, spec, keys, rfl, nofun, failed⟩
    rcases Run.bind_eq_error failed with failed | ⟨others, -, failed⟩
    · obtain ⟨before, other, its, after, rfl, earlier, failed⟩ := ih failed
      have here := Option.isSome_of_eq_some (Run.result?_eq_some.mpr first)
      exact ⟨(name, spec) :: before, other, its, after, rfl,
        List.forall_mem_cons.mpr ⟨here, earlier⟩, failed⟩
    · cases given <;> cases failed

theorem KeySpec.contribute_eq_error {enter : Enter} {spec : KeySpec} {ctx : Context}
    {input : List (String × Value)} {name : String} {failure : Failure}
    (failed : (spec.contribute enter input ctx name).outcome = .error failure) :
    failure = .missing name (Entries.names input) ∨
      ∃ held, spec.candidate? input name = some (some held) ∧
        (spec.check enter name held ctx).outcome = .error failure := by
  rw [contribute] at failed
  rw [candidate?]
  cases hgiven : input.lookup name with
  | some value =>
    rw [hgiven] at failed
    rcases Run.bind_eq_error failed with failed | ⟨_, -, failed⟩
    · unfold warn at failed
      cases hdeprecated : spec.deprecated <;> rw [hdeprecated] at failed <;> cases failed
    · exact .inr ⟨value, rfl, Run.map_eq_error failed⟩
  | none =>
    rw [hgiven] at failed
    cases hrequired : spec.required with
    | true =>
      rw [hrequired] at failed
      cases failed
      exact .inl rfl
    | false =>
      rw [hrequired] at failed
      cases hdefault : spec.default with
      | none =>
        rw [hdefault] at failed
        cases failed
      | some value =>
        rw [hdefault] at failed
        exact .inr ⟨value, rfl, Run.map_eq_error failed⟩

structure KeySpec.Suits (inner : Nested → Value → Prop) (spec : KeySpec) (name : String)
    (entries : List (String × Value)) : Prop where
  given : ∀ value, entries.lookup name = some value → spec.Accepts inner value
  absent : name ∉ Entries.names entries →
    spec.required = false ∧ ∀ default, spec.default = some default → spec.Accepts inner default

/-- All given keys are declared. Of the keys, in the order in which they are processed, `name` is
the first that is not in order. -/
structure Schema.StopsAt (inner : Nested → Value → Prop) (schema : Schema)
    (entries : List (String × Value)) (name : String) (spec : KeySpec) : Prop where
  declared : ∀ other ∈ Entries.names entries, ∃ own, schema.specFor? other = some own
  first : ∃ before after,
    (schema.expand (Entries.names entries)).keys = before ++ (name, spec) :: after ∧
      ∀ earlier ∈ before, earlier.2.Suits inner earlier.1 entries
  refused : ¬ spec.Suits inner name entries

mutual

/-- Matching the value against the type leads along the path into a nested schema, to a fault at
`origin`, and nothing before is at fault. -/
inductive Ty.FirstFault (resolve : Resolver) : Nat → Ty → Value → Path → Place → Prop where
  | mapKey {levels : Nat} {keyTy valueTy : Ty} {before after : List (Value × Value)}
      {pair : Value × Value} {path : Path} {origin : Place}
      (earlier : ∀ other ∈ before, keyTy.Conforms (Nested.Satisfied resolve levels) other.1 ∧
        valueTy.Conforms (Nested.Satisfied resolve levels) other.2)
      (h : keyTy.FirstFault resolve levels pair.1 path origin) :
      Ty.FirstFault resolve levels (.mapOf keyTy valueTy) (.map (before ++ pair :: after))
        (Place.mapKey.segment :: path) origin
  | mapValue {levels : Nat} {keyTy valueTy : Ty} {before after : List (Value × Value)}
      {pair : Value × Value} {key : Value} {path : Path} {origin : Place}
      (earlier : ∀ other ∈ before, keyTy.Conforms (Nested.Satisfied resolve levels) other.1 ∧
        valueTy.Conforms (Nested.Satisfied resolve levels) other.2)
      (matched : keyTy.output (Nested.output resolve levels) pair.1 = some key)
      (h : valueTy.FirstFault resolve levels pair.2 path origin) :
      Ty.FirstFault resolve levels (.mapOf keyTy valueTy) (.map (before ++ pair :: after))
        ((Place.mapValue key).segment :: path) origin
  | element {levels : Nat} {item : Ty} {before after : List Value} {element : Value} {path : Path}
      {origin : Place}
      (earlier : ∀ other ∈ before, item.Conforms (Nested.Satisfied resolve levels) other)
      (h : item.FirstFault resolve levels element path origin) :
      Ty.FirstFault resolve levels (.listOf item) (.list (before ++ element :: after))
        (.index before.length :: path) origin
  | item {levels : Nat} {types : List Ty} {items : List Value} {before after : List (Ty × Value)}
      {ty : Ty} {item : Value} {path : Path} {origin : Place}
      (size : types.length = items.length)
      (split : types.zip items = before ++ (ty, item) :: after)
      (earlier : ∀ other ∈ before, other.1.Conforms (Nested.Satisfied resolve levels) other.2)
      (h : ty.FirstFault resolve levels item path origin) :
      Ty.FirstFault resolve levels (.tuple types) (.tuple items) (.index before.length :: path)
        origin
  | keyed {levels : Nat} {container : Ty} {nested : Nested} {value : Value} {path : Path}
      {origin : Place} (conforms : container.Conforms (Nested.Satisfied resolve levels) value)
      (h : nested.FirstFault resolve levels value path origin) :
      Ty.FirstFault resolve levels (.keyed container nested) value path origin

inductive Nested.FirstFault (resolve : Resolver) : Nat → Nested → Value → Path → Place → Prop where
  | whole {levels : Nat} {nested : Nested} {next : Schema} {value : Value} {path : Path}
      {origin : Place} (resolved : resolve nested = some next)
      (single : ∀ items, value ≠ .list items)
      (h : next.FirstFault resolve levels value path origin) :
      Nested.FirstFault resolve (levels + 1) nested value path origin
  | element {levels : Nat} {nested : Nested} {next : Schema} {before after : List Value}
      {element : Value} {path : Path} {origin : Place} (resolved : resolve nested = some next)
      (earlier : ∀ other ∈ before, next.Holds (Nested.Satisfied resolve levels) other)
      (h : next.FirstFault resolve levels element path origin) :
      Nested.FirstFault resolve (levels + 1) nested (.list (before ++ element :: after))
        (.index before.length :: path) origin

inductive KeySpec.FirstFault (resolve : Resolver) :
    Nat → KeySpec → Value → Path → Place → Prop where
  | type {levels : Nat} {spec : KeySpec} {value : Value} {path : Path} {origin : Place}
      (h : spec.ty.FirstFault resolve levels value path origin) :
      KeySpec.FirstFault resolve levels spec value path origin
  | nested {levels : Nat} {spec : KeySpec} {nested : Nested} {value : Value} {path : Path}
      {origin : Place} (conforms : spec.ty.Conforms (Nested.Satisfied resolve levels) value)
      (under : spec.nested = some nested)
      (h : nested.FirstFault resolve levels value path origin) :
      KeySpec.FirstFault resolve levels spec value path origin

/-- The level has its first fault at `origin`, inside the keys and indices of the path. -/
inductive Schema.FirstFault (resolve : Resolver) : Nat → Schema → Value → Path → Place → Prop where
  | unreadable {levels : Nat} {schema : Schema} {value : Value} (h : value.entries? = none) :
      Schema.FirstFault resolve levels schema value .root .root
  | undeclared {levels : Nat} {schema : Schema} {value : Value} {entries : List (String × Value)}
      {names : List String} (reads : value.Reads entries)
      (unknown : names = (Entries.names entries).filter fun name => (schema.specFor? name).isNone)
      (some : names ≠ []) :
      Schema.FirstFault resolve levels schema value .root (.unknown names)
  | key {levels : Nat} {schema : Schema} {value : Value} {entries : List (String × Value)}
      {name : String} {spec : KeySpec} (reads : value.Reads entries)
      (stops : schema.StopsAt (Nested.Satisfied resolve levels) entries name spec) :
      Schema.FirstFault resolve levels schema value .root (.key name)
  | inside {levels : Nat} {schema : Schema} {value held : Value} {entries : List (String × Value)}
      {name : String} {spec : KeySpec} {path : Path} {origin : Place} (reads : value.Reads entries)
      (stops : schema.StopsAt (Nested.Satisfied resolve levels) entries name spec)
      (candidate : spec.candidate? entries name = some (some held))
      (h : spec.FirstFault resolve levels held path origin) :
      Schema.FirstFault resolve levels schema value (.key name :: path) origin

end

/-- The failure is one of the place itself, or is due to a fault below it. -/
inductive Failure.Shows (fault : Path → Place → Prop) (place : Place) (failure : Failure) :
    Prop where
  | here (path : failure.path = .root) (own : failure.place = place)
  | below {rest : Path} (path : failure.path = place.segment :: rest)
      (h : fault rest failure.place)

namespace Failure.Shows

variable {fault outer : Path → Place → Prop} {place part : Place} {failure : Failure}

theorem of_fail {α : Type} {own : Failure} (path : own.path = .root) (hplace : own.place = place)
    (failed : (Run.fail own : Run Failure α).outcome = .error failure) :
    failure.Shows fault place := by
  cases failed
  exact .here path hplace

theorem imp (h : failure.Shows fault place) (himp : ∀ path origin, fault path origin →
    outer path origin) : failure.Shows outer place := by
  cases h with
  | here path own => exact .here path own
  | below path h => exact .below path (himp _ _ h)

theorem within (h : failure.Shows fault part) (step : ∀ path origin, fault path origin →
    outer (part.segment :: path) origin) (noun : String) (composite : Value) :
    (failure.within noun place composite).Shows outer place := by
  rw [Failure.within, isNested]
  cases h with
  | here path =>
    rw [path]
    exact .here rfl rfl
  | below path h =>
    rw [path]
    exact .below (congrArg (place.segment :: ·) path) (step _ _ h)

end Failure.Shows

variable {producers : Producers} {outer ctx : Context} {levels : Nat} {schema : Schema}
  {failure : Failure}

def Ty.Reports (producers : Producers) (outer : Context) (levels : Nat) (ty : Ty) : Prop :=
  ∀ place value (ctx : Context) failure, ctx.registry = outer.registry →
    (ty.check (Nested.enterWithin producers levels) place value ctx).outcome = .error failure →
      failure.Shows (ty.FirstFault (outer.resolver producers) levels value) place

def Nested.Reports (producers : Producers) (outer : Context) (levels : Nat) (nested : Nested) :
    Prop :=
  ∀ place value (ctx : Context) failure, ctx.registry = outer.registry →
    (Nested.enterWithin producers levels nested place value ctx).outcome = .error failure →
      failure.Shows (nested.FirstFault (outer.resolver producers) levels value) place

section Level

variable (every : schema.EveryLevel (outer.resolver producers) fun level =>
    level.names.Nodup ∧ level.WellKeyed)

include every

namespace Ty

variable {ty : Ty}

theorem conforms_of_check (hty : ty ∈ schema.types) (hregistry : ctx.registry = outer.registry)
    {place : Place} {value : Value}
    (accepted : (ty.check (Nested.enterWithin producers levels) place value ctx).result?.isSome) :
    ty.Conforms (Nested.Satisfied (outer.resolver producers) levels) value := by
  rw [result?_check (Nested.returns_enterWithin producers outer levels) ty place value ctx
    hregistry] at accepted
  refine (isSome_output_iff (fun container nested hsub => ?_) (fun container nested hsub => ?_)
    value).mp accepted
  · exact every.self.2.keyed container nested (Schema.mem_types_of_subterm hty hsub)
  · exact Nested.isSome_output_iff levels fun next resolved =>
      every.nested (.type (Schema.mem_types_of_subterm hty hsub)) resolved

theorem reports_mapOf {keyTy valueTy : Ty} (hkey : keyTy ∈ schema.types)
    (hvalue : valueTy ∈ schema.types) (keys : keyTy.Reports producers outer levels)
    (values : valueTy.Reports producers outer levels) :
    (mapOf keyTy valueTy).Reports producers outer levels := by
  intro place value ctx failure hregistry failed
  have inward : (ctx.step place.segment).registry = outer.registry := hregistry
  cases value with
  | map pairs =>
    rw [check] at failed
    obtain ⟨own, stopped, rfl⟩ := Run.mapError_eq_error (Run.map_eq_error failed)
    obtain ⟨before, pair, after, rfl, accepted, stopped⟩ := Run.traverse_eq_error stopped
    have earlier : ∀ other ∈ before,
        keyTy.Conforms (Nested.Satisfied (outer.resolver producers) levels) other.1 ∧
          valueTy.Conforms (Nested.Satisfied (outer.resolver producers) levels) other.2 := by
      intro other hother
      obtain ⟨result, hresult⟩ := Option.isSome_iff_exists.mp (accepted other hother)
      simp only [Run.result?_bind, Option.bind_eq_some_iff] at hresult
      obtain ⟨key, hmatched, held, hheld, -⟩ := hresult
      exact ⟨conforms_of_check every hkey inward (Option.isSome_of_eq_some hmatched),
        conforms_of_check every hvalue inward (Option.isSome_of_eq_some hheld)⟩
    rcases Run.bind_eq_error stopped with stopped | ⟨key, matched, stopped⟩
    · exact (keys _ _ _ _ inward stopped).within (fun path origin h => .mapKey earlier h) _ _
    rcases Run.bind_eq_error stopped with stopped | ⟨held, -, stopped⟩
    · rw [← Run.result?_eq_some, result?_check (Nested.returns_enterWithin producers outer levels)
        keyTy _ _ _ inward] at matched
      exact (values _ _ _ _ inward stopped).within
        (fun path origin h => .mapValue earlier matched h) _ _
    · cases stopped
  | _ => exact .of_fail rfl rfl failed

theorem reports_listOf {item : Ty} (hitem : item ∈ schema.types)
    (items : item.Reports producers outer levels) :
    (listOf item).Reports producers outer levels := by
  intro place value ctx failure hregistry failed
  have inward : (ctx.step place.segment).registry = outer.registry := hregistry
  cases value with
  | list elements =>
    rw [check] at failed
    obtain ⟨own, stopped, rfl⟩ := Run.mapError_eq_error (Run.map_eq_error failed)
    obtain ⟨before, element, after, rfl, accepted, stopped⟩ := Run.traverseFrom_eq_error stopped
    have earlier : ∀ other ∈ before, item.Conforms _ other := fun other hother =>
      conforms_of_check every hitem inward (accepted other hother).choose_spec
    rw [Nat.zero_add] at stopped
    exact (items _ _ _ _ inward stopped).within (fun path origin h => .element earlier h) _ _
  | _ => exact .of_fail rfl rfl failed

theorem reports_tuple {types : List Ty} (htypes : ∀ ty ∈ types, ty ∈ schema.types)
    (each : ∀ ty ∈ types, ty.Reports producers outer levels) :
    (tuple types).Reports producers outer levels := by
  intro place value ctx failure hregistry failed
  have inward : (ctx.step place.segment).registry = outer.registry := hregistry
  cases value with
  | tuple items =>
    rw [check] at failed
    split at failed
    · rename_i size
      obtain ⟨own, stopped, rfl⟩ := Run.mapError_eq_error (Run.map_eq_error failed)
      rw [checkEach_eq_traverseFrom] at stopped
      obtain ⟨before, ⟨ty, item⟩, after, split, accepted, stopped⟩ :=
        Run.traverseFrom_eq_error stopped
      have hzip : ∀ pair ∈ before ++ (ty, item) :: after, pair.1 ∈ types := fun pair hpair =>
        (List.of_mem_zip (split ▸ hpair)).1
      have earlier : ∀ other ∈ before, other.1.Conforms _ other.2 := fun other hother =>
        conforms_of_check every (htypes _ (hzip other (List.mem_append_left _ hother))) inward
          (accepted other hother).choose_spec
      rw [Nat.zero_add] at stopped
      exact (each ty (hzip (ty, item) (by simp)) _ _ _ _ inward stopped).within
        (fun path origin h => .item size split earlier h) _ _
    · exact .of_fail rfl rfl failed
  | _ => exact .of_fail rfl rfl failed

end Ty

theorem KeySpec.suits_iff {own name : String} {spec : KeySpec} (h : (own, spec) ∈ schema.keys)
    (hregistry : ctx.registry = outer.registry) (input : List (String × Value)) :
    (spec.contribute (Nested.enterWithin producers levels) input ctx name).result?.isSome ↔
      spec.Suits (Nested.Satisfied (outer.resolver producers) levels) name input := by
  have accepts := Schema.accepts_iff every.self.2 (fun nested mention =>
    Nested.isSome_output_iff levels fun next resolved => every.nested mention resolved) h
  rw [← Option.isSome_map (f := Option.map fun value => (name, value)),
    result?_contribute (Nested.returns_enterWithin producers outer levels) input ctx hregistry]
  by_cases hname : name ∈ Entries.names input
  · rw [isSome_contribution_of_given accepts hname]
    exact ⟨fun given => ⟨given, fun absent => absurd hname absent⟩, fun suits => suits.given⟩
  · rw [isSome_contribution_of_absent accepts hname]
    refine ⟨fun absent => ⟨fun value hvalue => ?_, fun _ => absent⟩, fun h => h.absent hname⟩
    exact absurd (Entries.mem_names (Entries.mem_of_lookup hvalue)) hname

variable (reports : ∀ nested, schema.Mentions nested → nested.Reports producers outer levels)

include reports

theorem Ty.reports_of_mem {ty : Ty} (hty : ty ∈ schema.types) :
    ty.Reports producers outer levels := by
  induction ty using parts_induction with
  | step ty ih =>
    have mem : ∀ sub ∈ ty.parts, sub ∈ schema.types := fun sub hsub =>
      Schema.mem_types_of_subterm hty (subterms_of_part hsub (self_mem_subterms sub))
    have part : ∀ sub ∈ ty.parts, sub.Reports producers outer levels := fun sub hsub =>
      ih sub hsub (mem sub hsub)
    by_cases plain : ty.isPlain = true
    · intro place value ctx failure _ failed
      rw [check_of_isPlain plain] at failed
      split at failed
      · cases failed
      · exact .of_fail rfl rfl failed
    cases ty with
    | mapOf keyTy valueTy =>
      exact reports_mapOf every (mem _ (by simp [parts])) (mem _ (by simp [parts]))
        (part _ (by simp [parts])) (part _ (by simp [parts]))
    | custom validator =>
      intro place value ctx failure _ failed
      rw [check] at failed
      cases hcall : validator.call value with
      | ok result =>
        rw [hcall] at failed
        cases failed
      | error reason =>
        rw [hcall] at failed
        exact .of_fail rfl rfl failed
    | union alternatives =>
      -- Whatever the alternatives have met, the union itself is at fault.
      intro place value ctx failure _ failed
      obtain ⟨causes, -, rfl⟩ := Run.mapError_eq_error failed
      exact .here rfl rfl
    | listOf item =>
      exact reports_listOf every (mem _ (by simp [parts])) (part _ (by simp [parts]))
    | tuple types => exact reports_tuple every mem part
    | keyed container nested =>
      intro place value ctx failure hregistry failed
      have plain := isPlain_of_isContainer (every.self.2.keyed container nested hty)
      rw [check, check_of_isPlain plain] at failed
      split at failed
      · rename_i admits
        have conforms : container.Conforms (Nested.Satisfied (outer.resolver producers) levels)
            value := (conforms_of_isPlain plain).mpr admits
        exact (reports nested (.type hty) place value ctx failure hregistry failed).imp
          fun path origin h => .keyed conforms h
      · exact .of_fail rfl rfl failed
    | _ => exact absurd rfl plain

variable (hregistry : ctx.registry = outer.registry)

include hregistry

theorem KeySpec.shows_check {own name : String} {spec : KeySpec} (h : (own, spec) ∈ schema.keys)
    {value : Value} (failed : (spec.check (Nested.enterWithin producers levels) name value
      ctx).outcome = .error failure) :
    failure.Shows (spec.FirstFault (outer.resolver producers) levels value) (.key name) := by
  have hty := Schema.mem_types h (Ty.self_mem_subterms spec.ty)
  rcases Run.bind_eq_error failed with refused | ⟨matched, hmatched, further⟩
  · exact (Ty.reports_of_mem every reports hty _ _ _ _ hregistry refused).imp
      fun path origin h => .type h
  cases hnested : spec.nested with
  | none =>
    rw [hnested] at further
    cases further
  | some nested =>
    rw [hnested] at further
    have output := Run.result?_eq_some.mpr hmatched
    have conforms := Ty.conforms_of_check every hty hregistry (Option.isSome_of_eq_some output)
    rw [Ty.result?_check (Nested.returns_enterWithin producers outer levels) _ _ _ _ hregistry]
      at output
    obtain rfl : matched = value := Ty.output_eq_of_acceptsKeys
      (every.self.2.keys _ h (Option.isSome_of_eq_some hnested)) output
    exact (reports nested (.key h hnested) _ matched ctx failure hregistry further).imp
      fun path origin h => .nested conforms hnested h

theorem KeySpec.shows_contribute {own name : String} {spec : KeySpec}
    (h : (own, spec) ∈ schema.keys) {input : List (String × Value)}
    (failed : (spec.contribute (Nested.enterWithin producers levels) input ctx name).outcome =
      .error failure) :
    failure.Shows (fun path origin => ∃ held, spec.candidate? input name = some (some held) ∧
      spec.FirstFault (outer.resolver producers) levels held path origin) (.key name) := by
  rcases contribute_eq_error failed with rfl | ⟨held, candidate, failed⟩
  · exact .here rfl rfl
  · exact (KeySpec.shows_check every reports hregistry h failed).imp
      fun path origin fault => ⟨held, candidate, fault⟩

namespace Schema

theorem firstFault_of_walkEntries {value : Value} {input : List (String × Value)}
    (reads : value.Reads input)
    (failed : (schema.walkEntries (Nested.enterWithin producers levels) input ctx).outcome =
      .error failure) :
    schema.FirstFault (outer.resolver producers) levels value failure.path failure.place := by
  rw [walkEntries] at failed
  cases hunknown : (schema.expand (Entries.names input)).undeclared (Entries.names input) with
  | cons name names =>
    rw [hunknown] at failed
    cases failed
    rw [undeclared_expand] at hunknown
    exact .undeclared reads hunknown.symm (List.cons_ne_nil name names)
  | nil =>
    rw [hunknown] at failed
    obtain ⟨before, name, spec, after, split, accepted, stopped⟩ := contributions_stop failed
    have suits : ∀ entry ∈ before ++ (name, spec) :: after, (entry.2.contribute
        (Nested.enterWithin producers levels) input ctx entry.1).result?.isSome ↔
          entry.2.Suits (Nested.Satisfied (outer.resolver producers) levels) entry.1 input := by
      intro entry hentry
      obtain ⟨own, hown⟩ := mem_of_mem_expand (split ▸ hentry)
      exact KeySpec.suits_iff every hown hregistry input
    have stops : schema.StopsAt (Nested.Satisfied (outer.resolver producers) levels) input name
        spec := by
      refine ⟨fun other hother => ?_, ⟨before, after, split, fun earlier hearlier => ?_⟩, ?_⟩
      · exact Option.isSome_iff_exists.mp
          ((undeclared_expand_eq_nil every.self.1).mp hunknown other hother)
      · exact (suits earlier (List.mem_append_left _ hearlier)).mp (accepted earlier hearlier)
      · rw [← suits (name, spec) (by simp), Run.result?, stopped]
        exact Bool.false_ne_true
    have stopping : (name, spec) ∈ (schema.expand (Entries.names input)).keys := by
      rw [split]
      exact List.mem_append_right _ List.mem_cons_self
    obtain ⟨own, hown⟩ := mem_of_mem_expand stopping
    cases KeySpec.shows_contribute every reports hregistry hown stopped with
    | here path origin =>
      rw [path, origin]
      exact .key reads stops
    | below path h =>
      obtain ⟨held, candidate, fault⟩ := h
      rw [path]
      exact .inside reads stops candidate fault

theorem firstFault_of_walk {value : Value}
    (failed : (schema.walk (Nested.enterWithin producers levels) value ctx).outcome =
      .error failure) :
    schema.FirstFault (outer.resolver producers) levels value failure.path failure.place := by
  cases hreads : value.entries? with
  | some input =>
    exact firstFault_of_walkEntries every reports hregistry (Value.reads_iff.mpr hreads)
      (walk_eq_error hreads failed).1
  | none =>
    obtain ⟨own, -, place, path, refused⟩ := walk_of_unread hreads
    rw [refused] at failed
    cases failed
    rw [path, place]
    exact .unreadable hreads

omit reports in
theorem holds_of_walk {value : Value}
    (accepted : (schema.walk (Nested.enterWithin producers levels) value ctx).result?.isSome) :
    schema.Holds (Nested.Satisfied (outer.resolver producers) levels) value := by
  rw [result?_walk (Nested.returns_enterWithin producers outer levels) schema value ctx hregistry]
    at accepted
  exact (isSome_outputMapping_iff every.self.1 every.self.2 (fun nested mention =>
    Nested.isSome_output_iff levels fun next resolved => every.nested mention resolved) value).mp
      accepted

theorem firstFault_of_walkNested {nested : Nested} {value : Value}
    (resolved : outer.resolver producers nested = some schema)
    (failed : (schema.walkNested (Nested.enterWithin producers levels) value ctx).outcome =
      .error failure) :
    nested.FirstFault (outer.resolver producers) (levels + 1) value failure.path failure.place := by
  cases value with
  | list items =>
    obtain ⟨before, element, after, rfl, accepted, reached⟩ :=
      Run.traverseFrom_eq_error (Run.map_eq_error failed)
    obtain ⟨own, stopped, rfl⟩ := Run.mapError_eq_error reached
    have stepped : ∀ index, (ctx.step (.index index)).registry = outer.registry :=
      fun _ => hregistry
    rw [Nat.zero_add] at stopped ⊢
    have earlier : ∀ other ∈ before,
        schema.Holds (Nested.Satisfied (outer.resolver producers) levels) other := by
      intro other hother
      obtain ⟨index, accepted⟩ := accepted other hother
      rw [Run.result?_mapError] at accepted
      exact holds_of_walk every (stepped index) accepted
    exact .element resolved earlier (firstFault_of_walk every reports (stepped _) stopped)
  | _ => exact .whole resolved nofun (firstFault_of_walk every reports hregistry failed)

end Schema

end Level

theorem Nested.reports_enterWithin (levels : Nat) {nested : Nested}
    (every : ∀ next, outer.resolver producers nested = some next →
      next.EveryLevel (outer.resolver producers) fun level =>
        level.names.Nodup ∧ level.WellKeyed) :
    nested.Reports producers outer levels := by
  induction levels generalizing nested with
  | zero =>
    rintro place value ctx _ - ⟨⟩
    exact .here rfl rfl
  | succ levels ih =>
    intro place value ctx failure hregistry failed
    rcases enterWithin_succ producers levels nested place value hregistry with
      ⟨name, -, fails⟩ | ⟨next, resolved, walks⟩
    · rw [fails] at failed
      exact .of_fail rfl rfl failed
    · rw [walks] at failed
      have below := every next resolved
      have reports : ∀ inner, next.Mentions inner → inner.Reports producers outer levels :=
        fun inner mention => ih fun _ resolved => below.nested mention resolved
      have descended : (ctx.descend place.segment).registry = outer.registry := hregistry
      obtain ⟨own, stopped, rfl⟩ := Run.mapError_eq_error failed
      exact .below rfl (next.firstFault_of_walkNested below reports descended resolved stopped)

/-- Validation fails at the first fault: whatever comes before, at each level and in each list or
tuple on the path of the failure, is in order. Specifications are kept by name, so that no name
comes twice in a level. -/
theorem first_fault_reported (producers : Producers) (schema : Schema) (value : Value)
    (ctx : Context) (failure : Failure)
    (passes : schema.EveryLevel (ctx.resolver producers) (·.Passes producers))
    (once : schema.EveryLevel (ctx.resolver producers) (·.names.Nodup))
    (failed : (schema.validate producers value ctx).outcome = .error failure) :
    schema.FirstFault (ctx.resolver producers) ctx.remaining value failure.path failure.place := by
  have every : schema.EveryLevel (ctx.resolver producers) fun level =>
      level.names.Nodup ∧ level.WellKeyed := fun level reached =>
    ⟨once level reached, (passes level reached).wellKeyed⟩
  exact schema.firstFault_of_walk every (fun _ mention => Nested.reports_enterWithin
    ctx.remaining fun _ resolved => every.nested mention resolved) rfl failed

def namelessStep : Value :=
  .keywords [("name", .string "build"), ("after", .map [(.atom "ok", .list
    [.map [(.string "name", .string "test")],
      .map [(.string "name", .string "ship"), (.string "steps", .list
        [.keywords [("name", .string "pack")], .keywords [("retries", .integer 0)]])]])])]

theorem namelessStep_fault : ∃ failure,
    (Schema.jobSchema.validate (fun _ => .empty) namelessStep Schema.jobs).outcome =
      .error failure ∧
    Schema.jobSchema.FirstFault (Schema.jobs.resolver fun _ => .empty) Schema.jobs.remaining
      namelessStep [.key "after", .key "ok", .index 1, .key "steps", .index 1] (.key "name") := by
  have failed : (Schema.jobSchema.validate (fun _ => .empty) namelessStep Schema.jobs).outcome =
      .error _ := rfl
  have once : Schema.jobSchema.EveryLevel (Schema.jobs.resolver fun _ => .empty)
      (·.names.Nodup) := Schema.jobSchema_everyLevel (by decide)
  exact ⟨_, failed, first_fault_reported (fun _ => .empty) Schema.jobSchema namelessStep
    Schema.jobs _ (Schema.jobSchema_everyLevel rfl) once failed⟩

end OptionSchema
