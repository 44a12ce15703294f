import OptionSchema.Proofs.FirstFault
/-!
# How a match fails

A value is refused as such or for one of its parts, by all alternatives of a union, or by the nested
schema that it is handed on to. What holds of the failure of a match is shown by going through these
ways.
-/
namespace OptionSchema

namespace Value

def noun? : Value → Option String
  | .list _ => some "list"
  | .tuple _ => some "tuple"
  | .map _ => some "map"
  | _ => none

end Value

namespace Failure

variable {failure : Failure} {noun : String} {place : Place} {composite : Value}

theorem within_of_nested (nested : failure.path ≠ .root) :
    failure.within noun place composite = failure.nest place.segment := by
  have inside : failure.isNested = true := by
    rw [isNested, Bool.not_eq_true', List.isEmpty_eq_false_iff]
    exact nested
  rw [within, if_pos inside]

theorem within_of_own (own : failure.path = .root) :
    failure.within noun place composite = ((new failure.kind place ("invalid " ++ noun ++ " in "
      ++ place.text ++ ": " ++ failure.message)).withValue composite).withCauses [failure] := by
  rw [within, isNested, own]
  rfl

end Failure

theorem Run.orCollect_eq_error {ε α : Type} {run : Run ε α} {next : Unit → Run (List ε) α}
    {errors : List ε} (failed : (run.orCollect next).outcome = .error errors) :
    ∃ error others, run.outcome = .error error ∧ (next ()).outcome = .error others ∧
      errors = error :: others := by
  rw [orCollect] at failed
  cases hrun : run.outcome with
  | ok value =>
    rw [hrun] at failed
    cases failed
  | error error =>
    rw [hrun] at failed
    obtain ⟨others, hnext, rfl⟩ := mapError_eq_error failed
    exact ⟨error, others, rfl, hnext, rfl⟩

namespace Ty

/-- The value is of the kind that the type asks for, whatever its parts are. Types that only pass it
on ask for no kind. -/
inductive Outlines : Ty → Value → Prop where
  | plain {ty : Ty} {value : Value} (fits : ty.Fits value) : Outlines ty value
  | mapOf (keyTy valueTy : Ty) (pairs : List (Value × Value)) :
      Outlines (.mapOf keyTy valueTy) (.map pairs)
  | listOf (item : Ty) (items : List Value) : Outlines (.listOf item) (.list items)
  | tuple {types : List Ty} {items : List Value} (size : types.length = items.length) :
      Outlines (.tuple types) (.tuple items)
  | custom (validator : Validator) (value : Value) : Outlines (.custom validator) value
  | union (alternatives : List Ty) (value : Value) : Outlines (.union alternatives) value
  | keyed (container : Ty) (nested : Nested) (value : Value) :
      Outlines (.keyed container nested) value

theorem outlines_iff_admits {ty : Ty} (plain : ty.isPlain = true) {value : Value} :
    ty.Outlines value ↔ ty.admits value = true := by
  rw [← fits_iff_admits plain]
  constructor
  · rintro (fits | _)
    · exact fits
    all_goals cases plain
  · exact .plain

inductive Refuses (enter : Enter) (place : Place) (ctx : Context) :
    Ty → Value → Failure → Prop where
  | mismatch {ty : Ty} {value : Value} (other : ¬ ty.Outlines value) :
      Refuses enter place ctx ty value (.mismatch ty place value)
  | refused {validator : Validator} {value : Value} {reason : String}
      (h : validator.call value = .error reason) :
      Refuses enter place ctx (.custom validator) value (.refused reason place value)
  /-- A part of the value has failed, matched one step further in. -/
  | part {ty sub : Ty} {value item : Value} {inner : Place} {noun : String} {cause : Failure}
      (hsub : sub ∈ ty.parts) (hitem : item ∈ value.parts) (hnoun : value.noun? = some noun)
      (failed : (sub.check enter inner item (ctx.step place.segment)).outcome = .error cause) :
      Refuses enter place ctx ty value (cause.within noun place value)
  | exhausted {alternatives : List Ty} {value : Value} {causes : List Failure}
      (each : List.Forall₂ (fun ty cause => (ty.check enter place value ctx).outcome = .error cause)
        alternatives causes) :
      Refuses enter place ctx (.union alternatives) value (.exhausted place value causes)
  | container {container : Ty} {nested : Nested} {value : Value} {failure : Failure}
      (failed : (container.check enter place value ctx).outcome = .error failure) :
      Refuses enter place ctx (.keyed container nested) value failure
  /-- The nested schema has failed on what the container was matched as. -/
  | onward {container : Ty} {nested : Nested} {value matched : Value} {failure : Failure}
      (failed : (enter nested place matched ctx).outcome = .error failure) :
      Refuses enter place ctx (.keyed container nested) value failure

variable {enter : Enter} {place : Place} {ctx : Context} {value : Value} {failure : Failure}

theorem checkAny_eq_error {types : List Ty} {causes : List Failure}
    (failed : (checkAny enter types place value ctx).outcome = .error causes) :
    List.Forall₂ (fun ty cause => (ty.check enter place value ctx).outcome = .error cause) types
      causes := by
  induction types generalizing causes with
  | nil =>
    cases failed
    exact .nil
  | cons ty types ih =>
    rw [checkAny] at failed
    obtain ⟨cause, others, first, later, rfl⟩ := Run.orCollect_eq_error failed
    exact .cons first (ih later)

theorem refuses_of_fail {ty : Ty} {own : Failure} (h : ty.Refuses enter place ctx value own)
    (failed : (Run.fail own : Run Failure Value).outcome = .error failure) :
    ty.Refuses enter place ctx value failure := by
  cases failed
  exact h

theorem refuses_mapOf {keyTy valueTy : Ty}
    (failed : ((mapOf keyTy valueTy).check enter place value ctx).outcome = .error failure) :
    (mapOf keyTy valueTy).Refuses enter place ctx value failure := by
  cases value with
  | map pairs =>
    rw [check] at failed
    obtain ⟨cause, stopped, rfl⟩ := Run.mapError_eq_error (Run.map_eq_error failed)
    obtain ⟨before, pair, after, rfl, -, stopped⟩ := Run.traverse_eq_error stopped
    have hpair := Value.mem_parts_map (List.mem_append_right before (List.mem_cons_self (a := pair)
      (l := after)))
    rcases Run.bind_eq_error stopped with stopped | ⟨key, -, stopped⟩
    · exact .part (by simp [parts]) hpair.1 rfl stopped
    rcases Run.bind_eq_error stopped with stopped | ⟨held, -, stopped⟩
    · exact .part (by simp [parts]) hpair.2 rfl stopped
    · cases stopped
  | _ => exact refuses_of_fail (.mismatch (by rintro ⟨⟨⟩⟩)) failed

theorem refuses_listOf {item : Ty}
    (failed : ((listOf item).check enter place value ctx).outcome = .error failure) :
    (listOf item).Refuses enter place ctx value failure := by
  cases value with
  | list items =>
    rw [check] at failed
    obtain ⟨cause, stopped, rfl⟩ := Run.mapError_eq_error (Run.map_eq_error failed)
    obtain ⟨before, element, after, rfl, -, stopped⟩ := Run.traverseFrom_eq_error stopped
    exact .part (by simp [parts]) (by simp [Value.parts]) rfl stopped
  | _ => exact refuses_of_fail (.mismatch (by rintro ⟨⟨⟩⟩)) failed

theorem refuses_tuple {types : List Ty}
    (failed : ((tuple types).check enter place value ctx).outcome = .error failure) :
    (tuple types).Refuses enter place ctx value failure := by
  cases value with
  | tuple items =>
    rw [check] at failed
    split at failed
    · obtain ⟨cause, stopped, rfl⟩ := Run.mapError_eq_error (Run.map_eq_error failed)
      rw [checkEach_eq_traverseFrom] at stopped
      obtain ⟨before, ⟨ty, item⟩, after, split, -, stopped⟩ := Run.traverseFrom_eq_error stopped
      have hzip : (ty, item) ∈ types.zip items := by simp [split]
      exact .part (List.of_mem_zip hzip).1 (List.of_mem_zip hzip).2 rfl stopped
    · rename_i size
      refine refuses_of_fail (.mismatch ?_) failed
      rintro (⟨⟨⟩⟩ | _)
      exact size ‹_›
  | _ => exact refuses_of_fail (.mismatch (by rintro ⟨⟨⟩⟩)) failed

/-- Every failing match has failed in one of the ways. -/
theorem refuses_of_check {ty : Ty}
    (failed : (ty.check enter place value ctx).outcome = .error failure) :
    ty.Refuses enter place ctx value failure := by
  by_cases plain : ty.isPlain = true
  · rw [check_of_isPlain plain] at failed
    split at failed
    · cases failed
    · rename_i refused
      exact refuses_of_fail (.mismatch fun h => refused ((outlines_iff_admits plain).mp h)) failed
  cases ty with
  | mapOf keyTy valueTy => exact refuses_mapOf failed
  | custom validator =>
    rw [check] at failed
    cases hcall : validator.call value with
    | ok result =>
      rw [hcall] at failed
      cases failed
    | error reason =>
      rw [hcall] at failed
      exact refuses_of_fail (.refused hcall) failed
  | union alternatives =>
    rw [check] at failed
    obtain ⟨causes, stopped, rfl⟩ := Run.mapError_eq_error failed
    exact .exhausted (checkAny_eq_error stopped)
  | listOf item => exact refuses_listOf failed
  | tuple types => exact refuses_tuple failed
  | keyed container nested =>
    rw [check] at failed
    rcases Run.bind_eq_error failed with failed | ⟨matched, -, failed⟩
    · exact .container failed
    · exact .onward failed
  | _ => exact absurd rfl plain

end Ty

end OptionSchema
