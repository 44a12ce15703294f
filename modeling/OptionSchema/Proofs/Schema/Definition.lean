import OptionSchema.Proofs.Schema.Levels
/-!
# The definition rules

What a level must look like on its own is said type by type, whatever the order in which a review
goes through them. A review goes from a schema into the nested ones in place, and on the way into
the schema that a producer makes, but not into what further producers make there. Without findings
it has seen that all levels it looks at follow the rules.
-/
namespace OptionSchema

namespace Ty

def isKeyed : Ty → Bool
  | .keyed .. => true
  | _ => false

/-- The rule for a type, apart from those for the types inside. Keyed types stand directly in
unions and lists only. -/
def WellDefined : Ty → Prop
  | .union alternatives => alternatives ≠ []
  | .choice (.range first last) => first ≤ last
  | .struct tag => tag ≠ ""
  | .mapOf key value => key.isKeyed = false ∧ value.isKeyed = false
  | .tuple items => ∀ item ∈ items, item.isKeyed = false
  | .keyed container _ => container.isContainer = true
  | _ => True

end Ty

structure KeySpec.WellDefined (spec : KeySpec) : Prop where
  outermost : spec.ty.isKeyed = false
  types : ∀ sub ∈ spec.ty.subterms, sub.WellDefined
  keys : spec.nested.isSome → spec.ty.acceptsKeys = true

def Schema.WellDefined (schema : Schema) : Prop := ∀ entry ∈ schema.keys, entry.2.WellDefined

namespace Review

theorem findings_append_eq_nil {a b : Review} :
    (a ++ b).findings = [] ↔ a.findings = [] ∧ b.findings = [] := List.append_eq_nil_iff

theorem findings_check_eq_nil {broken : Bool} {path : Path} {violation : Violation} :
    (check broken path violation).findings = [] ↔ broken = false := by
  cases broken <;> simp [check, empty]

theorem findings_ofDefault_eq_nil {path : Path} {run : Run Failure Value} :
    (ofDefault path run).findings = [] ↔
      ∀ failure, run.outcome = .error failure → failure.kind = .unresolvedReference := by
  rw [ofDefault]
  cases run.outcome <;> simp

end Review

open Review

variable {producers : Producers} {onLazy : OnLazy}

namespace Ty

variable {ty : Ty} {path : Path} {allowed : Bool}

theorem findings_reviewAll_eq_nil {types : List Ty} :
    (reviewAll producers onLazy types path allowed).findings = [] ↔
      ∀ ty ∈ types, (ty.review producers onLazy path allowed).findings = [] := by
  induction types with
  | nil => exact iff_of_true rfl (by simp)
  | cons ty types ih => rw [reviewAll, findings_append_eq_nil, ih, List.forall_mem_cons]

theorem review_of_subterm (h : (ty.review producers onLazy path allowed).findings = []) {sub : Ty}
    (hsub : sub ∈ ty.subterms) :
    ∃ allowed, (sub.review producers onLazy path allowed).findings = [] := by
  induction ty using parts_induction generalizing allowed with
  | step ty ih =>
    rcases mem_subterms_iff.mp hsub with rfl | ⟨part, hpart, hsub⟩
    · exact ⟨allowed, h⟩
    · suffices ∃ allowed, (part.review producers onLazy path allowed).findings = [] by
        obtain ⟨allowed, hreview⟩ := this
        exact ih part hpart hreview hsub
      cases ty with
      | mapOf key value =>
        rw [review, findings_append_eq_nil] at h
        simp only [parts, List.mem_cons, List.not_mem_nil, or_false] at hpart
        rcases hpart with rfl | rfl
        · exact ⟨false, h.1⟩
        · exact ⟨false, h.2⟩
      | union alternatives =>
        rw [review, findings_append_eq_nil, findings_reviewAll_eq_nil] at h
        exact ⟨true, h.2 part hpart⟩
      | listOf item =>
        rw [review] at h
        exact ⟨true, List.mem_singleton.mp hpart ▸ h⟩
      | tuple items =>
        rw [review, findings_reviewAll_eq_nil] at h
        exact ⟨false, h part hpart⟩
      | keyed container nested =>
        obtain rfl := List.mem_singleton.mp hpart
        simp only [review, findings_append_eq_nil, findings_check_eq_nil, Bool.not_eq_false'] at h
        refine ⟨false, ?_⟩
        cases part <;> first | rfl | cases h.1.2
      | _ => cases hpart

theorem isKeyed_of_review (h : (ty.review producers onLazy path false).findings = []) :
    ty.isKeyed = false := by
  cases ty with
  | keyed container nested =>
    simp only [review, findings_append_eq_nil, findings_check_eq_nil] at h
    cases h.1.1
  | _ => rfl

theorem wellDefined_of_review (h : (ty.review producers onLazy path allowed).findings = []) :
    ty.WellDefined := by
  cases ty with
  | union alternatives =>
    rw [review, findings_append_eq_nil, findings_check_eq_nil] at h
    exact List.isEmpty_eq_false_iff.mp h.1
  | choice choices =>
    cases choices with
    | values allowed => trivial
    | range first last =>
      rw [review, findings_check_eq_nil] at h
      exact Int64.not_lt.mp (of_decide_eq_false h)
  | struct tag =>
    rw [review, findings_check_eq_nil] at h
    rintro rfl
    cases h
  | mapOf key value =>
    rw [review, findings_append_eq_nil] at h
    exact ⟨isKeyed_of_review h.1, isKeyed_of_review h.2⟩
  | tuple items =>
    rw [review, findings_reviewAll_eq_nil] at h
    exact fun item hitem => isKeyed_of_review (h item hitem)
  | keyed container nested =>
    simp only [review, findings_append_eq_nil, findings_check_eq_nil, Bool.not_eq_false'] at h
    exact h.1.2
  | _ => trivial

end Ty

/-- What a review of a key without findings has seen. -/
structure KeySpec.Reviewed (producers : Producers) (onLazy : OnLazy) (spec : KeySpec)
    (name : String) (path : Path) : Prop where
  ty : (spec.ty.review producers onLazy path false).findings = []
  keys : spec.nested.isSome → spec.ty.acceptsKeys = true
  nested : ∀ nested, spec.nested = some nested →
    (nested.review producers onLazy path).findings = []
  default : ∀ value failure, spec.default = some value →
    (spec.checkDefault producers name value).outcome = .error failure →
      failure.kind = .unresolvedReference

theorem KeySpec.reviewed_of_findings {spec : KeySpec} {name : String} {path : Path}
    (h : (spec.review producers onLazy name path).findings = []) :
    spec.Reviewed producers onLazy name path := by
  obtain ⟨ty, required, default, nested, deprecated, doc, subsection, typeDoc⟩ := spec
  simp only [KeySpec.review, findings_append_eq_nil, findings_check_eq_nil] at h
  obtain ⟨⟨⟨hty, hkeys⟩, hnested⟩, hdefault⟩ := h
  refine ⟨hty, fun some => ?_, ?_, ?_⟩
  · have some : nested.isSome = true := some
    simpa [some] using hkeys
  · rintro inner (rfl : nested = _)
    exact hnested
  · rintro value failure (rfl : default = _)
    exact findings_ofDefault_eq_nil.mp hdefault failure

theorem KeySpec.Reviewed.wellDefined {spec : KeySpec} {name : String} {path : Path}
    (h : spec.Reviewed producers onLazy name path) : spec.WellDefined where
  outermost := Ty.isKeyed_of_review h.ty
  types sub hsub := by
    obtain ⟨allowed, hreview⟩ := Ty.review_of_subterm h.ty hsub
    exact Ty.wellDefined_of_review hreview
  keys := h.keys

namespace Schema

def Clean (producers : Producers) (onLazy : OnLazy) (schema : Schema) : Prop :=
  ∃ path, (schema.reviewAt producers onLazy path).findings = []

namespace Clean

variable {schema : Schema}

theorem reviewed (h : schema.Clean producers onLazy) {entry : String × KeySpec}
    (hentry : entry ∈ schema.keys) : ∃ path, entry.2.Reviewed producers onLazy entry.1 path := by
  obtain ⟨path, h⟩ := h
  obtain ⟨keys⟩ := schema
  rw [reviewAt] at h
  induction keys with
  | nil => cases hentry
  | cons head keys ih =>
    rw [reviewKeys, findings_append_eq_nil] at h
    rcases List.mem_cons.mp hentry with rfl | hentry
    · exact ⟨_, KeySpec.reviewed_of_findings h.1⟩
    · exact ih hentry h.2

theorem wellDefined (h : schema.Clean producers onLazy) : schema.WellDefined := by
  intro entry hentry
  obtain ⟨path, reviewed⟩ := h.reviewed hentry
  exact reviewed.wellDefined

/-- The review has gone into whatever the level mentions. -/
theorem nested (h : schema.Clean producers onLazy) {nested : Nested}
    (mention : schema.Mentions nested) :
    ∃ path, (nested.review producers onLazy path).findings = [] := by
  cases mention with
  | key hentry hnested =>
    obtain ⟨path, reviewed⟩ := h.reviewed hentry
    exact ⟨path, reviewed.nested nested hnested⟩
  | type htype =>
    obtain ⟨entry, hentry, hsub⟩ := List.mem_flatMap.mp htype
    obtain ⟨path, reviewed⟩ := h.reviewed hentry
    obtain ⟨allowed, hreview⟩ := Ty.review_of_subterm reviewed.ty hsub
    rw [Ty.review, findings_append_eq_nil] at hreview
    exact ⟨path, hreview.2⟩

theorem inline (h : schema.Clean producers onLazy) {next : Schema}
    (mention : schema.Mentions (.inline next)) : next.Clean producers onLazy := h.nested mention

end Clean

theorem WellDefined.of_type {schema : Schema} (h : schema.WellDefined) {ty : Ty}
    (hty : ty ∈ schema.types) : ty.WellDefined := by
  obtain ⟨entry, hentry, hsub⟩ := List.mem_flatMap.mp hty
  exact (h entry hentry).types ty hsub

/-- The levels that a review of the schema looks at, and whether a producer has made them. -/
inductive Reviews (producers : Producers) (schema : Schema) : Bool → Schema → Prop where
  | self : Reviews producers schema false schema
  | inline {made : Bool} {level next : Schema} (h : Reviews producers schema made level)
      (mention : level.Mentions (.inline next)) : Reviews producers schema made next
  | lazy {level : Schema} {producer : Nat} (h : Reviews producers schema false level)
      (mention : level.Mentions (.lazy producer)) :
      Reviews producers schema true (producers producer)

/-- Compiling a schema without defects has found no violation at any of these levels. -/
theorem Passes.clean {schema : Schema} (h : schema.Passes producers) {made : Bool} {level : Schema}
    (reviews : schema.Reviews producers made level) :
    level.Clean producers (if made then fun _ _ => .empty else .once producers) := by
  induction reviews with
  | self =>
    have hdefects := ((compile_outcome_eq_ok_iff producers schema schema).mp h).1
    exact ⟨.root, List.map_eq_nil_iff.mp hdefects⟩
  | inline _ mention ih => exact ih.inline mention
  | lazy _ mention ih =>
    obtain ⟨path, hreview⟩ := ih.nested mention
    exact ⟨path, hreview⟩

inductive InPlace (schema : Schema) : Schema → Prop where
  | self : InPlace schema schema
  | inline {level next : Schema} (h : InPlace schema level)
      (mention : level.Mentions (.inline next)) : InPlace schema next

theorem InPlace.within {schema next level : Schema} (mention : schema.Mentions (.inline next))
    (h : next.InPlace level) : schema.InPlace level := by
  induction h with
  | self => exact .inline .self mention
  | inline _ mention ih => exact ih.inline mention

theorem InPlace.reviews (producers : Producers) {schema level : Schema}
    (h : schema.InPlace level) : schema.Reviews producers false level := by
  induction h with
  | self => exact .self
  | inline _ mention ih => exact ih.inline mention

end Schema

end OptionSchema
