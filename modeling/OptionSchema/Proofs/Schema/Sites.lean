import OptionSchema.Compile
/-!
# The keys that a review comes to

What a review finds out about defaults is said key by key. The keys stand in the order in which the
review comes to them, a key after those nested in it, and a key comes as often as the review does.
-/
namespace OptionSchema

structure KeySite where
  path : Path
  name : String
  spec : KeySpec

/-- What the review says about the default of the key, if it says something. -/
def KeySite.verdict (producers : Producers) (site : KeySite) : Option Defect :=
  site.spec.default.bind fun value =>
    match (site.spec.checkDefault producers site.name value).outcome with
    | .ok _ => none
    | .error failure =>
      if failure.kind = .unresolvedReference then none
      else some ((Violation.invalidDefault failure).defect site.path)

abbrev LazySites := Nat → Path → List KeySite

mutual

def Ty.sites (onLazy : LazySites) : Ty → Path → List KeySite
  | .mapOf key value, path => Ty.sites onLazy key path ++ Ty.sites onLazy value path
  | .union alternatives, path => Ty.sitesOfAll onLazy alternatives path
  | .listOf item, path => Ty.sites onLazy item path
  | .tuple items, path => Ty.sitesOfAll onLazy items path
  | .keyed _ nested, path => Nested.sites onLazy nested path
  | _, _ => []
termination_by structural ty => ty

def Ty.sitesOfAll (onLazy : LazySites) : List Ty → Path → List KeySite
  | [], _ => []
  | ty :: types, path => Ty.sites onLazy ty path ++ Ty.sitesOfAll onLazy types path
termination_by structural types => types

def Nested.sites (onLazy : LazySites) : Nested → Path → List KeySite
  | .inline schema, path => Schema.sitesAt onLazy schema path
  | .lazy producer, path => onLazy producer path
  | .ref _, _ => []
termination_by structural nested => nested

def Nested.sitesOfOption (onLazy : LazySites) : Option Nested → Path → List KeySite
  | none, _ => []
  | some nested, path => Nested.sites onLazy nested path
termination_by structural nested => nested

def KeySpec.sites (onLazy : LazySites) : KeySpec → String → Path → List KeySite
  | ⟨ty, required, default, nested, deprecated, doc, subsection, typeDoc⟩, name, path =>
    Ty.sites onLazy ty path ++ Nested.sitesOfOption onLazy nested path ++
      [⟨path, name, ⟨ty, required, default, nested, deprecated, doc, subsection, typeDoc⟩⟩]
termination_by structural spec => spec

def Schema.sitesAt (onLazy : LazySites) : Schema → Path → List KeySite
  | ⟨keys⟩, path => Schema.sitesOfKeys onLazy keys path
termination_by structural schema => schema

def Schema.sitesOfKeys (onLazy : LazySites) : List (String × KeySpec) → Path → List KeySite
  | [], _ => []
  | (name, spec) :: keys, path =>
    KeySpec.sites onLazy spec name (path.pushKey name) ++ Schema.sitesOfKeys onLazy keys path
termination_by structural keys => keys

end

def Schema.sites (producers : Producers) (schema : Schema) : List KeySite :=
  schema.sitesAt (fun producer path => (producers producer).sitesAt (fun _ _ => []) path) .root

namespace Review

def inDefaults (review : Review) : List Defect :=
  (review.findings.map Finding.defect).filter (·.code == "invalid_default")

theorem inDefaults_append (a b : Review) : (a ++ b).inDefaults = a.inDefaults ++ b.inDefaults := by
  change ((a.findings ++ b.findings).map _).filter _ = _
  rw [List.map_append, List.filter_append]
  rfl

theorem inDefaults_check {broken : Bool} {path : Path} {violation : Violation}
    (h : violation.code ≠ "invalid_default") : (check broken path violation).inDefaults = [] := by
  cases broken with
  | false => rfl
  | true => exact List.filter_cons_of_neg fun same => h (beq_iff_eq.mp same)

end Review

open Review

variable {producers : Producers} {onLazy : OnLazy} {lazySites : LazySites}

theorem KeySite.verdict_toList (producers : Producers) (path : Path) (name : String)
    (spec : KeySpec) {value : Value} (h : spec.default = some value) :
    (ofDefault path (spec.checkDefault producers name value)).inDefaults =
      ((KeySite.mk path name spec).verdict producers).toList := by
  rw [ofDefault, verdict, h, Option.bind_some]
  cases (spec.checkDefault producers name value).outcome with
  | ok result => rfl
  | error failure =>
    by_cases hkind : failure.kind = .unresolvedReference
    · simp only [if_pos hkind]
      rfl
    · simp only [if_neg hkind]
      rfl

def OnLazy.ComesTo (producers : Producers) (onLazy : OnLazy) (lazySites : LazySites) : Prop :=
  ∀ producer path,
    (onLazy producer path).inDefaults = (lazySites producer path).filterMap (·.verdict producers)

mutual

theorem Ty.inDefaults_review (agree : onLazy.ComesTo producers lazySites)
    (ty : Ty) (path : Path) (allowed : Bool) :
    (ty.review producers onLazy path allowed).inDefaults =
      (ty.sites lazySites path).filterMap (·.verdict producers) := by
  cases ty with
  | mapOf key value =>
    rw [Ty.review, Ty.sites, inDefaults_append, List.filterMap_append,
      Ty.inDefaults_review agree key, Ty.inDefaults_review agree value]
  | union alternatives =>
    rw [Ty.review, Ty.sites, inDefaults_append, inDefaults_check (by decide),
      Ty.inDefaults_reviewAll agree alternatives, List.nil_append]
  | listOf item => rw [Ty.review, Ty.sites, Ty.inDefaults_review agree item]
  | tuple items => rw [Ty.review, Ty.sites, Ty.inDefaults_reviewAll agree items]
  | choice choices =>
    cases choices with
    | values allowed => rfl
    | range first last => exact inDefaults_check (by simp [Violation.code])
  | struct tag => exact inDefaults_check (by simp [Violation.code])
  | keyed container nested =>
    rw [Ty.review, Ty.sites, inDefaults_append, inDefaults_append, inDefaults_check (by decide),
      inDefaults_check (by simp [Violation.code]), Nested.inDefaults_review agree nested]
    rfl
  | _ => rfl
termination_by structural ty

theorem Ty.inDefaults_reviewAll (agree : onLazy.ComesTo producers lazySites)
    (types : List Ty) (path : Path) (allowed : Bool) :
    (Ty.reviewAll producers onLazy types path allowed).inDefaults =
      (Ty.sitesOfAll lazySites types path).filterMap (·.verdict producers) := by
  cases types with
  | nil => rfl
  | cons ty types =>
    rw [Ty.reviewAll, Ty.sitesOfAll, inDefaults_append, List.filterMap_append,
      Ty.inDefaults_review agree ty, Ty.inDefaults_reviewAll agree types]
termination_by structural types

theorem Nested.inDefaults_review (agree : onLazy.ComesTo producers lazySites)
    (nested : Nested) (path : Path) :
    (nested.review producers onLazy path).inDefaults =
      (nested.sites lazySites path).filterMap (·.verdict producers) := by
  cases nested with
  | inline schema => exact Schema.inDefaults_reviewAt agree schema path
  | lazy producer => exact agree producer path
  | ref name => rfl
termination_by structural nested

theorem Nested.inDefaults_reviewOption (agree : onLazy.ComesTo producers lazySites)
    (nested : Option Nested) (path : Path) :
    (Nested.reviewOption producers onLazy nested path).inDefaults =
      (Nested.sitesOfOption lazySites nested path).filterMap (·.verdict producers) := by
  cases nested with
  | none => rfl
  | some nested => exact Nested.inDefaults_review agree nested path
termination_by structural nested

theorem KeySpec.inDefaults_review (agree : onLazy.ComesTo producers lazySites)
    (spec : KeySpec) (name : String) (path : Path) :
    (spec.review producers onLazy name path).inDefaults =
      (spec.sites lazySites name path).filterMap (·.verdict producers) := by
  obtain ⟨ty, required, default, nested, deprecated, doc, subsection, typeDoc⟩ := spec
  simp only [KeySpec.review, KeySpec.sites, inDefaults_append, List.filterMap_append]
  rw [inDefaults_check (by simp [Violation.code]), Ty.inDefaults_review agree ty,
    Nested.inDefaults_reviewOption agree nested, List.append_nil]
  refine congrArg _ ?_
  cases default with
  | none => rfl
  | some value =>
    refine (KeySite.verdict_toList producers path name _ rfl).trans ?_
    rw [List.filterMap_cons]
    cases KeySite.verdict producers _ <;> rfl
termination_by structural spec

theorem Schema.inDefaults_reviewAt (agree : onLazy.ComesTo producers lazySites)
    (schema : Schema) (path : Path) :
    (schema.reviewAt producers onLazy path).inDefaults =
      (schema.sitesAt lazySites path).filterMap (·.verdict producers) := by
  obtain ⟨keys⟩ := schema
  exact Schema.inDefaults_reviewKeys agree keys path
termination_by structural schema

theorem Schema.inDefaults_reviewKeys (agree : onLazy.ComesTo producers lazySites)
    (keys : List (String × KeySpec)) (path : Path) :
    (Schema.reviewKeys producers onLazy keys path).inDefaults =
      (Schema.sitesOfKeys lazySites keys path).filterMap (·.verdict producers) := by
  cases keys with
  | nil => rfl
  | cons entry keys =>
    obtain ⟨name, spec⟩ := entry
    rw [Schema.reviewKeys, Schema.sitesOfKeys, inDefaults_append, List.filterMap_append,
      KeySpec.inDefaults_review agree spec, Schema.inDefaults_reviewKeys agree keys]
termination_by structural keys

end

/-- The defects in defaults are the verdicts on the keys, in order. -/
theorem Schema.defects_in_defaults (producers : Producers) (schema : Schema) :
    (schema.defects producers).filter (·.code == "invalid_default") =
      (schema.sites producers).filterMap (·.verdict producers) :=
  Schema.inDefaults_reviewAt
    (fun producer path => Schema.inDefaults_reviewAt (fun _ _ => rfl) (producers producer) path)
    schema .root

end OptionSchema
