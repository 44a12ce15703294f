import OptionSchema.Defect
import OptionSchema.Validation.Walk
/-!
# Compiling schemas

A schema is reviewed before it is used. A review finds every violation of a rule for schemas, in
order of declaration. Lazy keys are left to the parameter `onLazy`: they are expanded once, and not
again inside what a producer made.
-/
namespace OptionSchema

structure Finding where
  path : Path
  violation : Violation

def Finding.defect (finding : Finding) : Defect := finding.violation.defect finding.path

structure Review where
  findings : List Finding := []
  journal : List Note := []

namespace Review

def empty : Review := {}

def append (a b : Review) : Review := ⟨a.findings ++ b.findings, a.journal ++ b.journal⟩

instance : Append Review := ⟨append⟩

def check (broken : Bool) (path : Path) (violation : Violation) : Review :=
  if broken then ⟨[⟨path, violation⟩], []⟩ else empty

end Review

def KeySpec.checkDefault (producers : Producers) (spec : KeySpec) (name : String) (value : Value) :
    Run Failure Value := do
  let matched ← spec.ty.check (Nested.enter producers) (.key name) value .new
  match spec.nested with
  | some nested =>
    if spec.ty.acceptsKeys then Nested.enter producers nested (.key name) matched .new
    else Run.succeed matched
  | none => Run.succeed matched

/-- A default that fails is a violation, unless it may succeed once a missing schema is
registered. -/
def Review.ofDefault (path : Path) (run : Run Failure Value) : Review :=
  match run.outcome with
  | .ok _ => ⟨[], run.journal⟩
  | .error failure =>
    ⟨if failure.kind = .unresolvedReference then [] else [⟨path, .invalidDefault failure⟩],
      run.journal⟩

abbrev OnLazy := Nat → Path → Review

mutual

def Ty.review (producers : Producers) (onLazy : OnLazy) : Ty → Path → Bool → Review
  | .union alternatives, path, _ =>
    .check alternatives.isEmpty path .emptyUnion ++
      Ty.reviewAll producers onLazy alternatives path true
  | .listOf item, path, _ => Ty.review producers onLazy item path true
  | .mapOf key value, path, _ =>
    Ty.review producers onLazy key path false ++ Ty.review producers onLazy value path false
  | .tuple items, path, _ => Ty.reviewAll producers onLazy items path false
  | .choice choices, path, _ =>
    match choices with
    | .range first last => .check (decide (last < first)) path (.emptyRange first last)
    | .values _ => .empty
  | .struct tag, path, _ => .check tag.isEmpty path .emptyStructTag
  | .keyed container nested, path, keyedAllowed =>
    .check (!keyedAllowed) path .misplacedKeyed ++
      .check (!container.isContainer) path (.keyedNonContainer container) ++
      Nested.review producers onLazy nested path
  | _, _, _ => .empty
termination_by structural ty => ty

def Ty.reviewAll (producers : Producers) (onLazy : OnLazy) : List Ty → Path → Bool → Review
  | [], _, _ => .empty
  | ty :: types, path, keyedAllowed =>
    Ty.review producers onLazy ty path keyedAllowed ++
      Ty.reviewAll producers onLazy types path keyedAllowed
termination_by structural types => types

def Nested.review (producers : Producers) (onLazy : OnLazy) : Nested → Path → Review
  | .inline schema, path => Schema.reviewAt producers onLazy schema path
  | .lazy producer, path => onLazy producer path
  | .ref _, _ => .empty
termination_by structural nested => nested

def Nested.reviewOption (producers : Producers) (onLazy : OnLazy) : Option Nested → Path → Review
  | none, _ => .empty
  | some nested, path => Nested.review producers onLazy nested path
termination_by structural nested => nested

def KeySpec.review (producers : Producers) (onLazy : OnLazy) :
    KeySpec → String → Path → Review
  | ⟨ty, required, default, nested, deprecated, doc, subsection, typeDoc⟩, name, path =>
    let spec : KeySpec := ⟨ty, required, default, nested, deprecated, doc, subsection, typeDoc⟩
    Ty.review producers onLazy ty path false ++
      .check (nested.isSome && !ty.acceptsKeys) path (.keysNotAllowed ty) ++
      Nested.reviewOption producers onLazy nested path ++
      match default with
      | some value => .ofDefault path (spec.checkDefault producers name value)
      | none => .empty
termination_by structural spec => spec

def Schema.reviewAt (producers : Producers) (onLazy : OnLazy) : Schema → Path → Review
  | ⟨keys⟩, path => Schema.reviewKeys producers onLazy keys path
termination_by structural schema => schema

def Schema.reviewKeys (producers : Producers) (onLazy : OnLazy) :
    List (String × KeySpec) → Path → Review
  | [], _ => .empty
  | (name, spec) :: keys, path =>
    KeySpec.review producers onLazy spec name (path.pushKey name) ++
      Schema.reviewKeys producers onLazy keys path
termination_by structural keys => keys

end

/-- The review of what a producer makes, in which further lazy keys are left alone. -/
def OnLazy.once (producers : Producers) : OnLazy := fun producer path =>
  Schema.reviewAt producers (fun _ _ => .empty) (producers producer) path

def Schema.review (producers : Producers) (schema : Schema) : Review :=
  schema.reviewAt producers (.once producers) .root

namespace Schema

def defects (producers : Producers) (schema : Schema) : List Defect :=
  (schema.review producers).findings.map Finding.defect

def compile (producers : Producers) (schema : Schema) : Run Defects Schema :=
  let journal := (schema.review producers).journal
  match Defects.ofList? (schema.defects producers) with
  | none => ⟨.ok schema, journal ++ [.accepted schema.size]⟩
  | some defects => ⟨.error defects, journal ++ [.rejected defects.size]⟩

theorem compile_outcome_eq_ok_iff (producers : Producers) (schema result : Schema) :
    (schema.compile producers).outcome = .ok result ↔
      schema.defects producers = [] ∧ result = schema := by
  unfold compile
  cases h : schema.defects producers with
  | nil => simp [Defects.ofList?, eq_comm]
  | cons first others => simp [Defects.ofList?]

theorem compile_outcome_eq_error_iff (producers : Producers) (schema : Schema)
    (defects : Defects) : (schema.compile producers).outcome = .error defects ↔
      defects.toList = schema.defects producers := by
  unfold compile
  cases h : schema.defects producers with
  | nil => simp [Defects.ofList?, Defects.toList]
  | cons first others =>
    obtain ⟨own, rest⟩ := defects
    simp [Defects.ofList?, Defects.toList, eq_comm]

end Schema

end OptionSchema
