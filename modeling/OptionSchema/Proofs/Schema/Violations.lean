import OptionSchema.Compile
/-!
# The violations of a schema, one by one

Where a schema breaks a rule is said without a review: by the rule, by the type or key that breaks
it, and by the way to it through the schema. A review reports each of these violations once, in the
order in which the schema declares them, and reports nothing else.
-/
namespace OptionSchema

/-- The failure with which a key refuses a value: that of the match against the type, or then, where
the type accepts keys, that of the walk of the key's own nested schema. -/
inductive KeySpec.Refuses (producers : Producers) (spec : KeySpec) (name : String) (value : Value) :
    Failure → Prop where
  | type {failure : Failure}
      (failed : (spec.ty.check (Nested.enter producers) (.key name) value .new).outcome =
        .error failure) : Refuses producers spec name value failure
  | nested {matched : Value} {nested : Nested} {failure : Failure}
      (fits : (spec.ty.check (Nested.enter producers) (.key name) value .new).outcome = .ok matched)
      (keys : spec.nested = some nested) (accepts : spec.ty.acceptsKeys = true)
      (failed : (Nested.enter producers nested (.key name) matched .new).outcome =
        .error failure) : Refuses producers spec name value failure

theorem KeySpec.refuses_iff {producers : Producers} {spec : KeySpec} {name : String} {value : Value}
    {failure : Failure} : spec.Refuses producers name value failure ↔
      (spec.checkDefault producers name value).outcome = .error failure := by
  rw [checkDefault, Run.bind_eq, Run.bind]
  constructor
  · rintro (failed | ⟨fits, keys, accepts, failed⟩)
    · rw [failed]
    · rw [fits, keys]
      simpa only [accepts, if_true] using failed
  · intro failed
    cases fits : (spec.ty.check (Nested.enter producers) (.key name) value .new).outcome with
    | error own =>
      rw [fits] at failed
      cases failed
      exact .type fits
    | ok matched =>
      rw [fits] at failed
      cases keys : spec.nested with
      | none =>
        rw [keys] at failed
        cases failed
      | some nested =>
        rw [keys] at failed
        cases accepts : spec.ty.acceptsKeys with
        | true =>
          simp only [accepts, if_true] at failed
          exact .nested fits keys accepts failed
        | false =>
          simp only [accepts, Bool.false_eq_true, if_false] at failed
          cases failed

/-- The way to a violation: at each step inwards the number of the key, of the part of the key or of
the part of the type. Compared as lists, addresses are in depth-first order of declaration. -/
abbrev Address := List Nat

mutual

/-- A violation in a type at `path`. The type may be in a schema that a producer has `made`, and be
`sheltered`, that is, stand directly in a union or a list. -/
inductive Ty.Violates (producers : Producers) :
    (made sheltered : Bool) → Ty → Path → Address → Finding → Prop where
  | emptyUnion {made sheltered : Bool} {path : Path} :
      Ty.Violates producers made sheltered (.union []) path [] ⟨path, .emptyUnion⟩
  | emptyRange {made sheltered : Bool} {first last : Int64} {path : Path} (h : last < first) :
      Ty.Violates producers made sheltered (.choice (.range first last)) path []
        ⟨path, .emptyRange first last⟩
  | emptyStructTag {made sheltered : Bool} {path : Path} :
      Ty.Violates producers made sheltered (.struct "") path [] ⟨path, .emptyStructTag⟩
  | misplacedKeyed {made : Bool} {container : Ty} {nested : Nested} {path : Path} :
      Ty.Violates producers made false (.keyed container nested) path [0] ⟨path, .misplacedKeyed⟩
  | keyedNonContainer {made sheltered : Bool} {container : Ty} {nested : Nested} {path : Path}
      (h : container.isContainer = false) :
      Ty.Violates producers made sheltered (.keyed container nested) path [1]
        ⟨path, .keyedNonContainer container⟩
  | keyed {made sheltered : Bool} {container : Ty} {nested : Nested} {path : Path}
      {address : Address} {finding : Finding}
      (h : Nested.Violates producers made nested path address finding) :
      Ty.Violates producers made sheltered (.keyed container nested) path (2 :: address) finding
  | union {made sheltered : Bool} {alternatives : List Ty} {index : Nat} {ty : Ty} {path : Path}
      {address : Address} {finding : Finding} (at_index : alternatives[index]? = some ty)
      (h : Ty.Violates producers made true ty path address finding) :
      Ty.Violates producers made sheltered (.union alternatives) path (index :: address) finding
  | listOf {made sheltered : Bool} {item : Ty} {path : Path} {address : Address} {finding : Finding}
      (h : Ty.Violates producers made true item path address finding) :
      Ty.Violates producers made sheltered (.listOf item) path (0 :: address) finding
  | mapKey {made sheltered : Bool} {key value : Ty} {path : Path} {address : Address}
      {finding : Finding} (h : Ty.Violates producers made false key path address finding) :
      Ty.Violates producers made sheltered (.mapOf key value) path (0 :: address) finding
  | mapValue {made sheltered : Bool} {key value : Ty} {path : Path} {address : Address}
      {finding : Finding} (h : Ty.Violates producers made false value path address finding) :
      Ty.Violates producers made sheltered (.mapOf key value) path (1 :: address) finding
  | tuple {made sheltered : Bool} {items : List Ty} {index : Nat} {ty : Ty} {path : Path}
      {address : Address} {finding : Finding} (at_index : items[index]? = some ty)
      (h : Ty.Violates producers made false ty path address finding) :
      Ty.Violates producers made sheltered (.tuple items) path (index :: address) finding

/-- A violation in a nested schema. Of lazy keys only those are expanded that are not themselves in
a schema that a producer has made, and references are not followed. -/
inductive Nested.Violates (producers : Producers) :
    (made : Bool) → Nested → Path → Address → Finding → Prop where
  | inline {made : Bool} {schema : Schema} {path : Path} {address : Address} {finding : Finding}
      (h : Schema.Violates producers made schema path address finding) :
      Nested.Violates producers made (.inline schema) path address finding
  | lazy {producer : Nat} {path : Path} {address : Address} {finding : Finding}
      (h : Schema.Violates producers true (producers producer) path address finding) :
      Nested.Violates producers false (.lazy producer) path address finding

inductive KeySpec.Violates (producers : Producers) :
    (made : Bool) → String → KeySpec → Path → Address → Finding → Prop where
  | type {made : Bool} {name : String} {spec : KeySpec} {path : Path} {address : Address}
      {finding : Finding} (h : Ty.Violates producers made false spec.ty path address finding) :
      KeySpec.Violates producers made name spec path (0 :: address) finding
  | keysNotAllowed {made : Bool} {name : String} {spec : KeySpec} {path : Path}
      (keys : spec.nested.isSome = true) (h : spec.ty.acceptsKeys = false) :
      KeySpec.Violates producers made name spec path [1] ⟨path, .keysNotAllowed spec.ty⟩
  | nested {made : Bool} {name : String} {spec : KeySpec} {nested : Nested} {path : Path}
      {address : Address} {finding : Finding} (keys : spec.nested = some nested)
      (h : Nested.Violates producers made nested path address finding) :
      KeySpec.Violates producers made name spec path (2 :: address) finding
  | default {made : Bool} {name : String} {spec : KeySpec} {path : Path} {value : Value}
      {failure : Failure} (held : spec.default = some value)
      (h : spec.Refuses producers name value failure) (kind : failure.kind ≠ .unresolvedReference) :
      KeySpec.Violates producers made name spec path [3] ⟨path, .invalidDefault failure⟩

inductive Schema.Violates (producers : Producers) :
    (made : Bool) → Schema → Path → Address → Finding → Prop where
  | key {made : Bool} {schema : Schema} {index : Nat} {name : String} {spec : KeySpec} {path : Path}
      {address : Address} {finding : Finding} (at_index : schema.keys[index]? = some (name, spec))
      (h : KeySpec.Violates producers made name spec (path.pushKey name) address finding) :
      Schema.Violates producers made schema path (index :: address) finding

end

theorem Address.lt_of_step {a b : Nat} (h : a < b) (rest rest' : Address) :
    a :: rest < b :: rest' := List.cons_lt_cons_iff.mpr (.inl h)

namespace Review

variable {a b review : Review} {P Q : Address → Finding → Prop}

/-- The review finds exactly what `P` says, each finding once and in order of the addresses. -/
def Accounts (review : Review) (P : Address → Finding → Prop) : Prop :=
  ∃ found : List (Address × Finding), review.findings = found.map (·.2) ∧
    found.Pairwise (fun earlier later => earlier.1 < later.1) ∧
    ∀ address finding, (address, finding) ∈ found ↔ P address finding

namespace Accounts

theorem congr (h : review.Accounts P) (hiff : ∀ address finding, P address finding ↔
    Q address finding) : review.Accounts Q := by
  obtain ⟨found, findings, ordered, exact⟩ := h
  exact ⟨found, findings, ordered, fun address finding =>
    (exact address finding).trans (hiff address finding)⟩

theorem empty (h : ∀ address finding, ¬ P address finding) : Review.empty.Accounts P :=
  ⟨[], rfl, .nil, fun address finding => iff_of_false List.not_mem_nil (h address finding)⟩

theorem single {finding : Finding} {address : Address} {p : Prop}
    (h : review.findings = [finding] ∧ p ∨ review.findings = [] ∧ ¬ p) :
    review.Accounts fun at_address found => p ∧ at_address = address ∧ found = finding := by
  rcases h with ⟨findings, holds⟩ | ⟨findings, fails⟩
  · refine ⟨[(address, finding)], findings, List.pairwise_singleton .., fun other found => ?_⟩
    rw [List.mem_singleton, Prod.mk.injEq]
    exact ⟨fun h => ⟨holds, h⟩, And.right⟩
  · exact ⟨[], findings, .nil, fun _ _ => iff_of_false List.not_mem_nil fun h => fails h.1⟩

theorem check {broken : Bool} {path : Path} {violation : Violation} (address : Address) :
    (Review.check broken path violation).Accounts fun at_address found =>
      broken = true ∧ at_address = address ∧ found = ⟨path, violation⟩ :=
  single (by cases broken <;> simp [Review.check, Review.empty])

theorem inside (index : Nat) (h : review.Accounts P) :
    review.Accounts fun address finding => ∃ rest, address = index :: rest ∧ P rest finding := by
  obtain ⟨found, findings, ordered, exact⟩ := h
  refine ⟨found.map fun entry => (index :: entry.1, entry.2), ?_, ?_, fun address finding => ?_⟩
  · rw [findings, List.map_map]
    rfl
  · rw [List.pairwise_map]
    exact ordered.imp fun lt => List.cons_lt_cons_iff.mpr (.inr ⟨rfl, lt⟩)
  · rw [List.mem_map]
    constructor
    · rintro ⟨⟨rest, own⟩, hmem, heq⟩
      cases heq
      exact ⟨rest, rfl, (exact rest own).mp hmem⟩
    · rintro ⟨rest, rfl, h⟩
      exact ⟨(rest, finding), (exact _ _).mpr h, rfl⟩

theorem append (ha : a.Accounts P) (hb : b.Accounts Q)
    (before : ∀ x finding y other, P x finding → Q y other → x < y) :
    (a ++ b).Accounts fun address finding => P address finding ∨ Q address finding := by
  obtain ⟨found, findings, ordered, exact⟩ := ha
  obtain ⟨found', findings', ordered', exact'⟩ := hb
  refine ⟨found ++ found', ?_, ?_, fun address finding => ?_⟩
  · rw [List.map_append, ← findings, ← findings']
    rfl
  · refine List.pairwise_append.mpr ⟨ordered, ordered', fun x hx y hy => ?_⟩
    exact before _ _ _ _ ((exact _ _).mp hx) ((exact' _ _).mp hy)
  · rw [List.mem_append, exact, exact']

theorem cons {α : Type} {item : α} {items : List α} {start : Nat}
    {P : α → Address → Finding → Prop} (first : a.Accounts (P item))
    (others : b.Accounts fun address finding => ∃ index other rest, items[index]? = some other ∧
      address = (start + 1 + index) :: rest ∧ P other rest finding) :
    (a ++ b).Accounts fun address finding => ∃ index other rest,
      (item :: items)[index]? = some other ∧ address = (start + index) :: rest ∧
        P other rest finding := by
  refine ((first.inside start).append others ?_).congr fun address finding => ?_
  · rintro _ _ _ _ ⟨rest, rfl, -⟩ ⟨index, other, later, -, rfl, -⟩
    exact List.cons_lt_cons_iff.mpr (.inl (by omega))
  · constructor
    · rintro (⟨rest, rfl, h⟩ | ⟨index, other, rest, at_index, rfl, h⟩)
      · exact ⟨0, item, rest, rfl, rfl, h⟩
      · exact ⟨index + 1, other, rest, at_index, by rw [Nat.add_assoc, Nat.add_comm 1], h⟩
    · rintro ⟨index, other, rest, at_index, rfl, h⟩
      cases index with
      | zero =>
        obtain rfl := Option.some.inj at_index
        exact .inl ⟨rest, rfl, h⟩
      | succ index =>
        exact .inr ⟨index, other, rest, at_index, by rw [Nat.add_assoc, Nat.add_comm 1], h⟩

end Accounts

theorem accounts_ofDefault {producers : Producers} {spec : KeySpec} {name : String} {value : Value}
    (path : Path) (address : Address) :
    (ofDefault path (spec.checkDefault producers name value)).Accounts fun at_address found =>
      ∃ failure, spec.Refuses producers name value failure ∧ failure.kind ≠ .unresolvedReference ∧
        at_address = address ∧ found = ⟨path, .invalidDefault failure⟩ := by
  rw [ofDefault]
  cases outcome : (spec.checkDefault producers name value).outcome with
  | ok result =>
    refine .congr (.empty (P := fun _ _ => False) fun _ _ => id) fun _ _ => ⟨False.elim, ?_⟩
    rintro ⟨failure, refuses, -⟩
    cases outcome.symm.trans (KeySpec.refuses_iff.mp refuses)
  | error failure =>
    have only (other : Failure) : spec.Refuses producers name value other ↔ other = failure := by
      rw [KeySpec.refuses_iff, outcome, Except.error.injEq, eq_comm]
    simp only [only, exists_eq_left]
    exact .single (by by_cases kind : failure.kind = .unresolvedReference <;> simp [kind])

end Review

open Review

variable {producers : Producers} {onLazy : OnLazy} {made : Bool}

def OnLazy.AccountsFor (producers : Producers) (made : Bool) (onLazy : OnLazy) : Prop :=
  ∀ producer path,
    (onLazy producer path).Accounts (Nested.Violates producers made (.lazy producer) path)

mutual

theorem Ty.accounts_review (lazy : onLazy.AccountsFor producers made) (ty : Ty) (path : Path)
    (sheltered : Bool) : (ty.review producers onLazy path sheltered).Accounts
      (Ty.Violates producers made sheltered ty path) := by
  cases ty with
  | mapOf key value =>
    refine ((Accounts.inside 0 (Ty.accounts_review lazy key path false)).append
      (.inside 1 (Ty.accounts_review lazy value path false)) ?_).congr fun address finding => ?_
    · rintro _ _ _ _ ⟨_, rfl, -⟩ ⟨_, rfl, -⟩
      exact Address.lt_of_step (by decide) _ _
    · constructor
      · rintro (⟨rest, rfl, h⟩ | ⟨rest, rfl, h⟩)
        · exact .mapKey h
        · exact .mapValue h
      · intro h
        cases h with
        | mapKey h => exact .inl ⟨_, rfl, h⟩
        | mapValue h => exact .inr ⟨_, rfl, h⟩
  | union alternatives =>
    refine ((Accounts.check []).append
      (Ty.accounts_reviewAll lazy alternatives path true 0) ?_).congr fun address finding => ?_
    · rintro _ _ _ _ ⟨-, rfl, -⟩ ⟨_, _, _, -, rfl, -⟩
      exact List.nil_lt_cons _ _
    · simp only [Nat.zero_add, List.isEmpty_iff]
      constructor
      · rintro (⟨rfl, rfl, rfl⟩ | ⟨index, ty, rest, at_index, rfl, h⟩)
        · exact .emptyUnion
        · exact .union at_index h
      · intro h
        cases h with
        | emptyUnion => exact .inl ⟨rfl, rfl, rfl⟩
        | union at_index h => exact .inr ⟨_, _, _, at_index, rfl, h⟩
  | listOf item =>
    refine (Accounts.inside 0 (Ty.accounts_review lazy item path true)).congr
      fun address finding => ⟨?_, ?_⟩
    · rintro ⟨rest, rfl, h⟩
      exact .listOf h
    · intro h
      cases h with
      | listOf h => exact ⟨_, rfl, h⟩
  | tuple items =>
    refine (Ty.accounts_reviewAll lazy items path false 0).congr fun address finding => ?_
    simp only [Nat.zero_add]
    constructor
    · rintro ⟨index, ty, rest, at_index, rfl, h⟩
      exact .tuple at_index h
    · intro h
      cases h with
      | tuple at_index h => exact ⟨_, _, _, at_index, rfl, h⟩
  | choice choices =>
    cases choices with
    | values allowed => exact .empty nofun
    | range first last =>
      refine (Accounts.check []).congr fun address finding => ⟨?_, ?_⟩
      · rintro ⟨empty, rfl, rfl⟩
        exact .emptyRange (of_decide_eq_true empty)
      · intro h
        cases h with
        | emptyRange empty => exact ⟨decide_eq_true empty, rfl, rfl⟩
  | struct tag =>
    refine (Accounts.check []).congr fun address finding => ⟨?_, ?_⟩
    · rintro ⟨empty, rfl, rfl⟩
      obtain rfl := String.isEmpty_iff.mp empty
      exact .emptyStructTag
    · intro h
      cases h with
      | emptyStructTag => exact ⟨rfl, rfl, rfl⟩
  | keyed container nested =>
    refine (((Accounts.check [0]).append (.check [1]) ?_).append
      (.inside 2 (Nested.accounts_review lazy nested path)) ?_).congr fun address finding => ?_
    · rintro _ _ _ _ ⟨-, rfl, -⟩ ⟨-, rfl, -⟩
      exact Address.lt_of_step (by decide) _ _
    · rintro _ _ _ _ (⟨-, rfl, -⟩ | ⟨-, rfl, -⟩) ⟨_, rfl, -⟩ <;>
        exact Address.lt_of_step (by decide) _ _
    · simp only [Bool.not_eq_true']
      constructor
      · rintro ((⟨rfl, rfl, rfl⟩ | ⟨other, rfl, rfl⟩) | ⟨rest, rfl, h⟩)
        · exact .misplacedKeyed
        · exact .keyedNonContainer other
        · exact .keyed h
      · intro h
        cases h with
        | misplacedKeyed => exact .inl (.inl ⟨rfl, rfl, rfl⟩)
        | keyedNonContainer other => exact .inl (.inr ⟨other, rfl, rfl⟩)
        | keyed h => exact .inr ⟨_, rfl, h⟩
  | _ => exact .empty fun _ _ h => by cases h
termination_by structural ty

theorem Ty.accounts_reviewAll (lazy : onLazy.AccountsFor producers made) (types : List Ty)
    (path : Path) (sheltered : Bool) (start : Nat) :
    (Ty.reviewAll producers onLazy types path sheltered).Accounts fun address finding =>
      ∃ index ty rest, types[index]? = some ty ∧ address = (start + index) :: rest ∧
        Ty.Violates producers made sheltered ty path rest finding := by
  cases types with
  | nil => exact .empty (by simp)
  | cons ty types =>
    exact .cons (Ty.accounts_review lazy ty path sheltered)
      (Ty.accounts_reviewAll lazy types path sheltered (start + 1))
termination_by structural types

theorem Nested.accounts_review (lazy : onLazy.AccountsFor producers made) (nested : Nested)
    (path : Path) : (nested.review producers onLazy path).Accounts
      (Nested.Violates producers made nested path) := by
  cases nested with
  | inline schema =>
    refine (Schema.accounts_reviewAt lazy schema path).congr fun address finding => ⟨.inline, ?_⟩
    intro h
    cases h with
    | inline h => exact h
  | lazy producer => exact lazy producer path
  | ref name => exact .empty nofun
termination_by structural nested

theorem Nested.accounts_reviewOption (lazy : onLazy.AccountsFor producers made)
    (nested : Option Nested) (path : Path) :
    (Nested.reviewOption producers onLazy nested path).Accounts fun address finding =>
      ∃ inner, nested = some inner ∧ Nested.Violates producers made inner path address finding := by
  cases nested with
  | none => exact .empty (by simp)
  | some inner =>
    refine (Nested.accounts_review lazy inner path).congr fun address finding => ?_
    simp only [Option.some.injEq, exists_eq_left']
termination_by structural nested

theorem KeySpec.accounts_review (lazy : onLazy.AccountsFor producers made) (spec : KeySpec)
    (name : String) (path : Path) : (spec.review producers onLazy name path).Accounts
      (KeySpec.Violates producers made name spec path) := by
  obtain ⟨ty, required, default, nested, deprecated, doc, subsection, typeDoc⟩ := spec
  let spec : KeySpec := ⟨ty, required, default, nested, deprecated, doc, subsection, typeDoc⟩
  have inDefault : Review.Accounts
      (match default with
        | some value => .ofDefault path (spec.checkDefault producers name value)
        | none => .empty)
      fun address finding => ∃ value failure, default = some value ∧
        spec.Refuses producers name value failure ∧ failure.kind ≠ .unresolvedReference ∧
          address = [3] ∧ finding = ⟨path, .invalidDefault failure⟩ := by
    cases default with
    | none => exact .empty (by simp)
    | some value =>
      refine (accounts_ofDefault path [3]).congr fun address finding => ?_
      simp only [Option.some.injEq, exists_and_left, exists_eq_left']
  have inType := Accounts.inside 0 (Ty.accounts_review lazy ty path false)
  have inKeys := Accounts.inside 2 (Nested.accounts_reviewOption lazy nested path)
  refine (((inType.append (.check [1]) ?_).append inKeys ?_).append inDefault ?_).congr
    fun address finding => ?_
  · rintro _ _ _ _ ⟨_, rfl, -⟩ ⟨-, rfl, -⟩
    exact Address.lt_of_step (by decide) _ _
  · rintro _ _ _ _ (⟨_, rfl, -⟩ | ⟨-, rfl, -⟩) ⟨_, rfl, -⟩ <;>
      exact Address.lt_of_step (by decide) _ _
  · rintro _ _ _ _ ((⟨_, rfl, -⟩ | ⟨-, rfl, -⟩) | ⟨_, rfl, -⟩) ⟨_, _, -, -, -, rfl, -⟩ <;>
      exact Address.lt_of_step (by decide) _ _
  · simp only [Bool.and_eq_true, Bool.not_eq_true']
    constructor
    · rintro (((⟨rest, rfl, h⟩ | ⟨⟨keys, other⟩, rfl, rfl⟩) | ⟨rest, rfl, inner, keys, h⟩) |
        ⟨value, failure, held, refuses, kind, rfl, rfl⟩)
      · exact .type h
      · exact .keysNotAllowed keys other
      · exact .nested keys h
      · exact .default held refuses kind
    · intro h
      cases h with
      | type h => exact .inl (.inl (.inl ⟨_, rfl, h⟩))
      | keysNotAllowed keys other => exact .inl (.inl (.inr ⟨⟨keys, other⟩, rfl, rfl⟩))
      | nested keys h => exact .inl (.inr ⟨_, rfl, _, keys, h⟩)
      | default held refuses kind => exact .inr ⟨_, _, held, refuses, kind, rfl, rfl⟩
termination_by structural spec

theorem Schema.accounts_reviewAt (lazy : onLazy.AccountsFor producers made) (schema : Schema)
    (path : Path) : (schema.reviewAt producers onLazy path).Accounts
      (Schema.Violates producers made schema path) := by
  obtain ⟨keys⟩ := schema
  refine (Schema.accounts_reviewKeys lazy keys path 0).congr fun address finding => ?_
  simp only [Nat.zero_add]
  constructor
  · rintro ⟨index, ⟨name, spec⟩, rest, at_index, rfl, h⟩
    exact .key at_index h
  · intro h
    cases h with
    | key at_index h => exact ⟨_, _, _, at_index, rfl, h⟩
termination_by structural schema

theorem Schema.accounts_reviewKeys (lazy : onLazy.AccountsFor producers made)
    (keys : List (String × KeySpec)) (path : Path) (start : Nat) :
    (Schema.reviewKeys producers onLazy keys path).Accounts fun address finding =>
      ∃ index entry rest, keys[index]? = some entry ∧ address = (start + index) :: rest ∧
        KeySpec.Violates producers made entry.1 entry.2 (path.pushKey entry.1) rest finding := by
  cases keys with
  | nil => exact .empty (by simp)
  | cons entry keys =>
    obtain ⟨name, spec⟩ := entry
    exact .cons (KeySpec.accounts_review lazy spec name (path.pushKey name))
      (Schema.accounts_reviewKeys lazy keys path (start + 1))
termination_by structural keys

end

namespace Schema

theorem accounts_review (producers : Producers) (schema : Schema) :
    (schema.review producers).Accounts (schema.Violates producers false .root) := by
  have beyond : OnLazy.AccountsFor producers true fun _ _ => .empty := fun _ _ => .empty nofun
  refine Schema.accounts_reviewAt (fun producer path => ?_) schema .root
  refine (Schema.accounts_reviewAt beyond (producers producer) path).congr
    fun address finding => ⟨.lazy, fun h => ?_⟩
  cases h with
  | lazy h => exact h

end Schema

/-- Compiling reports each violation once, at the path where it is found and in order of
declaration, with the message and the code of the rule, and nothing else. A schema without
violations is returned as it is. -/
theorem violations_reported_once (producers : Producers) (schema : Schema) :
    ∃ found : List (Address × Finding),
      found.Pairwise (fun earlier later => earlier.1 < later.1) ∧
      (∀ address finding, (address, finding) ∈ found ↔
        schema.Violates producers false .root address finding) ∧
      (∀ defects, (schema.compile producers).outcome = .error defects ↔
        defects.toList = found.map fun entry =>
          ⟨entry.2.path, entry.2.violation.message, entry.2.violation.code⟩) ∧
      ∀ result, (schema.compile producers).outcome = .ok result ↔
        (∀ address finding, ¬ schema.Violates producers false .root address finding) ∧
          result = schema := by
  obtain ⟨found, findings, ordered, exact⟩ := schema.accounts_review producers
  have reported : schema.defects producers = found.map fun entry =>
      ⟨entry.2.path, entry.2.violation.message, entry.2.violation.code⟩ := by
    rw [Schema.defects, findings, List.map_map]
    rfl
  refine ⟨found, ordered, exact, fun defects => ?_, fun result => ?_⟩
  · rw [Schema.compile_outcome_eq_error_iff, reported]
  · rw [Schema.compile_outcome_eq_ok_iff, reported, List.map_eq_nil_iff,
      List.eq_nil_iff_forall_not_mem, Prod.forall]
    simp only [exact]

example : (Schema.defects (fun _ => .empty)
    ⟨[("pool", { ty := .posInteger, default := some (.integer 0) }),
      ("mode", { ty := .union [.tuple [.keyed .string (.ref "mode")],
        .keyed .map (.inline ⟨[("tag", { ty := .struct "" })]⟩)] })]⟩).map
      (fun defect => (defect.path.text, defect.code)) =
    [("pool", "invalid_default"), ("mode", "keyed_not_allowed"), ("mode", "keyed_not_allowed"),
      ("mode.tag", "empty_struct_tag")] := rfl

end OptionSchema
