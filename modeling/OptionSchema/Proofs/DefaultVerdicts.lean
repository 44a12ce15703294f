import OptionSchema.Proofs.Foresight
import OptionSchema.Proofs.Schema.Sites
/-!
# What compiling says about defaults

Defaults are checked without a registry. A failure for a missing reference is left alone, as the
schema may be registered later, and it ends the check: whatever else is wrong with such a default
stays unsaid. All other verdicts are final, unless a missing reference is among the causes of a
failure of another kind.
-/
namespace OptionSchema

namespace KeySite

/-- The type of the key and all levels that are reached from it without a registry follow the
definition rules. -/
def WellDefined (producers : Producers) (site : KeySite) : Prop :=
  (Schema.mk [(site.name, site.spec)]).EveryLevel (Context.new.resolver producers)
    Schema.WellDefined

/-- With the schemas of the registry, a walk accepts the value for the key. -/
def Takes (producers : Producers) (registry : Registry) (site : KeySite) (value : Value) : Prop :=
  ∃ output, (site.spec.check (Nested.enter producers) site.name value
    (Context.new.withRegistry registry)).outcome = .ok output

/-- The check of the default, done without a registry, comes to a missing reference and ends. -/
def LeftOpen (producers : Producers) (site : KeySite) (value : Value) : Prop :=
  ∃ failure, (site.spec.checkDefault producers site.name value).outcome = .error failure ∧
    failure.kind = .unresolvedReference

/-- The check fails in another way, but a missing reference is behind that. -/
def Obscured (producers : Producers) (site : KeySite) (value : Value) : Prop :=
  ∃ failure, (site.spec.checkDefault producers site.name value).outcome = .error failure ∧
    failure.kind ≠ .unresolvedReference ∧ failure.Involves .unresolvedReference

variable {producers : Producers} {registry : Registry} {site : KeySite} {value : Value}

theorem takes_iff : site.Takes producers registry value ↔
    (site.spec.output (Nested.output ((Context.new.withRegistry registry).resolver producers)
      defaultMaxDepth) value).isSome := by
  have output := KeySpec.result?_check_enter producers site.spec site.name value
    (Context.new.withRegistry registry)
  rw [Takes]
  simp only [← Run.result?_eq_some, ← Option.isSome_iff_exists, output]
  rfl

theorem isSome_verdict (h : site.spec.default = some value) :
    (site.verdict producers).isSome ↔
      ∃ failure, (site.spec.checkDefault producers site.name value).outcome = .error failure ∧
        failure.kind ≠ .unresolvedReference := by
  rw [verdict, h, Option.bind_some]
  cases (site.spec.checkDefault producers site.name value).outcome with
  | ok output => simp
  | error failure => by_cases hkind : failure.kind = .unresolvedReference <;> simp [hkind]

theorem resolver_withRegistry :
    Resolver.Extends ((Context.new.withRegistry registry).resolver producers)
      (Context.new.resolver producers) := by
  intro nested schema h
  cases nested with
  | inline inner => exact h
  | lazy producer => exact h
  | ref name => cases h

theorem foretells_takes (wellDefined : site.WellDefined producers) (registry : Registry)
    (value : Value) :
    (site.spec.checkDefault producers site.name value).Foretells Failure.Unsettled True
      (site.Takes producers registry value) := by
  have every : (Schema.mk [(site.name, site.spec)]).EveryLevel (Context.new.resolver producers)
      (Schema.Foretelling (Context.new.resolver producers) True) := fun level reaches =>
    ⟨(wellDefined level reaches).wellKeyed, fun _ _ _ => trivial⟩
  exact (KeySpec.foretells_checkDefault resolver_withRegistry every List.mem_cons_self value).congr
    takes_iff.symm

end KeySite

def Registry.Compiled (producers : Producers) (registry : Registry) : Prop :=
  ∀ name schema, registry.schema? name = some schema → schema.Passes producers

/-- Compiling reports a default if no registry makes a walk accept it and the check has not come to
a missing reference. It reports no other default, unless a missing reference is behind a failure of
another kind. -/
theorem invalid_defaults_exact (producers : Producers) (schema : Schema) :
    (schema.defects producers).filter (·.code == "invalid_default") =
      (schema.sites producers).filterMap (·.verdict producers) ∧
    ∀ site ∈ schema.sites producers, site.WellDefined producers →
      ∀ value, site.spec.default = some value →
      ((∀ registry, registry.Compiled producers → ¬ site.Takes producers registry value) →
        ¬ site.LeftOpen producers value → (site.verdict producers).isSome) ∧
      ((site.verdict producers).isSome → ¬ site.LeftOpen producers value ∧
        (¬ site.Obscured producers value →
          ∀ registry, registry.Compiled producers → ¬ site.Takes producers registry value)) := by
  refine ⟨schema.defects_in_defaults producers, fun site _ wellDefined value hdefault => ?_⟩
  have foretells := KeySite.foretells_takes wellDefined
  rw [KeySite.isSome_verdict hdefault]
  constructor
  · intro refused closed
    cases hrun : (site.spec.checkDefault producers site.name value).outcome with
    | ok output =>
      have none : Registry.new.Compiled producers := fun _ _ h => nomatch h
      exact absurd ((foretells .new value).accepts output hrun) (refused .new none)
    | error failure => exact ⟨failure, rfl, fun hkind => closed ⟨failure, hrun, hkind⟩⟩
  · rintro ⟨failure, failed, hkind⟩
    refine ⟨fun ⟨other, hother, left⟩ => ?_, fun clear registry _ => ?_⟩
    · cases failed.symm.trans hother
      exact hkind left
    · have settled : ¬ failure.Unsettled := fun unsettled =>
        clear ⟨failure, failed, hkind, unsettled⟩
      exact (foretells registry value).rejects failure failed settled

section Hook

def hookSite (default : Value) : KeySite :=
  ⟨[.key "hook"], "hook", { ty := .map, nested := some (.ref "hook"), default := some default }⟩

def hookDefaulted (default : Value) : Schema :=
  ⟨[((hookSite default).name, (hookSite default).spec)]⟩

theorem hookSite_wellDefined (producers : Producers) (default : Value) :
    (hookSite default).WellDefined producers := by
  refine .of_mentions ?_ fun nested next mention resolved => ?_
  · intro entry hentry
    obtain rfl := List.mem_singleton.mp hentry
    exact ⟨rfl, by simp [hookSite, Ty.subterms, Ty.WellDefined], fun _ => rfl⟩
  · obtain rfl : nested = .ref "hook" := by
      simpa [Schema.mentions_iff, hookSite, Schema.types, Ty.subterms, eq_comm] using mention
    cases resolved

/-- No schema can make a keyword list a map. -/
theorem keywords_refused :
    let site := hookSite (.keywords [])
    ((hookDefaulted (.keywords [])).defects fun _ => .empty).map (·.code) = ["invalid_default"] ∧
      ∀ registry, registry.Compiled (fun _ => .empty) →
        ¬ site.Takes (fun _ => .empty) registry (.keywords []) := by
  intro site
  refine ⟨rfl, ?_⟩
  have exact := (invalid_defaults_exact (fun _ => .empty) (hookDefaulted (.keywords []))).2 site
    List.mem_cons_self (hookSite_wellDefined _ _) (.keywords []) rfl
  refine (exact.2 rfl).2 ?_
  rintro ⟨failure, failed, -, involved⟩
  cases failed
  exact Failure.not_unsettled_of_kind rfl rfl involved

theorem not_takes_unnamed (producers : Producers) (registry : Registry) (default : Value) :
    ¬ (hookSite default).Takes producers registry (.map [(.integer 1, .integer 2)]) := by
  rw [KeySite.takes_iff, KeySpec.isSome_output fun _ => rfl]
  rintro ⟨-, nested⟩
  obtain ⟨output, houtput⟩ := Option.isSome_iff_exists.mp (nested (.ref "hook") rfl)
  obtain ⟨schema, -, houtput⟩ := Option.bind_eq_some_iff.mp houtput
  cases houtput

/-- No schema has names for integer keys, but the missing schema is all that the check gets to. -/
theorem hopeless_default_unreported : ¬ ∀ (producers : Producers) (schema : Schema),
    ∀ site ∈ schema.sites producers, site.WellDefined producers →
      ∀ value, site.spec.default = some value →
      ((site.verdict producers).isSome ↔
        ∀ registry, registry.Compiled producers → ¬ site.Takes producers registry value) := by
  intro claim
  let default : Value := .map [(.integer 1, .integer 2)]
  have reported := (claim (fun _ => .empty) (hookDefaulted default) (hookSite default)
    List.mem_cons_self (hookSite_wellDefined _ _) default rfl).mpr
      fun registry _ => not_takes_unnamed _ registry default
  cases reported

end Hook

end OptionSchema
