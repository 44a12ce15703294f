import OptionSchema.Proofs.Echoes
import OptionSchema.Proofs.Schema.Checked
import OptionSchema.Proofs.Schema.Expansion
/-!
# Acceptance is satisfaction

What it means for a value to satisfy a schema is said without any order of keys, elements or
alternatives, and only of the given value. Validation threads its own outputs into the nested
schemas; where nested schemas stand on containers only, these outputs are the given values.
-/
namespace OptionSchema

namespace Ty

inductive Fits : Ty → Value → Prop where
  | any (value : Value) : Fits .any value
  | atom (name : String) : Fits .atom (.atom name)
  | string (s : String) : Fits .string (.string s)
  | boolean (b : Bool) : Fits .boolean (.bool b)
  | integer (n : Int64) : Fits .integer (.integer n)
  | nonNegInteger {n : Int64} (h : 0 ≤ n) : Fits .nonNegInteger (.integer n)
  | posInteger {n : Int64} (h : 0 < n) : Fits .posInteger (.integer n)
  | float (bits : UInt64) : Fits .float (.float bits)
  | timeout {n : Int64} (h : 0 ≤ n) : Fits .timeout (.integer n)
  | infinity : Fits .timeout (.atom "infinity")
  | pid (id : UInt64) : Fits .pid (.pid id)
  | reference (id : UInt64) : Fits .reference (.reference id)
  | null : Fits .null .null
  | keywordList {value : Value} {entries : List (String × Value)} (h : value.Reads entries) :
      Fits .keywordList value
  | nonEmptyKeywordList {value : Value} {entries : List (String × Value)} (h : value.Reads entries)
      (some : entries ≠ []) : Fits .nonEmptyKeywordList value
  | map (pairs : List (Value × Value)) : Fits .map (.map pairs)
  | func (f : Fun) : Fits (.func f.arity) (.func f)
  | value {allowed : List Value} {value other : Value} (h : other ∈ allowed)
      (equal : (value == other) = true) : Fits (.choice (.values allowed)) value
  | range {first last n : Int64} (lower : first ≤ n) (upper : n ≤ last) :
      Fits (.choice (.range first last)) (.integer n)
  | struct (tag : String) (fields : List (String × Value)) : Fits (.struct tag) (.struct tag fields)

theorem fits_iff_admits {ty : Ty} (plain : ty.isPlain = true) {value : Value} :
    ty.Fits value ↔ ty.admits value = true := by
  constructor
  · intro h
    cases h with
    | keywordList h => simp [admits, Value.isKeywordList, Value.reads_iff.mp h]
    | nonEmptyKeywordList h some => simp [admits, Value.reads_iff.mp h, some]
    | value h equal => exact List.contains_iff_exists_mem_beq.mpr ⟨_, h, equal⟩
    | _ => simp_all [admits, Choices.contains]
  · intro h
    cases ty with
    | any => exact .any value
    | keywordList =>
      obtain ⟨entries, hentries⟩ := Option.isSome_iff_exists.mp h
      exact .keywordList (Value.reads_iff.mpr hentries)
    | nonEmptyKeywordList =>
      obtain ⟨entries, hentries, hsome⟩ := (Option.any_eq_true _ _).mp h
      exact .nonEmptyKeywordList (Value.reads_iff.mpr hentries) (by simpa using hsome)
    | choice choices =>
      cases choices with
      | values allowed =>
        obtain ⟨other, hother, equal⟩ := List.contains_iff_exists_mem_beq.mp h
        exact .value hother equal
      | range first last =>
        cases value with
        | integer n =>
          obtain ⟨lower, upper⟩ := Bool.and_eq_true_iff.mp h
          exact .range (of_decide_eq_true lower) (of_decide_eq_true upper)
        | _ => cases h
    | timeout =>
      cases value with
      | integer n => exact .timeout (of_decide_eq_true h)
      | atom name =>
        obtain rfl : name = "infinity" := beq_iff_eq.mp h
        exact .infinity
      | _ => cases h
    | func arity =>
      cases value with
      | func f =>
        obtain rfl : f.arity = arity := beq_iff_eq.mp h
        exact .func f
      | _ => cases h
    | struct tag =>
      cases value with
      | struct actual fields =>
        obtain rfl : tag = actual := beq_iff_eq.mp h
        exact .struct tag fields
      | _ => cases h
    | nonNegInteger =>
      cases value with
      | integer n => exact .nonNegInteger (of_decide_eq_true h)
      | _ => cases h
    | posInteger =>
      cases value with
      | integer n => exact .posInteger (of_decide_eq_true h)
      | _ => cases h
    | atom => cases value <;> first | exact .atom _ | cases h
    | string => cases value <;> first | exact .string _ | cases h
    | boolean => cases value <;> first | exact .boolean _ | cases h
    | integer => cases value <;> first | exact .integer _ | cases h
    | float => cases value <;> first | exact .float _ | cases h
    | pid => cases value <;> first | exact .pid _ | cases h
    | reference => cases value <;> first | exact .reference _ | cases h
    | null => cases value <;> first | exact .null | cases h
    | map => cases value <;> first | exact .map _ | cases h
    | _ => cases plain

/-- The values of a type; `inner` says which values satisfy a nested schema. -/
inductive Conforms (inner : Nested → Value → Prop) : Ty → Value → Prop where
  | plain {ty : Ty} {value : Value} (h : ty.Fits value) : Conforms inner ty value
  | mapOf {keyTy valueTy : Ty} {pairs : List (Value × Value)}
      (keys : ∀ pair ∈ pairs, Conforms inner keyTy pair.1)
      (values : ∀ pair ∈ pairs, Conforms inner valueTy pair.2) :
      Conforms inner (.mapOf keyTy valueTy) (.map pairs)
  | custom {validator : Validator} {value result : Value} (h : validator.call value = .ok result) :
      Conforms inner (.custom validator) value
  | union {alternatives : List Ty} {ty : Ty} {value : Value} (h : ty ∈ alternatives)
      (conforms : Conforms inner ty value) : Conforms inner (.union alternatives) value
  | listOf {item : Ty} {items : List Value} (h : ∀ element ∈ items, Conforms inner item element) :
      Conforms inner (.listOf item) (.list items)
  | tuple {types : List Ty} {items : List Value} (h : List.Forall₂ (Conforms inner) types items) :
      Conforms inner (.tuple types) (.tuple items)
  | keyed {container : Ty} {nested : Nested} {value : Value} (h : Conforms inner container value)
      (satisfied : inner nested value) : Conforms inner (.keyed container nested) value

variable {onward : Onward} {inner : Nested → Value → Prop}

theorem conforms_of_isPlain {ty : Ty} (plain : ty.isPlain = true) {value : Value} :
    ty.Conforms inner value ↔ ty.admits value = true := by
  rw [← fits_iff_admits plain]
  constructor
  · intro h
    cases h <;> first | assumption | cases plain
  · exact .plain

section Inversion

variable {value : Value}

theorem conforms_mapOf_iff {keyTy valueTy : Ty} :
    (mapOf keyTy valueTy).Conforms inner value ↔ ∃ pairs, value = .map pairs ∧
      ∀ pair ∈ pairs, keyTy.Conforms inner pair.1 ∧ valueTy.Conforms inner pair.2 := by
  constructor
  · intro h
    cases h with
    | plain h => cases h
    | mapOf keys values => exact ⟨_, rfl, fun pair hpair => ⟨keys pair hpair, values pair hpair⟩⟩
  · rintro ⟨pairs, rfl, h⟩
    exact .mapOf (fun pair hpair => (h pair hpair).1) fun pair hpair => (h pair hpair).2

theorem conforms_custom_iff {validator : Validator} :
    (custom validator).Conforms inner value ↔ ∃ result, validator.call value = .ok result := by
  constructor
  · intro h
    cases h with
    | plain h => cases h
    | custom h => exact ⟨_, h⟩
  · rintro ⟨result, h⟩
    exact .custom h

theorem conforms_union_iff {alternatives : List Ty} :
    (union alternatives).Conforms inner value ↔ ∃ ty ∈ alternatives, ty.Conforms inner value := by
  constructor
  · intro h
    cases h with
    | plain h => cases h
    | union h conforms => exact ⟨_, h, conforms⟩
  · rintro ⟨ty, h, conforms⟩
    exact .union h conforms

theorem conforms_listOf_iff {item : Ty} :
    (listOf item).Conforms inner value ↔ ∃ items, value = .list items ∧
      ∀ element ∈ items, item.Conforms inner element := by
  constructor
  · intro h
    cases h with
    | plain h => cases h
    | listOf h => exact ⟨_, rfl, h⟩
  · rintro ⟨items, rfl, h⟩
    exact .listOf h

theorem conforms_tuple_iff {types : List Ty} :
    (tuple types).Conforms inner value ↔ ∃ items, value = .tuple items ∧
      List.Forall₂ (Conforms inner) types items := by
  constructor
  · intro h
    cases h with
    | plain h => cases h
    | tuple h => exact ⟨_, rfl, h⟩
  · rintro ⟨items, rfl, h⟩
    exact .tuple h

theorem conforms_keyed_iff {container : Ty} {nested : Nested} :
    (keyed container nested).Conforms inner value ↔
      container.Conforms inner value ∧ inner nested value := by
  constructor
  · intro h
    cases h with
    | plain h => cases h
    | keyed h satisfied => exact ⟨h, satisfied⟩
  · rintro ⟨h, satisfied⟩
    exact .keyed h satisfied

theorem isSome_output_mapOf_iff {keyTy valueTy : Ty} :
    ((mapOf keyTy valueTy).output onward value).isSome ↔ ∃ pairs, value = .map pairs ∧
      ∀ pair ∈ pairs, (keyTy.output onward pair.1).isSome ∧
        (valueTy.output onward pair.2).isSome := by
  constructor
  · intro h
    obtain ⟨w, hw⟩ := Option.isSome_iff_exists.mp h
    obtain ⟨pairs, results, rfl, -, each⟩ := output_mapOf_eq_some hw
    refine ⟨pairs, rfl, fun pair hpair => ?_⟩
    obtain ⟨result, -, hkey, hheld⟩ := (Rearranged.of_forall₂ each).forth hpair
    exact ⟨Option.isSome_of_eq_some hkey, Option.isSome_of_eq_some hheld⟩
  · rintro ⟨pairs, rfl, h⟩
    rw [output, Option.isSome_map, isSome_mapM_iff]
    intro pair hpair
    obtain ⟨key, hkey⟩ := Option.isSome_iff_exists.mp (h pair hpair).1
    obtain ⟨held, hheld⟩ := Option.isSome_iff_exists.mp (h pair hpair).2
    rw [hkey, hheld]
    rfl

theorem isSome_output_listOf_iff {item : Ty} :
    ((listOf item).output onward value).isSome ↔ ∃ items, value = .list items ∧
      ∀ element ∈ items, (item.output onward element).isSome := by
  constructor
  · intro h
    obtain ⟨w, hw⟩ := Option.isSome_iff_exists.mp h
    obtain ⟨items, results, rfl, -, each⟩ := output_listOf_eq_some hw
    refine ⟨items, rfl, fun element helement => ?_⟩
    obtain ⟨result, -, hresult⟩ := (Rearranged.of_forall₂ each).forth helement
    exact Option.isSome_of_eq_some hresult
  · rintro ⟨items, rfl, h⟩
    rw [output, Option.isSome_map, isSome_mapM_iff]
    exact h

theorem isSome_output_tuple_iff {types : List Ty} :
    ((tuple types).output onward value).isSome ↔ ∃ items, value = .tuple items ∧
      List.Forall₂ (fun ty item => (output onward ty item).isSome) types items := by
  simp only [List.forall₂_iff_zip]
  constructor
  · intro h
    obtain ⟨w, hw⟩ := Option.isSome_iff_exists.mp h
    obtain ⟨items, results, rfl, -, size, each⟩ := output_tuple_eq_some hw
    refine ⟨items, rfl, size, fun {ty item} hmem => ?_⟩
    obtain ⟨result, -, hresult⟩ := (Rearranged.of_forall₂ each).forth hmem
    exact Option.isSome_of_eq_some hresult
  · rintro ⟨items, rfl, size, h⟩
    rw [output, if_pos size, Option.isSome_map, outputEach_eq_mapM, isSome_mapM_iff]
    exact fun each hmem => h hmem

theorem isSome_output_keyed_iff {container : Ty} {nested : Nested}
    (plain : container.isPlain = true) :
    ((keyed container nested).output onward value).isSome ↔
      container.admits value = true ∧ (onward nested value).isSome := by
  rw [output, output_of_isPlain plain]
  cases container.admits value <;> simp

end Inversion

/-- Where nested schemas stand on containers and are entered exactly with the values that satisfy
them, a type accepts its values. -/
theorem isSome_output_iff {ty : Ty}
    (containers : ∀ container nested, .keyed container nested ∈ ty.subterms →
      container.isContainer = true)
    (agree : ∀ container nested, .keyed container nested ∈ ty.subterms →
      ∀ value, (onward nested value).isSome ↔ inner nested value) (value : Value) :
    (ty.output onward value).isSome ↔ ty.Conforms inner value := by
  induction ty using parts_induction generalizing value with
  | step ty ih =>
    have part : ∀ sub ∈ ty.parts, ∀ value, (sub.output onward value).isSome ↔
        sub.Conforms inner value := fun sub hsub value => ih sub hsub
      (fun container nested h => containers container nested (subterms_of_part hsub h))
      (fun container nested h => agree container nested (subterms_of_part hsub h)) value
    by_cases plain : ty.isPlain = true
    · rw [output_of_isPlain plain, conforms_of_isPlain plain]
      split <;> simp [*]
    cases ty with
    | mapOf keyTy valueTy =>
      have hkey := part keyTy (by simp [parts])
      have hvalue := part valueTy (by simp [parts])
      simp only [isSome_output_mapOf_iff, conforms_mapOf_iff, hkey, hvalue]
    | custom validator =>
      rw [output, conforms_custom_iff]
      cases validator.call value <;> simp [Except.toOption]
    | union alternatives =>
      rw [output, outputAny_eq_findSome?, List.findSome?_isSome_iff, conforms_union_iff]
      exact exists_congr fun ty => and_congr_right fun hty => part ty hty value
    | listOf item =>
      have hitem := part item (by simp [parts])
      simp only [isSome_output_listOf_iff, conforms_listOf_iff, hitem]
    | tuple types =>
      rw [isSome_output_tuple_iff, conforms_tuple_iff]
      refine exists_congr fun items => and_congr_right fun _ => ⟨fun h => ?_, fun h => ?_⟩
      · exact forall₂_imp_mem h fun ty hty item _ => (part ty hty item).mp
      · exact forall₂_imp_mem h fun ty hty item _ => (part ty hty item).mpr
    | keyed container nested =>
      have hplain := isPlain_of_isContainer (containers container nested (self_mem_subterms _))
      rw [isSome_output_keyed_iff hplain, conforms_keyed_iff, conforms_of_isPlain hplain,
        ← agree container nested (self_mem_subterms _)]
    | _ => exact absurd rfl plain

end Ty

structure KeySpec.Accepts (inner : Nested → Value → Prop) (spec : KeySpec) (value : Value) :
    Prop where
  conforms : spec.ty.Conforms inner value
  nested : ∀ nested, spec.nested = some nested → inner nested value

namespace Schema

structure Admits (inner : Nested → Value → Prop) (schema : Schema)
    (entries : List (String × Value)) : Prop where
  declared : ∀ name ∈ Entries.names entries, ∃ spec, schema.specFor? name = some spec
  required : ∀ name spec, name ≠ wildcardName → schema.find? name = some spec →
    spec.required = true → name ∈ Entries.names entries
  given : ∀ name value spec, entries.lookup name = some value →
    schema.specFor? name = some spec → spec.Accepts inner value
  defaults : ∀ name default spec, name ≠ wildcardName → schema.find? name = some spec →
    name ∉ Entries.names entries → spec.required = false → spec.default = some default →
    spec.Accepts inner default

def Holds (inner : Nested → Value → Prop) (schema : Schema) (value : Value) : Prop :=
  ∃ entries, value.Reads entries ∧ schema.Admits inner entries

end Schema

/-- With so many levels to go, the value, or each element of a list, satisfies the schema that the
nested one stands for. -/
def Nested.Satisfied (resolve : Resolver) : Nat → Nested → Value → Prop
  | 0, _, _ => False
  | levels + 1, nested, value => ∃ schema, resolve nested = some schema ∧
    match value with
    | .list items => ∀ item ∈ items, schema.Holds (Nested.Satisfied resolve levels) item
    | _ => schema.Holds (Nested.Satisfied resolve levels) value

def Schema.Satisfied (resolve : Resolver) (levels : Nat) (schema : Schema) (value : Value) : Prop :=
  schema.Holds (Nested.Satisfied resolve levels) value

section Agreement

variable {onward : Onward} {inner : Nested → Value → Prop}

namespace KeySpec

variable {spec : KeySpec}

theorem isSome_output (keys : spec.nested.isSome → spec.ty.acceptsKeys = true) {value : Value} :
    (spec.output onward value).isSome ↔ (spec.ty.output onward value).isSome ∧
      ∀ nested, spec.nested = some nested → (onward nested value).isSome := by
  rw [output]
  cases hmatched : spec.ty.output onward value with
  | none => simp
  | some matched =>
    rw [Option.bind_some]
    cases hnested : spec.nested with
    | none => simp
    | some nested =>
      have unchanged : matched = value :=
        Ty.output_eq_of_acceptsKeys (keys (Option.isSome_of_eq_some hnested)) hmatched
      simp [unchanged]

theorem isSome_output_iff
    (conforms : ∀ value, (spec.ty.output onward value).isSome ↔ spec.ty.Conforms inner value)
    (container : spec.nested.isSome → spec.ty.acceptsKeys = true)
    (agree : ∀ nested, spec.nested = some nested →
      ∀ value, (onward nested value).isSome ↔ inner nested value) (value : Value) :
    (spec.output onward value).isSome ↔ spec.Accepts inner value := by
  rw [isSome_output container, conforms]
  constructor
  · rintro ⟨hty, hnested⟩
    exact ⟨hty, fun nested h => (agree nested h value).mp (hnested nested h)⟩
  · intro h
    exact ⟨h.conforms, fun nested hnested => (agree nested hnested value).mpr (h.nested _ hnested)⟩

theorem isSome_contribution_of_given {name : String} {entries : List (String × Value)}
    (accepts : ∀ value, (spec.output onward value).isSome ↔ spec.Accepts inner value)
    (h : name ∈ Entries.names entries) :
    (contribution onward entries (name, spec)).isSome ↔
      ∀ value, entries.lookup name = some value → spec.Accepts inner value := by
  obtain ⟨value, hvalue⟩ := Entries.exists_lookup h
  rw [contribution, candidate?, hvalue]
  simp [← accepts]

theorem isSome_contribution_of_absent {name : String} {entries : List (String × Value)}
    (accepts : ∀ value, (spec.output onward value).isSome ↔ spec.Accepts inner value)
    (h : name ∉ Entries.names entries) :
    (contribution onward entries (name, spec)).isSome ↔
      spec.required = false ∧
        ∀ default, spec.default = some default → spec.Accepts inner default := by
  rw [contribution, candidate?, Entries.lookup_eq_none.mpr h]
  cases spec.required with
  | true => simp
  | false => cases spec.default <;> simp [← accepts]

end KeySpec

namespace Schema

variable {schema : Schema}

theorem accepts_iff (keyed : schema.WellKeyed)
    (agree : ∀ nested, schema.Mentions nested →
      ∀ value, (onward nested value).isSome ↔ inner nested value)
    {name : String} {spec : KeySpec} (h : (name, spec) ∈ schema.keys) (value : Value) :
    (spec.output onward value).isSome ↔ spec.Accepts inner value := by
  refine KeySpec.isSome_output_iff (Ty.isSome_output_iff ?_ ?_) (keyed.keys _ h) ?_ value
  · intro container nested hsub
    exact keyed.keyed container nested (mem_types h hsub)
  · intro container nested hsub
    exact agree nested (.type (mem_types h hsub))
  · intro nested hnested
    exact agree nested (.key h hnested)

theorem isSome_outputEntries {entries : List (String × Value)} :
    (schema.outputEntries onward entries).isSome ↔
      (schema.expand (Entries.names entries)).undeclared (Entries.names entries) = [] ∧
      ∀ entry ∈ (schema.expand (Entries.names entries)).keys,
        (KeySpec.contribution onward entries entry).isSome := by
  rw [outputEntries, ← isSome_mapM_iff]
  split <;> simp [*]

theorem isSome_outputEntries_iff (once : schema.names.Nodup) (keyed : schema.WellKeyed)
    (agree : ∀ nested, schema.Mentions nested →
      ∀ value, (onward nested value).isSome ↔ inner nested value)
    (entries : List (String × Value)) :
    (schema.outputEntries onward entries).isSome ↔ schema.Admits inner entries := by
  have accepts : ∀ {name spec}, schema.specFor? name = some spec → ∀ value,
      (spec.output onward value).isSome ↔ spec.Accepts inner value := fun hspec value => by
    obtain ⟨own, hmem⟩ := mem_of_specFor? hspec
    exact accepts_iff keyed agree hmem value
  have isSome : (schema.outputEntries onward entries).isSome ↔
      (∀ name ∈ Entries.names entries, (schema.specFor? name).isSome) ∧
      ∀ entry ∈ (schema.expand (Entries.names entries)).keys,
        (KeySpec.contribution onward entries (entry.1, entry.2)).isSome := by
    rw [← undeclared_expand_eq_nil once]
    exact isSome_outputEntries
  rw [isSome, forall_mem_expand once
    (P := fun name spec => (KeySpec.contribution onward entries (name, spec)).isSome = true)]
  constructor
  · rintro ⟨declared, given, absent⟩
    have fills : ∀ {name spec}, name ≠ wildcardName → schema.find? name = some spec →
        name ∉ Entries.names entries → spec.required = false ∧
          ∀ default, spec.default = some default → spec.Accepts inner default :=
      fun hne hfind hname =>
        (KeySpec.isSome_contribution_of_absent (accepts (specFor?_of_find? hfind)) hname).mp
          (absent _ hname _ hne hfind)
    refine ⟨fun name hname => Option.isSome_iff_exists.mp (declared name hname), ?_, ?_, ?_⟩
    · intro name spec hne hfind hrequired
      by_contra hname
      rw [(fills hne hfind hname).1] at hrequired
      cases hrequired
    · intro name value spec hlookup hspec
      have hname : name ∈ Entries.names entries := Entries.mem_names (Entries.mem_of_lookup hlookup)
      exact (KeySpec.isSome_contribution_of_given (accepts hspec) hname).mp
        (given name hname spec hspec) value hlookup
    · intro name default spec hne hfind hname _ hdefault
      exact (fills hne hfind hname).2 default hdefault
  · intro h
    refine ⟨fun name hname => Option.isSome_iff_exists.mpr (h.declared name hname), ?_, ?_⟩
    · intro name hname spec hspec
      exact (KeySpec.isSome_contribution_of_given (accepts hspec) hname).mpr
        fun value hlookup => h.given name value spec hlookup hspec
    · intro name hname spec hne hfind
      have optional : spec.required = false := by
        by_contra hrequired
        exact hname (h.required name spec hne hfind (by simpa using hrequired))
      exact (KeySpec.isSome_contribution_of_absent (accepts (specFor?_of_find? hfind)) hname).mpr
        ⟨optional, fun default => h.defaults name default spec hne hfind hname optional⟩

theorem isSome_outputMapping_iff (once : schema.names.Nodup) (keyed : schema.WellKeyed)
    (agree : ∀ nested, schema.Mentions nested →
      ∀ value, (onward nested value).isSome ↔ inner nested value) (value : Value) :
    (schema.outputMapping onward value).isSome ↔ schema.Holds inner value := by
  have entriesIff := isSome_outputEntries_iff once keyed agree
  simp only [Holds, ← entriesIff, Value.reads_iff]
  cases value with
  | keywords entries => simp [outputMapping, Value.entries?]
  | map pairs =>
    rw [outputMapping, show (Value.map pairs).entries? = Value.namedEntries? pairs from rfl]
    cases Value.namedEntries? pairs <;> simp
  | _ => simp [outputMapping, Value.entries?]

end Schema

theorem Nested.isSome_output_iff {resolve : Resolver} (levels : Nat) {nested : Nested}
    (every : ∀ schema, resolve nested = some schema →
      schema.EveryLevel resolve fun level => level.names.Nodup ∧ level.WellKeyed) (value : Value) :
    (Nested.output resolve levels nested value).isSome ↔
      Nested.Satisfied resolve levels nested value := by
  induction levels generalizing nested value with
  | zero => exact iff_of_false Bool.false_ne_true id
  | succ levels ih =>
    rw [Nested.output, Nested.Satisfied]
    cases hresolve : resolve nested with
    | none => simp
    | some schema =>
      have here := every schema hresolve
      have holds := Schema.isSome_outputMapping_iff here.self.1 here.self.2
        fun inner mention value => ih (fun next resolved => here.nested mention resolved) value
      have whole := holds value
      simp only [Option.bind_some, Option.some.injEq, exists_eq_left']
      cases value with
      | list items =>
        rw [Schema.outputNested, Option.isSome_map, isSome_mapM_iff]
        exact forall₂_congr fun item _ => holds item
      | _ => exact whole

end Agreement

/-- Validation succeeds exactly with the values that satisfy the schema. Specifications are kept by
name, so that no name comes twice in a level. -/
theorem validate_succeeds_iff_satisfied (producers : Producers) (registry : Option Registry)
    (schema : Schema) (value : Value) (maxDepth : Nat)
    (passes : schema.EveryLevel (Context.resolver { registry } producers) (·.Passes producers))
    (once : schema.EveryLevel (Context.resolver { registry } producers) (·.names.Nodup)) :
    (∃ output, (schema.validate producers value { registry, maxDepth }).outcome = .ok output) ↔
      schema.Satisfied (Context.resolver { registry } producers) maxDepth value := by
  have every : schema.EveryLevel (Context.resolver { registry } producers) fun level =>
      level.names.Nodup ∧ level.WellKeyed := fun level reached =>
    ⟨once level reached, (passes level reached).wellKeyed⟩
  have holds := Schema.isSome_outputMapping_iff every.self.1 every.self.2
    fun nested mention value =>
      Nested.isSome_output_iff maxDepth (fun next resolved => every.nested mention resolved) value
  simp only [← Run.result?_eq_some, ← Option.isSome_iff_exists, Schema.result?_validate]
  exact holds value

/-- The nested level takes one level of depth. -/
theorem satisfied_client :
    let resolve := Context.resolver { registry := none } fun _ => .empty
    let input := .keywords [("retry", .keywords []), ("name", .string "a")]
    Schema.clientSchema.Satisfied resolve 1 input ∧
      ¬ Schema.clientSchema.Satisfied resolve 0 input := by
  have inline : ∀ schema,
      Context.resolver { registry := none } (fun _ => .empty) (.inline schema) = some schema :=
    fun _ => rfl
  have once := Schema.clientSchema_everyLevel (P := (·.names.Nodup)) inline (by decide) (by decide)
  have passes : Schema.clientSchema.EveryLevel _ (·.Passes fun _ => .empty) :=
    Schema.clientSchema_passes inline
  have within := fun levels => validate_succeeds_iff_satisfied (fun _ => .empty) none
    Schema.clientSchema (.keywords [("retry", .keywords []), ("name", .string "a")]) levels
    passes once
  refine ⟨(within 1).mp ⟨_, rfl⟩, fun h => ?_⟩
  obtain ⟨output, h⟩ := (within 0).mpr h
  cases h

end OptionSchema
