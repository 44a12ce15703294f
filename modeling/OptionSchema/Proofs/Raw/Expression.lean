import OptionSchema.Proofs.Raw.Reading
import OptionSchema.Proofs.Schema.Checked
import OptionSchema.Proofs.Schema.Deletion
import OptionSchema.Registry.Register
/-!
# What the raw schema language expresses

Every schema without defects has a written form, unless it has lazy keys, unregistered validators or
arities beyond the integers. Types are written from their parts and levels from those in them.
-/
namespace OptionSchema

variable {validator? : String → Option Validator}

/-- The raw language has a word for the type, apart from the types and schemas inside. -/
def Ty.Expressible (validator? : String → Option Validator) : Ty → Prop
  | .func arity => arity < Nat.pow 2 63
  | .custom validator => ∃ registered, validator? validator.name = some registered ∧
      (validator = registered ∨ ∃ bound, bound ≠ [] ∧ validator = registered.withArgs bound)
  | _ => True

structure Schema.Expressible (validator? : String → Option Validator) (level : Schema) : Prop where
  once : level.names.Nodup
  types : ∀ ty ∈ level.types, ty.Expressible validator?
  settled : ∀ producer, ¬ level.Mentions (.lazy producer)

namespace Raw

theorem exists_describes {ty : Ty} (wellDefined : ∀ sub ∈ ty.subterms, sub.WellDefined)
    (expressible : ∀ sub ∈ ty.subterms, sub.Expressible validator?)
    (nests : ∀ container nested, .keyed container nested ∈ ty.subterms →
      ∃ raw, Nests validator? raw nested) : ∃ raw, Describes validator? raw ty := by
  induction ty using Ty.parts_induction with
  | step ty ih =>
    have part : ∀ sub ∈ ty.parts, ∃ raw, Describes validator? raw sub := fun sub hsub =>
      ih sub hsub (fun inner h => wellDefined inner (Ty.subterms_of_part hsub h))
        (fun inner h => expressible inner (Ty.subterms_of_part hsub h))
        fun container nested h => nests container nested (Ty.subterms_of_part hsub h)
    have own := expressible ty (Ty.self_mem_subterms ty)
    cases ty with
    | mapOf key held =>
      obtain ⟨rawKey, describesKey⟩ := part key (by simp [Ty.parts])
      obtain ⟨rawHeld, describesHeld⟩ := part held (by simp [Ty.parts])
      exact ⟨.tuple [.string "map", rawKey, rawHeld],
        .mapOf (.tuple rfl) .apart describesKey describesHeld⟩
    | func arity =>
      have count : (Int64.ofNat arity).toInt = arity := Int64.toInt_ofNat_of_lt own
      exact ⟨.tuple [.string "fun", .integer (Int64.ofNat arity)], .func (.tuple rfl) count⟩
    | choice choices =>
      cases choices with
      | values allowed => exact ⟨.tuple [.string "in", .list allowed], .values (.tuple rfl)⟩
      | range first last => exact ⟨.tuple [.string "in", .string _], .range (.tuple rfl)⟩
    | custom validator =>
      obtain ⟨registered, hregistered, rfl | ⟨bound, some, rfl⟩⟩ := own
      · exact ⟨.tuple [.string "custom", .string validator.name],
          .custom (.tuple rfl) .apart rfl hregistered⟩
      · exact ⟨.tuple (.string "custom" :: .string registered.name :: bound),
          .rebound (.tuple rfl) .apart rfl hregistered some⟩
    | union alternatives =>
      obtain ⟨items, each⟩ := exists_forall₂ part
      exact ⟨.tuple (.string "or" :: items), .union (.tuple rfl) .apart each⟩
    | listOf item =>
      obtain ⟨raw, describes⟩ := part item (by simp [Ty.parts])
      exact ⟨.tuple [.string "list_of", raw], .listOf (.tuple rfl) describes⟩
    | tuple types =>
      obtain ⟨items, each⟩ := exists_forall₂ part
      exact ⟨.tuple (.string "tuple" :: items), .tuple (.tuple rfl) .apart each⟩
    | struct tag =>
      exact ⟨.tuple [.string "struct", .string tag], .struct (.tuple rfl) rfl⟩
    | keyed container nested =>
      have isContainer : container.isContainer = true :=
        wellDefined _ (Ty.self_mem_subterms _)
      obtain ⟨raw, nests⟩ := nests container nested (Ty.self_mem_subterms _)
      exact ⟨.tuple [.string container.name, raw], .keyed isContainer (.tuple rfl) nests⟩
    | _ => exact ⟨.string _, .simple rfl rfl⟩

section Attributes

variable {spec : KeySpec} {rawTy : Value} {rawNested : Option Value}

def attribute? (spec : KeySpec) (rawTy : Value) (rawNested : Option Value) : String → Option Value
  | "type" => some rawTy
  | "required" => some (.bool spec.required)
  | "default" => spec.default
  | "keys" => rawNested
  | "deprecated" => spec.deprecated.map .string
  | "doc" => spec.doc.map .string
  | "subsection" => spec.subsection.map .string
  | "type_doc" => spec.typeDoc.map .string
  | _ => none

theorem lookup_given_attribute {name : String} (h : name ∈ attributeNames) :
    (Entries.given (attribute? spec rawTy rawNested) attributeNames).lookup name =
      attribute? spec rawTy rawNested name :=
  Entries.lookup_given (by decide) h

theorem annotates_given :
    Annotates (Entries.given (attribute? spec rawTy rawNested) attributeNames) spec where
  names name hname := Entries.names_given_sublist.subset hname
  required := by
    rw [lookup_given_attribute (by decide)]
    rfl
  default := lookup_given_attribute (by decide)
  deprecated := lookup_given_attribute (by decide)
  doc := .inl (lookup_given_attribute (by decide))
  subsection := lookup_given_attribute (by decide)
  typeDoc := lookup_given_attribute (by decide)

end Attributes

/-- A key is written with its nested schema beside its type. -/
theorem exists_specifies {spec : KeySpec} (wellDefined : spec.WellDefined)
    (expressible : ∀ sub ∈ spec.ty.subterms, sub.Expressible validator?)
    (inType : ∀ container nested, .keyed container nested ∈ spec.ty.subterms →
      ∃ raw, Nests validator? raw nested)
    (beside : ∀ nested, spec.nested = some nested → ∃ raw, Nests validator? raw nested) :
    ∃ raw, Specifies validator? raw spec := by
  obtain ⟨rawTy, describes⟩ := exists_describes wellDefined.types expressible inType
  obtain ⟨rawNested, nests⟩ : ∃ rawNested, Option.Rel (Nests validator?) rawNested spec.nested := by
    cases hnested : spec.nested with
    | none => exact ⟨none, .none⟩
    | some nested =>
      obtain ⟨raw, nests⟩ := beside nested hnested
      exact ⟨some raw, .some nests⟩
  let attrs := Entries.given (attribute? spec rawTy rawNested) attributeNames
  have type : attrs.lookup "type" = some rawTy := lookup_given_attribute (by decide)
  have keys : attrs.lookup "keys" = rawNested := lookup_given_attribute (by decide)
  have describes : Describes validator? (rawType attrs) spec.ty := by
    rw [rawType, type]
    exact describes
  exact ⟨.keywords attrs, .beside (.keywords attrs) annotates_given describes
    wellDefined.outermost (keys ▸ nests)⟩

/-- A level is written once the levels that it mentions are. -/
theorem exists_writes_of_nested {level : Schema} (wellDefined : level.WellDefined)
    (expressible : level.Expressible validator?)
    (inline : ∀ next, level.Mentions (.inline next) → ∃ raw, Writes validator? raw next) :
    ∃ raw, Writes validator? raw level := by
  have nests : ∀ nested, level.Mentions nested → ∃ raw, Nests validator? raw nested := by
    intro nested mention
    cases nested with
    | inline next =>
      obtain ⟨raw, writes⟩ := inline next mention
      exact ⟨raw, .inline writes⟩
    | lazy producer => exact absurd mention (expressible.settled producer)
    | ref name => exact ⟨.string name, .ref rfl⟩
  have specified : ∀ entry ∈ level.keys, ∃ own, Named (Specifies validator?) own entry := by
    rintro ⟨name, spec⟩ hentry
    obtain ⟨raw, specifies⟩ := exists_specifies (wellDefined _ hentry)
      (fun sub hsub => expressible.types sub (Schema.mem_types hentry hsub))
      (fun _ _ hsub => nests _ (.type (Schema.mem_types hentry hsub)))
      (fun _ hnested => nests _ (.key hentry hnested))
    exact ⟨(name, raw), .intro specifies⟩
  obtain ⟨entries, each⟩ := exists_forall₂ specified
  have once : (Entries.names entries).Nodup := names_of_named each ▸ expressible.once
  exact ⟨.keywords entries, .intro (.keywords entries) once each⟩

/-- A schema without defects is written from the inside out. -/
theorem exists_writes {schema : Schema} (wellDefined : ∀ level, schema.InPlace level →
    level.WellDefined) (expressible : ∀ level, schema.InPlace level →
      level.Expressible validator?) : ∃ raw, Writes validator? raw schema := by
  induction hn : schema.nesting using Nat.strongRecOn generalizing schema with
  | ind n ih =>
    refine exists_writes_of_nested (wellDefined schema .self) (expressible schema .self) ?_
    intro next mention
    exact ih next.nesting (hn ▸ Schema.nesting_lt_of_mentions mention)
      (fun level inPlace => wellDefined level (inPlace.within mention))
      (fun level inPlace => expressible level (inPlace.within mention)) rfl

end Raw

/-- The raw language expresses every schema without defects that it has the words for, and from
each of its written forms that very schema is compiled. -/
theorem Registry.written_schemas_compile (producers : Producers) (registry : Registry)
    (schema : Schema) (passes : schema.Passes producers) (expressible : ∀ level,
      schema.InPlace level → level.Expressible registry.validator?) :
    (∃ raw, Raw.Writes registry.validator? raw schema) ∧
      ∀ raw, Raw.Writes registry.validator? raw schema →
        (registry.compile producers raw).outcome = .ok schema := by
  constructor
  · exact Raw.exists_writes (fun level inPlace =>
      (passes.clean (inPlace.reviews producers)).wellDefined) expressible
  · intro raw writes
    rw [compile, Raw.compile_of_writes producers writes]
    exact passes

section Pool

def exceptValidator : Validator where
  name := "except"
  args := []
  identity := 0
  run value refused := if refused.contains value then .error "refused" else .ok value

def poolRegistry : Registry := ⟨{ validators := [("except", exceptValidator)] }, defaultMaxDepth⟩

def poolSchema : Schema :=
  ⟨[("retry", { ty := .keywordList, nested := some (.inline .retrySchema) }),
    ("fallbacks", { ty := .listOf (.keyed .map (.ref "pool")), required := true }),
    ("size", { ty := .custom (exceptValidator.withArgs [.integer 0]) }),
    ("hook", { ty := .union [.func 1, .null] })]⟩

def rawPool : Value :=
  .map [
    (.atom "retry", .map [(.string "type", .keywords [("keyword_list", .map [(.atom "max",
      .keywords [("default", .integer 3), ("type", .atom "pos_integer")])])])]),
    (.string "fallbacks", .keywords [("required", .bool true),
      ("type", .tuple [.atom "list_of", .keywords [("map", .atom "pool")]])]),
    (.string "size", .keywords [("type", .keywords [("custom",
      .list [.string "except", .integer 0])])]),
    (.atom "hook", .keywords [("doc", .bool false), ("required", .bool false),
      ("type", .tuple [.string "or", .tuple [.string "fun", .integer 1], .atom "null"])])]

theorem poolSchema_mentions {nested : Nested} (h : poolSchema.Mentions nested) :
    nested = .inline .retrySchema ∨ nested = .ref "pool" := by
  simpa [Schema.mentions_iff, poolSchema, Schema.types, Ty.subterms, Ty.subtermsOfAll,
    eq_comm] using h

theorem retrySchema_not_mentions (nested : Nested) : ¬ Schema.retrySchema.Mentions nested :=
  Schema.not_mentions_of_isPlain (by simp [Schema.retrySchema, Ty.isPlain])

theorem poolSchema_inPlace {level : Schema} (h : poolSchema.InPlace level) :
    level = poolSchema ∨ level = .retrySchema := by
  induction h with
  | self => exact .inl rfl
  | inline _ mention ih =>
    rcases ih with rfl | rfl
    · rcases poolSchema_mentions mention with h | h <;> cases h
      exact .inr rfl
    · exact absurd mention (retrySchema_not_mentions _)

theorem poolSchema_expressible {level : Schema} (h : poolSchema.InPlace level) :
    level.Expressible poolRegistry.validator? := by
  rcases poolSchema_inPlace h with rfl | rfl
  · refine ⟨by decide, fun ty hty => ?_, fun producer mention => ?_⟩
    · simp only [poolSchema, Schema.types, Ty.subterms, Ty.subtermsOfAll, List.flatMap_cons,
        List.flatMap_nil, List.cons_append, List.nil_append, List.append_nil, List.mem_cons,
        List.not_mem_nil, or_false] at hty
      rcases hty with rfl | rfl | rfl | rfl | rfl | rfl | rfl | rfl
      · trivial
      · trivial
      · trivial
      · trivial
      · exact ⟨exceptValidator, rfl, .inr ⟨[.integer 0], by simp, rfl⟩⟩
      · trivial
      · exact (by decide : 1 < Nat.pow 2 63)
      · trivial
    · rcases poolSchema_mentions mention with h | h <;> cases h
  · refine ⟨by decide, fun ty hty => ?_, fun producer => retrySchema_not_mentions _⟩
    simp only [Schema.retrySchema, Schema.types, Ty.subterms, List.flatMap_cons, List.flatMap_nil,
      List.append_nil, List.mem_singleton] at hty
    obtain rfl := hty
    trivial

theorem rawPool_writes : Raw.Writes poolRegistry.validator? rawPool poolSchema := by
  have reads : ∀ {raw : Value} {entries : List (String × Value)}, raw.entries? = some entries →
      raw.Reads entries := Value.reads_iff.mpr
  refine .intro (reads rfl) (by decide) (.cons (.intro ?retry) (.cons (.intro ?fallbacks)
    (.cons (.intro ?size) (.cons (.intro ?hook) .nil))))
  case retry =>
    have max : Raw.Specifies poolRegistry.validator?
        (.keywords [("default", .integer 3), ("type", .atom "pos_integer")])
        { ty := .posInteger, default := some (.integer 3) } :=
      .beside (reads rfl) ⟨by decide, rfl, rfl, rfl, .inl rfl, rfl, rfl⟩
        (.simple rfl rfl) rfl .none
    exact .inside (reads rfl) ⟨by decide, rfl, rfl, rfl, .inl rfl, rfl, rfl⟩
      (.keyed rfl (.entry (reads rfl)) (.inline
        (.intro (reads rfl) (by decide) (.cons (.intro max) .nil)))) rfl rfl
  case fallbacks =>
    exact .beside (reads rfl) ⟨by decide, rfl, rfl, rfl, .inl rfl, rfl, rfl⟩
      (.listOf (.tuple rfl) (.keyed rfl (.entry (reads rfl)) (.ref rfl))) rfl .none
  case size =>
    exact .beside (reads rfl) ⟨by decide, rfl, rfl, rfl, .inl rfl, rfl, rfl⟩
      (.rebound (.entry (reads rfl)) .together rfl rfl (by simp)) rfl .none
  case hook =>
    exact .beside (reads rfl) ⟨by decide, rfl, rfl, rfl, .inr ⟨rfl, rfl⟩, rfl, rfl⟩
      (.union (.tuple rfl) .apart (.cons (.func (.tuple rfl) rfl) (.cons (.simple rfl rfl) .nil)))
      rfl .none

set_option maxRecDepth 4000 in
theorem pool_compiles : (poolRegistry.compile (fun _ => .empty) rawPool).outcome = .ok poolSchema :=
  (poolRegistry.written_schemas_compile (fun _ => .empty) poolSchema rfl fun _ =>
    poolSchema_expressible).2 rawPool rawPool_writes

end Pool

end OptionSchema
