import Mathlib.Data.List.Nodup
import OptionSchema.Proofs.Echoes
import OptionSchema.Proofs.Run
import OptionSchema.Proofs.Schema.Checked
import OptionSchema.Proofs.Schema.Expansion
/-!
# Validation only adds defaults

The output keeps all of the input. What is new in it are defaults, each in a mapping that was walked
against a schema that has the default.
-/
namespace OptionSchema

structure Schema.Fills (schema : Schema) (entries : List (String × Value)) (name : String)
    (filled : Value) : Prop where
  named : name ≠ wildcardName
  absent : name ∉ Entries.names entries
  default : ∃ spec, schema.find? name = some spec ∧ spec.default = some filled

/-- The second value is the first one with defaults added to mappings inside, where `walked` tells
which mappings were walked against which schema. -/
inductive Value.Extends (walked : Schema → Value → Prop) : Value → Value → Prop where
  | same (value : Value) : Extends walked value value
  | list {as bs : List Value} (h : List.Forall₂ (Extends walked) as bs) :
      Extends walked (.list as) (.list bs)
  | tuple {as bs : List Value} (h : List.Forall₂ (Extends walked) as bs) :
      Extends walked (.tuple as) (.tuple bs)
  | keywords {as bs : List (String × Value)} {filled : String → Value}
      (kept : ∀ name ∈ Entries.names as, name ∈ Entries.names bs)
      (extended : ∀ name v w, (name, v) ∈ as → (name, w) ∈ bs → Extends walked v w)
      (added : ∀ name ∈ Entries.names bs, name ∉ Entries.names as →
        ∃ schema, walked schema (.keywords as) ∧ schema.Fills as name (filled name))
      (grown : ∀ name w, (name, w) ∈ bs → name ∉ Entries.names as →
        Extends walked (filled name) w) :
      Extends walked (.keywords as) (.keywords bs)
  | map {as bs : List (Value × Value)} {filled : String → Value}
      (kept : ∀ key ∈ Entries.names as, key ∈ Entries.names bs)
      (extended : ∀ key v w, (key, v) ∈ as → (key, w) ∈ bs → Extends walked v w)
      (added : ∀ key ∈ Entries.names bs, key ∉ Entries.names as →
        ∃ name schema entries, key = .string name ∧ walked schema (.map as) ∧
          Value.Reads (.map as) entries ∧ schema.Fills entries name (filled name))
      (grown : ∀ name w, (.string name, w) ∈ bs → .string name ∉ Entries.names as →
        Extends walked (filled name) w) :
      Extends walked (.map as) (.map bs)

/-- The level has no validators, and no nested schemas in the keys of its map types. -/
structure Schema.OnlyAdds (schema : Schema) : Prop where
  custom : ∀ validator, .custom validator ∉ schema.types
  mapKeys : ∀ keyTy valueTy, .mapOf keyTy valueTy ∈ schema.types →
    ∀ container nested, .keyed container nested ∉ keyTy.subterms

section Run

variable {W : Schema → Value → Prop} {enter : Enter} {onward : Onward} {registry : Option Registry}

def Enter.Extends (W : Schema → Value → Prop) (enter : Enter) (registry : Option Registry)
    (nested : Nested) : Prop :=
  ∀ place value (ctx : Context), ctx.registry = registry → value.Proper →
    (enter nested place value ctx).Ensures W (value.Extends W)

namespace Ty

theorem Echoes.ensures_check {ty : Ty} (echoes : ty.Echoes)
    (returns : enter.Returns onward registry) {place : Place} {value : Value} {ctx : Context}
    (hctx : ctx.registry = registry) (proper : value.Proper) :
    (ty.check enter place value ctx).Ensures W (· = value) := by
  apply Run.Ensures.of_result
  intro result h
  rw [result?_check returns ty place value ctx hctx] at h
  exact output_eq_of_echoes echoes (fun _ _ _ => proper) h

theorem ensures_checkAny {types : List Ty} {place : Place} {value : Value} {ctx : Context}
    {Q : Value → Prop} (h : ∀ ty ∈ types, (ty.check enter place value ctx).Ensures W Q) :
    (checkAny enter types place value ctx).Ensures W Q := by
  induction types with
  | nil => exact .fail
  | cons ty types ih =>
    rw [List.forall_mem_cons] at h
    exact h.1.orCollect (ih h.2)

theorem ensures_checkEach {types : List Ty} {index : Nat} {items : List Value} {ctx : Context}
    {R : Value → Value → Prop} (size : types.length = items.length)
    (h : ∀ ty ∈ types, ∀ item ∈ items, ∀ place,
      (ty.check enter place item ctx).Ensures W (R item)) :
    (checkEach enter types index items ctx).Ensures W (List.Forall₂ R items) := by
  induction types generalizing index items with
  | nil =>
    rw [List.eq_nil_of_length_eq_zero size.symm]
    exact .succeed .nil
  | cons ty types ih =>
    cases items with
    | nil => cases size
    | cons item items =>
      refine (h ty List.mem_cons_self item List.mem_cons_self _).bind fun result hresult => ?_
      refine (ih (Nat.succ_inj.mp size) fun ty hty item hitem =>
        h ty (List.mem_cons_of_mem _ hty) item (List.mem_cons_of_mem _ hitem)).bind ?_
      intro results hresults
      exact .succeed (.cons hresult hresults)

/-- A rebuilt map keeps its keys where the key type returns them as they are. -/
theorem extends_mapOf {pairs results : List (Value × Value)} (proper : (Value.map pairs).Proper)
    (h : List.Forall₂ (fun pair result => result.1 = pair.1 ∧ pair.2.Extends W result.2)
      pairs results) : (Value.map pairs).Extends W (Value.mapOf results) := by
  have names : Entries.names results = Entries.names pairs :=
    Entries.names_eq_of_forall₂ (h.flip.imp fun _ _ hpair => hpair.1)
  have source : ∀ {key w}, (key, w) ∈ results → ∃ v, (key, v) ∈ pairs ∧ v.Extends W w := by
    intro key w hmem
    obtain ⟨pair, hpair, rfl, hextends⟩ := (Rearranged.of_forall₂ h).back hmem
    exact ⟨pair.2, hpair, hextends⟩
  rw [Value.mapOf_eq_of_names proper names]
  refine @Value.Extends.map W pairs results (fun _ => .null) (fun key hkey => names ▸ hkey) ?_ ?_ ?_
  · intro key v w hv hw
    obtain ⟨v', hv', hextends⟩ := source hw
    have same := List.inj_on_of_nodup_map proper.nodup_keys hv hv' rfl
    exact (Prod.mk.inj same).2 ▸ hextends
  · intro key hkey habsent
    exact absurd (names ▸ hkey) habsent
  · intro name w hmem habsent
    exact absurd (names ▸ Entries.mem_names hmem) habsent

/-- A check without validators extends the value, if entering the schemas nested in the type
does. -/
theorem ensures_check {ty : Ty} (returns : enter.Returns onward registry)
    (nested : ∀ container nested, .keyed container nested ∈ ty.subterms →
      container.isContainer = true ∧ enter.Extends W registry nested)
    (custom : ∀ validator, .custom validator ∉ ty.subterms)
    (mapKeys : ∀ keyTy valueTy, .mapOf keyTy valueTy ∈ ty.subterms → keyTy.Echoes)
    {place : Place} {value : Value} {ctx : Context} (hctx : ctx.registry = registry)
    (proper : value.Proper) : (ty.check enter place value ctx).Ensures W (value.Extends W) := by
  induction ty using parts_induction generalizing place value ctx with
  | step ty ih =>
    have part : ∀ sub ∈ ty.parts, ∀ {place : Place} {value : Value} {ctx : Context},
        ctx.registry = registry → value.Proper →
          (sub.check enter place value ctx).Ensures W (value.Extends W) := fun sub hsub =>
      ih sub hsub (fun container nested' h => nested container nested' (subterms_of_part hsub h))
        (fun validator h => custom validator (subterms_of_part hsub h))
        (fun keyTy valueTy h => mapKeys keyTy valueTy (subterms_of_part hsub h))
    by_cases plain : ty.isPlain = true
    · apply Run.Ensures.of_result
      intro result h
      rw [result?_check returns ty place value ctx hctx, output_plain_eq_some plain] at h
      exact h.2 ▸ .same value
    cases ty with
    | mapOf keyTy valueTy =>
      cases value with
      | map pairs =>
        rw [check]
        refine .map (.imp (.mapError ?_) fun results => extends_mapOf proper)
        apply Run.Ensures.traverse
        intro pair hpair
        have hparts := Value.mem_parts_map hpair
        have echoes := mapKeys keyTy valueTy (self_mem_subterms _)
        refine .bind (echoes.ensures_check returns hctx (proper.part hparts.1)) fun key hkey => ?_
        refine .bind (part valueTy (by simp [parts]) hctx (proper.part hparts.2)) ?_
        exact fun held hheld => .succeed ⟨hkey, hheld⟩
      | _ => exact .fail
    | custom validator => exact absurd (self_mem_subterms _) (custom validator)
    | union alternatives =>
      rw [check]
      exact .mapError (ensures_checkAny fun ty hty => part ty hty hctx proper)
    | listOf item =>
      cases value with
      | list items =>
        rw [check]
        refine .map (.imp (.mapError ?_) fun results => .list)
        exact .traverseFrom fun index element helement =>
          part item (by simp [parts]) hctx (proper.part helement)
      | _ => exact .fail
    | tuple types =>
      cases value with
      | tuple items =>
        rw [check]
        split
        · rename_i size
          refine .map (.imp (.mapError ?_) fun results => .tuple)
          exact ensures_checkEach size fun ty hty item hitem place' =>
            part ty hty hctx (proper.part hitem)
        · exact .fail
      | _ => exact .fail
    | keyed container nested' =>
      obtain ⟨hcontainer, hnested⟩ := nested container nested' (self_mem_subterms _)
      rw [check]
      have unchanged : (container.check enter place value ctx).Ensures W (· = value) := by
        apply Run.Ensures.of_result
        intro matched h
        rw [result?_check returns container place value ctx hctx,
          output_plain_eq_some (isPlain_of_isContainer hcontainer)] at h
        exact h.2.symm
      exact unchanged.bind fun matched heq => heq ▸ hnested place value ctx hctx proper
    | _ => exact absurd rfl plain

end Ty

structure Schema.Extending (W : Schema → Value → Prop) (enter : Enter) (registry : Option Registry)
    (schema : Schema) : Prop where
  proper : schema.Proper
  keyed : schema.WellKeyed
  adds : schema.OnlyAdds
  nested : ∀ nested, schema.Mentions nested → enter.Extends W registry nested

variable {schema : Schema} {name : String} {spec : KeySpec} {ctx : Context}

theorem Schema.Extending.ensures_check (level : schema.Extending W enter registry)
    (returns : enter.Returns onward registry) {own : String} (h : (own, spec) ∈ schema.keys)
    (hctx : ctx.registry = registry) {value : Value} (proper : value.Proper) :
    (spec.check enter name value ctx).Ensures W (value.Extends W) := by
  have types : ∀ {sub}, sub ∈ spec.ty.subterms → sub ∈ schema.types := Schema.mem_types h
  have echoes : ∀ keyTy valueTy, .mapOf keyTy valueTy ∈ spec.ty.subterms → keyTy.Echoes := by
    intro keyTy valueTy hmap sub hsub
    have hpart : keyTy ∈ (Ty.mapOf keyTy valueTy).parts := by simp [Ty.parts]
    have hinner := Ty.subterms_of_part hpart hsub
    cases sub with
    | custom validator => exact level.adds.custom validator (types (Ty.subterms_trans hmap hinner))
    | keyed container nested =>
      exact level.adds.mapKeys keyTy valueTy (types hmap) container nested hsub
    | _ => trivial
  have checked := @Ty.ensures_check W enter onward registry spec.ty returns
    (fun container nested hsub => ⟨level.keyed.keyed container nested (types hsub),
      level.nested nested (.type (types hsub))⟩)
    (fun validator hsub => level.adds.custom validator (types hsub)) echoes (.key name) value ctx
    hctx proper
  rw [KeySpec.check]
  cases hnested : spec.nested with
  | none => exact checked.bind fun matched hmatched => .succeed hmatched
  | some nested =>
    have unchanged : (spec.ty.check enter (.key name) value ctx).Ensures W (· = value) := by
      apply Run.Ensures.of_result
      intro matched hmatched
      rw [Ty.result?_check returns spec.ty _ value ctx hctx] at hmatched
      exact Ty.output_eq_of_acceptsKeys (level.keyed.keys _ h (by simp [hnested])) hmatched
    refine unchanged.bind fun matched heq => ?_
    subst heq
    exact level.nested nested (.key h hnested) _ matched ctx hctx proper

def KeySpec.Contributes (W : Schema → Value → Prop) (input : List (String × Value)) (name : String)
    (spec : KeySpec) : Option Value → Prop
  | some w => (∃ v, input.lookup name = some v ∧ v.Extends W w) ∨
      (input.lookup name = none ∧ ∃ default, spec.default = some default ∧ default.Extends W w)
  | none => input.lookup name = none

theorem KeySpec.ensures_contribute {input : List (String × Value)}
    (check : ∀ value, ((name, value) ∈ input ∨ spec.default = some value) →
      (spec.check enter name value ctx).Ensures W (value.Extends W)) :
    (spec.contribute enter input ctx name).Ensures W (spec.Contributes W input name) := by
  rw [contribute]
  cases hlookup : input.lookup name with
  | some value =>
    have warned : (spec.warn name ctx).Ensures W fun _ => True := .of_result fun _ _ => trivial
    refine warned.bind fun _ _ => .map ?_
    exact (check value (Or.inl (Entries.mem_of_lookup hlookup))).imp fun w hw =>
      Or.inl ⟨value, hlookup, hw⟩
  | none =>
    by_cases hrequired : spec.required = true
    · simp only [if_pos hrequired]
      exact .fail
    · simp only [if_neg hrequired]
      cases hdefault : spec.default with
      | some value =>
        exact .map ((check value (Or.inr hdefault)).imp fun w hw =>
          Or.inr ⟨hlookup, value, hdefault, hw⟩)
      | none => exact .succeed hlookup

namespace Schema

theorem ensures_contributions {contribute : String → KeySpec → Run Failure (Option Value)}
    {P : String → KeySpec → Option Value → Prop} {keys : List (String × KeySpec)}
    (h : ∀ name spec, (name, spec) ∈ keys → (contribute name spec).Ensures W (P name spec)) :
    (contributions contribute keys).Ensures W fun output =>
      (∀ name w, (name, w) ∈ output → ∃ spec, (name, spec) ∈ keys ∧ P name spec (some w)) ∧
      ∀ name spec, (name, spec) ∈ keys → name ∈ Entries.names output ∨ P name spec none := by
  induction keys with
  | nil => exact .succeed ⟨by simp, by simp⟩
  | cons entry keys ih =>
    obtain ⟨name, spec⟩ := entry
    have tail := ih fun name spec hmem => h name spec (List.mem_cons_of_mem _ hmem)
    rw [contributions]
    refine (h name spec List.mem_cons_self).bind fun given hgiven => ?_
    refine tail.bind fun others hothers => ?_
    obtain ⟨sound, complete⟩ := hothers
    have sound' : ∀ other w, (other, w) ∈ others →
        ∃ spec', (other, spec') ∈ (name, spec) :: keys ∧ P other spec' (some w) := by
      intro other w hmem
      obtain ⟨spec', hspec', hP⟩ := sound other w hmem
      exact ⟨spec', List.mem_cons_of_mem _ hspec', hP⟩
    cases given with
    | some value =>
      refine .succeed ⟨fun other w hmem => ?_, fun other spec' hmem => ?_⟩
      · rcases List.mem_cons.mp hmem with heq | hmem
        · obtain ⟨rfl, rfl⟩ := Prod.mk.inj heq
          exact ⟨spec, List.mem_cons_self, hgiven⟩
        · exact sound' other w hmem
      · rcases List.mem_cons.mp hmem with heq | hmem
        · obtain ⟨rfl, rfl⟩ := Prod.mk.inj heq
          exact Or.inl List.mem_cons_self
        · exact (complete other spec' hmem).imp_left (List.mem_cons_of_mem _)
    | none =>
      refine .succeed ⟨sound', fun other spec' hmem => ?_⟩
      rcases List.mem_cons.mp hmem with heq | hmem
      · obtain ⟨rfl, rfl⟩ := Prod.mk.inj heq
        exact Or.inr hgiven
      · exact complete other spec' hmem

/-- The output has all entries of the input, extended, and else only extended defaults. -/
structure Completes (W : Schema → Value → Prop) (schema : Schema)
    (input output : List (String × Value)) : Prop where
  kept : ∀ name ∈ Entries.names input, name ∈ Entries.names output
  extended : ∀ name v w, (name, v) ∈ input → (name, w) ∈ output → v.Extends W w
  filled : ∀ name w, (name, w) ∈ output → name ∉ Entries.names input →
    ∃ default, schema.Fills input name default ∧ default.Extends W w

theorem Extending.ensures_walkEntries (level : schema.Extending W enter registry)
    (returns : enter.Returns onward registry) (hctx : ctx.registry = registry)
    {input : List (String × Value)} (nodup : (Entries.names input).Nodup)
    (proper : ∀ entry ∈ input, entry.2.Proper) :
    (schema.walkEntries enter input ctx).Ensures W (schema.Completes W input) := by
  rw [walkEntries]
  cases hunknown : (schema.expand (Entries.names input)).undeclared (Entries.names input) with
  | cons name names => exact .fail
  | nil =>
    have once := level.proper.names
    have contributes : ∀ name spec, (name, spec) ∈ (schema.expand (Entries.names input)).keys →
        (spec.contribute enter input ctx name).Ensures W (spec.Contributes W input name) := by
      intro name spec hmem
      obtain ⟨own, hown⟩ := mem_of_mem_expand hmem
      refine KeySpec.ensures_contribute fun value hvalue => level.ensures_check returns hown hctx ?_
      rcases hvalue with hvalue | hvalue
      · exact proper (name, value) hvalue
      · exact level.proper.defaults _ hown value hvalue
    refine (ensures_contributions contributes).imp fun output houtput => ?_
    obtain ⟨sound, complete⟩ := houtput
    constructor
    · intro name hname
      obtain ⟨spec, hspec⟩ := Option.isSome_iff_exists.mp
        ((undeclared_expand_eq_nil once).mp hunknown name hname)
      refine (complete name spec ((mem_expand_of_observed once hname).mpr hspec)).resolve_right ?_
      intro hnone
      exact Entries.lookup_eq_none.mp hnone hname
    · intro name v w hv hw
      obtain ⟨spec, -, hcontributes⟩ := sound name w hw
      have hlookup := Entries.lookup_of_mem nodup hv
      rcases hcontributes with ⟨v', hv', hextends⟩ | ⟨hnone, -⟩
      · obtain rfl := Option.some.inj (hlookup.symm.trans hv')
        exact hextends
      · cases hlookup.symm.trans hnone
    · intro name w hw habsent
      obtain ⟨spec, hmem, hcontributes⟩ := sound name w hw
      obtain ⟨hne, hfind⟩ := (mem_expand_of_absent once habsent).mp hmem
      rcases hcontributes with ⟨v, hv, -⟩ | ⟨-, default, hdefault, hextends⟩
      · exact absurd (Entries.mem_names (Entries.mem_of_lookup hv)) habsent
      · exact ⟨default, ⟨hne, habsent, spec, hfind, hdefault⟩, hextends⟩

def defaultFor (schema : Schema) (name : String) : Value :=
  ((schema.find? name).bind KeySpec.default).getD .null

theorem Fills.eq {entries : List (String × Value)} {filled : Value}
    (h : schema.Fills entries name filled) : schema.defaultFor name = filled := by
  obtain ⟨spec, hfind, hdefault⟩ := h.default
  simp [defaultFor, hfind, hdefault]

theorem Completes.extends_keywords {input output : List (String × Value)}
    (h : schema.Completes W input output) (walked : W schema (.keywords input)) :
    (Value.keywords input).Extends W (.keywords output) := by
  refine @Value.Extends.keywords W input output schema.defaultFor h.kept h.extended ?_ ?_
  · intro name hname habsent
    obtain ⟨w, hw⟩ := Entries.exists_lookup hname
    obtain ⟨default, hfills, -⟩ := h.filled name w (Entries.mem_of_lookup hw) habsent
    exact ⟨schema, walked, hfills.eq ▸ hfills⟩
  · intro name w hw habsent
    obtain ⟨default, hfills, hextends⟩ := h.filled name w hw habsent
    exact hfills.eq ▸ hextends

/-- Written back under the keys that were read, the entries extend the map. -/
theorem Completes.extends_map {pairs : List (Value × Value)} {input output : List (String × Value)}
    (h : schema.Completes W input output) (walked : W schema (.map pairs))
    (reads : (Value.map pairs).Reads input) :
    (Value.map pairs).Extends W (.map (restoreKeys pairs output)) := by
  have read := Value.reads_iff.mp reads
  refine @Value.Extends.map W pairs (restoreKeys pairs output) schema.defaultFor ?_ ?_ ?_ ?_
  · intro key hkey
    obtain ⟨pair, hpair, rfl⟩ := List.mem_map.mp hkey
    obtain ⟨name, -, hmem, hrestored⟩ := named_of_mem read hpair
    obtain ⟨w, hw⟩ := Entries.exists_lookup (h.kept name (Entries.mem_names hmem))
    have written : (pair.1, w) ∈ restoreKeys pairs output :=
      mem_restoreKeys.mpr ⟨name, Entries.mem_of_lookup hw, hrestored⟩
    exact List.mem_map.mpr ⟨_, written, rfl⟩
  · intro key v w hv hw
    obtain ⟨name, hread, hmem, -⟩ := named_of_mem read hv
    obtain ⟨other, hother, hrestored⟩ := mem_restoreKeys.mp hw
    rw [← hrestored, identifier?_restoredKey] at hread
    obtain rfl := Option.some.inj hread
    exact h.extended other v w hmem hother
  · intro key hkey habsent
    obtain ⟨pair, hpair, rfl⟩ := List.mem_map.mp hkey
    obtain ⟨name, hname, hrestored⟩ := mem_restoreKeys.mp hpair
    rw [← hrestored] at habsent ⊢
    obtain ⟨hnew, hstring⟩ := restoredKey_of_new read habsent
    obtain ⟨default, hfills, -⟩ := h.filled name pair.2 hname hnew
    exact ⟨name, schema, input, hstring, walked, reads, hfills.eq ▸ hfills⟩
  · intro name w hw habsent
    obtain ⟨other, hother, hrestored⟩ := mem_restoreKeys.mp hw
    have hkey : restoredKey pairs other = .string name := hrestored
    rw [← hkey] at habsent
    obtain ⟨hnew, hstring⟩ := restoredKey_of_new read habsent
    obtain rfl : other = name := Value.string.inj (hstring.symm.trans hkey)
    obtain ⟨default, hfills, hextends⟩ := h.filled other w hother hnew
    exact hfills.eq ▸ hextends

theorem Extending.ensures_walk (level : schema.Extending W enter registry)
    (returns : enter.Returns onward registry) (ctx : Context) (hctx : ctx.registry = registry)
    {value : Value} (proper : value.Proper) :
    (schema.walk enter value ctx).Ensures W (value.Extends W) := by
  rw [walk]
  refine Run.Ensures.entered.bind fun _ walked => ?_
  cases value with
  | keywords input =>
    rw [walkMapping]
    have parts := Value.entries?_proper proper rfl
    refine .map ((level.ensures_walkEntries returns hctx proper.distinct parts).imp ?_)
    intro output houtput
    exact houtput.extends_keywords walked
  | map pairs =>
    rw [walkMapping]
    cases hread : (Value.map pairs).entries? with
    | none => cases (Value.map pairs).duplicateIdentifier? <;> exact .fail
    | some input =>
      rw [Value.duplicateIdentifier?_eq_none hread]
      have nodup := (Value.namedEntries?_eq_some_iff.mp hread).2
      have parts := Value.entries?_proper proper hread
      refine .bind (level.ensures_walkEntries returns hctx nodup parts) fun output houtput => ?_
      exact .succeed (houtput.extends_map walked (Value.reads_iff.mpr hread))
  | _ => exact .fail

theorem Extending.ensures_walkNested (level : schema.Extending W enter registry)
    (returns : enter.Returns onward registry) (ctx : Context) (hctx : ctx.registry = registry)
    {value : Value} (proper : value.Proper) :
    (schema.walkNested enter value ctx).Ensures W (value.Extends W) := by
  have whole := level.ensures_walk returns ctx hctx proper
  cases value with
  | list items =>
    refine .map (.imp (.traverseFrom fun index item hitem => .mapError ?_) fun results => .list)
    exact level.ensures_walk returns (ctx.step (.index index)) hctx (proper.part hitem)
  | _ => exact whole

end Schema

end Run

theorem Nested.extends_enterWithin {W : Schema → Value → Prop} {producers : Producers}
    {ctx : Context} (levels : Nat) {nested : Nested}
    (every : ∀ schema, ctx.resolver producers nested = some schema →
      schema.EveryLevel (ctx.resolver producers) fun level =>
        level.Proper ∧ level.WellKeyed ∧ level.OnlyAdds) :
    (Nested.enterWithin producers levels).Extends W ctx.registry nested := by
  induction levels generalizing nested with
  | zero => exact fun _ _ _ _ _ => .bind (.of_result fun _ _ => trivial) fun _ _ => .fail
  | succ levels ih =>
    intro place value here hctx proper
    rcases Nested.enterWithin_succ producers levels nested place value hctx with
      ⟨name, -, failed⟩ | ⟨schema, resolved, walks⟩
    · rw [failed]
      exact .fail
    · rw [walks]
      have below := every schema resolved
      have level : schema.Extending W (Nested.enterWithin producers levels) ctx.registry :=
        ⟨below.self.1, below.self.2.1, below.self.2.2, fun inner mention =>
          ih fun next resolved => below.nested mention resolved⟩
      exact .mapError (level.ensures_walkNested (Nested.returns_enterWithin producers ctx levels)
        (here.descend place.segment) hctx proper)

/-- The output of a validation without validators is the input with defaults added, under declared
names, in mappings that were walked. -/
theorem validate_extends (producers : Producers) (schema : Schema) (value : Value) (ctx : Context)
    (proper : value.Proper)
    (levels : schema.EveryLevel (ctx.resolver producers) Schema.Proper)
    (passes : schema.EveryLevel (ctx.resolver producers) (·.Passes producers))
    (adds : schema.EveryLevel (ctx.resolver producers) Schema.OnlyAdds) {output : Value}
    (h : (schema.validate producers value ctx).outcome = .ok output) :
    value.Extends (fun level mapping => ∃ here,
      .entered level mapping here ∈ (schema.validate producers value ctx).journal) output := by
  have every : schema.EveryLevel (ctx.resolver producers) fun level =>
      level.Proper ∧ level.WellKeyed ∧ level.OnlyAdds := fun level reached =>
    ⟨levels level reached, (passes level reached).wellKeyed, adds level reached⟩
  let walked : Schema → Value → Prop := fun level mapping =>
    ∃ here, .entered level mapping here ∈ (schema.validate producers value ctx).journal
  have top : schema.Extending walked (Nested.enterWithin producers ctx.remaining) ctx.registry :=
    ⟨every.self.1, every.self.2.1, every.self.2.2, fun nested mention =>
      Nested.extends_enterWithin ctx.remaining fun next resolved => every.nested mention resolved⟩
  have returns := Nested.returns_enterWithin producers ctx ctx.remaining
  have ensured := top.ensures_walk returns ctx rfl proper
  exact ensured (fun level mapping here hmem => ⟨here, hmem⟩) output h

/-- The nested level adds its default to the map, under a string. -/
theorem client_extends :
    let input := .keywords [("retry", .map [])]
    let run := Schema.clientSchema.validate (fun _ => .empty) input {}
    input.Extends (fun level mapping => ∃ here, .entered level mapping here ∈ run.journal)
      (.keywords [("retry", .map [(.string "max", .integer 3)])]) := by
  have inline : ∀ schema, Context.resolver {} (fun _ => .empty) (.inline schema) = some schema :=
    fun _ => rfl
  refine validate_extends (fun _ => .empty) Schema.clientSchema _ {}
    (by simp [Entries.names, Entries.Distinct])
    (Schema.clientSchema_proper inline) (Schema.clientSchema_passes inline) ?_ rfl
  refine Schema.clientSchema_everyLevel inline ⟨?_, ?_⟩ ⟨?_, ?_⟩ <;>
    simp [Schema.clientSchema, Schema.retrySchema, Schema.types, Ty.subterms, Ty.subtermsOfAll]

end OptionSchema
