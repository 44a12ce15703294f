import OptionSchema.Proofs.Echoes
import OptionSchema.Proofs.OutputProper
/-!
# Types that repeat themselves

Given its own output again, a type returns an equal value, unless it takes another alternative of a
union: defaults that the winning alternative added may let a former one match. Unions are settled
when this does not happen, or makes no difference.
-/
namespace OptionSchema

def Returned (f : Value → Option Value) (w : Value) : Prop :=
  ∃ value, value.Proper ∧ f value = some w

/-- A second pass over the result returns an equal value. -/
def Repeats (f : Value → Option Value) : Prop :=
  ∀ w, Returned f w → ∃ again, f w = some again ∧ (again == w) = true

theorem KeepsProper.of_returned {f : Value → Option Value} (keeps : KeepsProper f) {w : Value}
    (h : Returned f w) : w.Proper := by
  obtain ⟨value, hvalue, h⟩ := h
  exact keeps value w hvalue h

/-- The validator accepts what it returns, and returns an equal value for it. -/
def Validator.Idempotent (validator : Validator) : Prop :=
  ∀ value result, value.Proper → validator.call value = .ok result →
    ∃ again, validator.call result = .ok again ∧ (again == result) = true

/-- What an alternative makes of a value that the ones before it refuse, they refuse again or
return as it is. -/
def Ty.Settled (onward : Onward) (alternatives : List Ty) : Prop :=
  ∀ before ty after, alternatives = before ++ ty :: after → ∀ value w, value.Proper →
    (∀ other ∈ before, other.output onward value = none) → ty.output onward value = some w →
      ∀ again, (union before).output onward w = some again → (again == w) = true

variable {onward : Onward}

/-- What entering a nested schema does to values that a second pass can rely on. -/
structure Lasting (f : Value → Option Value) : Prop where
  repeats : Repeats f
  proper : KeepsProper f
  containers : ∀ (onward : Onward) (ty : Ty) (value w : Value), ty.acceptsKeys = true →
    (ty.output onward value).isSome → f value = some w → (ty.output onward w).isSome

namespace Ty

/-- A union repeats itself exactly when it is settled, if its alternatives do. -/
theorem repeats_union_iff {alternatives : List Ty}
    (each : ∀ ty ∈ alternatives, Repeats (ty.output onward)) :
    Repeats ((union alternatives).output onward) ↔ Settled onward alternatives := by
  have split : ∀ before after value, (union (before ++ after)).output onward value =
      ((union before).output onward value).or ((union after).output onward value) := by
    intro before after value
    simp only [output, outputAny_eq_findSome?, List.findSome?_append]
  have first : ∀ {ty after value w}, ty.output onward value = some w →
      (union (ty :: after)).output onward value = some w := by
    intro ty after value w h
    rw [output, outputAny, h, Option.some_or]
  constructor
  · rintro repeats before ty after rfl value w hvalue hnone hty again hagain
    have hrefuse : (union before).output onward value = none := by
      rw [output, outputAny_eq_findSome?, List.findSome?_eq_none_iff]
      exact hnone
    have hwhole : (union (before ++ ty :: after)).output onward value = some w := by
      rw [split, hrefuse, first hty]
      rfl
    obtain ⟨other, hother, heq⟩ := repeats w ⟨value, hvalue, hwhole⟩
    rw [split, hagain, Option.some_or] at hother
    exact Option.some.inj hother ▸ heq
  · rintro settled w ⟨value, hvalue, h⟩
    obtain ⟨before, ty, after, rfl, hty, hnone⟩ := output_union_eq_some h
    cases hbefore : (union before).output onward w with
    | some again =>
      refine ⟨again, by rw [split, hbefore, Option.some_or], ?_⟩
      exact settled before ty after rfl value w hvalue hnone hty again hbefore
    | none =>
      obtain ⟨again, hagain, heq⟩ := each ty (by simp) w ⟨value, hvalue, hty⟩
      exact ⟨again, by rw [split, hbefore, first hagain]; rfl, heq⟩

theorem settled_of_echoes {alternatives : List Ty} (echoes : ∀ ty ∈ alternatives, ty.Echoes) :
    Settled onward alternatives := by
  rintro before ty after rfl value w hvalue hnone hty again hagain
  obtain rfl := output_eq_of_echoes (echoes ty (by simp)) (fun _ _ _ => hvalue) hty
  obtain ⟨before', other, after', rfl, hother, -⟩ := output_union_eq_some hagain
  rw [hnone other (by simp)] at hother
  cases hother

theorem distinct_of_pairsEqual {as bs : List (Value × Value)}
    (h : List.Forall₂ Value.PairsEqual as bs) (distinct : Entries.Distinct bs)
    (ha : ∀ pair ∈ as, pair.1.Proper) (hb : ∀ pair ∈ bs, pair.1.Proper) : Entries.Distinct as := by
  induction h with
  | nil => exact .nil
  | @cons a b as bs hab items ih =>
    obtain ⟨hhead, hrest⟩ := List.pairwise_cons.mp distinct
    rw [List.forall_mem_cons] at ha hb
    refine List.pairwise_cons.mpr ⟨fun a' ha' => ?_, ih hrest ha.2 hb.2⟩
    obtain ⟨b', hb', hab'⟩ := (Rearranged.of_forall₂ items).forth ha'
    by_contra heq
    have back := ha.1.beq_symm hb.1 hab.1
    have there := hb.1.beq_trans ha.1 (ha.2 a' ha') back (Bool.of_not_eq_false heq)
    have same := hb.1.beq_trans (ha.2 a' ha') (hb.2 b' hb') there hab'.1
    rw [hhead b' hb'] at same
    cases same

theorem returned_mapOf {keyTy valueTy : Ty} {w : Value}
    (h : Returned ((mapOf keyTy valueTy).output onward) w) :
    ∃ entries, w = .map entries ∧ (∃ results, entries = Entries.ofList results) ∧
      ∀ entry ∈ entries, Returned (keyTy.output onward) entry.1 ∧
        Returned (valueTy.output onward) entry.2 := by
  obtain ⟨value, hvalue, h⟩ := h
  obtain ⟨pairs, results, rfl, rfl, items⟩ := output_mapOf_eq_some h
  refine ⟨_, rfl, ⟨results, rfl⟩, Entries.forall_ofList fun result hresult => ?_⟩
  obtain ⟨pair, hpair, hkey, hheld⟩ := (Rearranged.of_forall₂ items).back hresult
  have hparts := Value.mem_parts_map hpair
  exact ⟨⟨pair.1, hvalue.part hparts.1, hkey⟩, pair.2, hvalue.part hparts.2, hheld⟩

theorem repeats_mapOf {keyTy valueTy : Ty} (keys : Repeats (keyTy.output onward))
    (values : Repeats (valueTy.output onward)) (keysProper : KeepsProper (keyTy.output onward))
    (valuesProper : KeepsProper (valueTy.output onward)) :
    Repeats ((mapOf keyTy valueTy).output onward) := by
  intro w hw
  obtain ⟨entries, rfl, ⟨results, rfl⟩, returned⟩ := returned_mapOf hw
  have proper : ∀ entry ∈ Entries.ofList results, entry.1.Proper ∧ entry.2.Proper :=
    fun entry hentry => ⟨keysProper.of_returned (returned entry hentry).1,
      valuesProper.of_returned (returned entry hentry).2⟩
  have again : ∀ entry ∈ Entries.ofList results, ∃ result : Value × Value,
      ((keyTy.output onward entry.1).bind fun key =>
        (valueTy.output onward entry.2).map fun held => (key, held)) = some result ∧
          Value.PairsEqual result entry ∧ result.1.Proper ∧ result.2.Proper := by
    intro entry hentry
    obtain ⟨key, hkey, keyEq⟩ := keys entry.1 (returned entry hentry).1
    obtain ⟨held, hheld, heldEq⟩ := values entry.2 (returned entry hentry).2
    refine ⟨(key, held), pair_eq_some.mpr ⟨hkey, hheld⟩, ⟨keyEq, heldEq⟩, ?_, ?_⟩
    · exact keysProper entry.1 key (proper entry hentry).1 hkey
    · exact valuesProper entry.2 held (proper entry hentry).2 hheld
  obtain ⟨agains, hagains, each⟩ := exists_mapM again
  have equal := each.imp fun _ _ h => h.1
  have proper' : ∀ pair ∈ agains, pair.1.Proper ∧ pair.2.Proper := by
    intro pair hpair
    obtain ⟨entry, -, -, hproper⟩ := (Rearranged.of_forall₂ each).forth hpair
    exact hproper
  have distinct : Entries.Distinct (Entries.ofList results) :=
    Value.ofList_distinct_of_proper fun pair hpair => (proper pair hpair).1
  have distinct' := distinct_of_pairsEqual equal distinct (fun pair h => (proper' pair h).1)
    (fun pair h => (proper pair h).1)
  refine ⟨.map agains, ?_, ?_⟩
  · rw [output, hagains]
    exact congrArg some (Value.mapOf_eq_of_distinct distinct' fun pair h => (proper' pair h).1)
  · have hagain : (Value.map agains).Proper := (Value.proper_map ..).mpr ⟨distinct', proper'⟩
    have hw : (Value.map (Entries.ofList results)).Proper :=
      (Value.proper_map ..).mpr ⟨distinct, proper⟩
    exact (hagain.beq_iff hw).mpr (.map (.of_forall₂ equal))

theorem repeats_listOf {item : Ty} (h : Repeats (item.output onward)) :
    Repeats ((listOf item).output onward) := by
  rintro w ⟨value, hvalue, hout⟩
  obtain ⟨items, results, rfl, rfl, each⟩ := output_listOf_eq_some hout
  have again : ∀ result ∈ results, ∃ again, item.output onward result = some again ∧
      (again == result) = true := by
    intro result hresult
    obtain ⟨element, helement, hr⟩ := (Rearranged.of_forall₂ each).back hresult
    exact h result ⟨element, hvalue.part helement, hr⟩
  obtain ⟨agains, hagains, equal⟩ := exists_mapM again
  exact ⟨.list agains, by rw [output, hagains]; rfl, Value.beqAll_iff.mpr equal⟩

theorem repeats_tuple {types : List Ty} (h : ∀ ty ∈ types, Repeats (ty.output onward)) :
    Repeats ((tuple types).output onward) := by
  rintro w ⟨value, hvalue, hout⟩
  obtain ⟨items, results, rfl, rfl, size, each⟩ := output_tuple_eq_some hout
  have sources := forall₂_of_zip each size
  have again : ∀ part ∈ types.zip results, ∃ again, part.1.output onward part.2 = some again ∧
      (again == part.2) = true := by
    intro part hpart
    obtain ⟨item, hitem, hout⟩ := List.forall₂_zip sources hpart
    exact h part.1 (List.of_mem_zip hpart).1 part.2 ⟨item, hvalue.part hitem, hout⟩
  obtain ⟨agains, hagains, equal⟩ := exists_mapM again
  refine ⟨.tuple agains, ?_, Value.beqAll_iff.mpr ?_⟩
  · rw [output, if_pos sources.length_eq, outputEach_eq_mapM, hagains]
    rfl
  · rw [← List.forall₂_map_right_iff (R := fun a b => (a == b) = true),
      List.map_snd_zip (Nat.le_of_eq sources.length_eq.symm)] at equal
    exact equal

theorem repeats_keyed {container : Ty} {nested : Nested} (hcontainer : container.isContainer = true)
    (lasting : Lasting (onward nested)) : Repeats ((keyed container nested).output onward) := by
  rintro w ⟨value, hvalue, h⟩
  obtain ⟨matched, hmatched, hnested⟩ := Option.bind_eq_some_iff.mp h
  have plain := isPlain_of_isContainer hcontainer
  obtain ⟨hadmits, rfl⟩ := (output_plain_eq_some plain).mp hmatched
  obtain ⟨again, hagain, heq⟩ := lasting.repeats w ⟨value, hvalue, hnested⟩
  have hw := lasting.containers onward container value w (acceptsKeys_of_isContainer hcontainer)
    (hmatched ▸ rfl) hnested
  obtain ⟨w', hw'⟩ := Option.isSome_iff_exists.mp hw
  obtain ⟨-, rfl⟩ := (output_plain_eq_some plain).mp hw'
  exact ⟨again, by rw [output, hw', Option.bind_some, hagain], heq⟩

/-- A type repeats itself if its unions are settled. -/
theorem output_repeats {ty : Ty} (proper : ∀ sub ∈ ty.subterms, sub.IsProper)
    (nested : ∀ container nested, .keyed container nested ∈ ty.subterms →
      container.isContainer = true ∧ Lasting (onward nested))
    (custom : ∀ validator, .custom validator ∈ ty.subterms → validator.Idempotent)
    (settled : ∀ alternatives, .union alternatives ∈ ty.subterms → Settled onward alternatives) :
    Repeats (ty.output onward) := by
  induction ty using parts_induction with
  | step ty ih =>
    have part : ∀ sub ∈ ty.parts, Repeats (sub.output onward) := fun sub hsub =>
      ih sub hsub (fun inner h => proper inner (subterms_of_part hsub h))
        (fun container nested' h => nested container nested' (subterms_of_part hsub h))
        (fun validator h => custom validator (subterms_of_part hsub h))
        (fun alternatives h => settled alternatives (subterms_of_part hsub h))
    have keeps : ∀ sub ∈ ty.parts, KeepsProper (sub.output onward) := fun sub hsub =>
      output_proper (fun inner h => proper inner (subterms_of_part hsub h))
        fun container nested' h => (nested container nested' (subterms_of_part hsub h)).2.proper
    by_cases plain : ty.isPlain = true
    · rintro w ⟨value, hvalue, h⟩
      obtain ⟨-, rfl⟩ := (output_plain_eq_some plain).mp h
      exact ⟨value, h, hvalue.beq_refl⟩
    cases ty with
    | mapOf keyTy valueTy =>
      have hkey : keyTy ∈ (mapOf keyTy valueTy).parts := by simp [parts]
      have hheld : valueTy ∈ (mapOf keyTy valueTy).parts := by simp [parts]
      exact repeats_mapOf (part _ hkey) (part _ hheld) (keeps _ hkey) (keeps _ hheld)
    | custom validator =>
      rintro w ⟨value, hvalue, h⟩
      obtain ⟨again, hagain, heq⟩ := custom validator (self_mem_subterms _) value w hvalue
        (output_custom_eq_some.mp h)
      exact ⟨again, output_custom_eq_some.mpr hagain, heq⟩
    | union alternatives =>
      exact (repeats_union_iff part).mpr (settled alternatives (self_mem_subterms _))
    | listOf item => exact repeats_listOf (part item (by simp [parts]))
    | tuple types => exact repeats_tuple part
    | keyed container nested' =>
      obtain ⟨hcontainer, lasting⟩ := nested container nested' (self_mem_subterms _)
      exact repeats_keyed hcontainer lasting
    | _ => exact absurd rfl plain

end Ty

theorem KeySpec.output_repeats {spec : KeySpec} (ty : Repeats (spec.ty.output onward))
    (container : spec.nested.isSome → spec.ty.acceptsKeys = true)
    (nested : ∀ nested, spec.nested = some nested → Lasting (onward nested)) :
    Repeats (spec.output onward) := by
  rintro w ⟨value, hvalue, h⟩
  obtain ⟨matched, hmatched, hnext⟩ := Option.bind_eq_some_iff.mp h
  cases hnested : spec.nested with
  | none =>
    rw [hnested] at hnext
    obtain rfl := Option.some.inj hnext
    obtain ⟨again, hagain, heq⟩ := ty matched ⟨value, hvalue, hmatched⟩
    exact ⟨again, by rw [output, hagain, hnested]; rfl, heq⟩
  | some inner =>
    rw [hnested] at hnext
    have accepts := container (by simp [hnested])
    have lasting := nested inner hnested
    obtain rfl := Ty.output_eq_of_acceptsKeys accepts hmatched
    obtain ⟨again, hagain, heq⟩ := lasting.repeats w ⟨matched, hvalue, hnext⟩
    have hw := lasting.containers onward spec.ty matched w accepts (hmatched ▸ rfl) hnext
    obtain ⟨w', hw'⟩ := Option.isSome_iff_exists.mp hw
    obtain rfl := Ty.output_eq_of_acceptsKeys accepts hw'
    exact ⟨again, by rw [output, hw', hnested]; exact hagain, heq⟩

end OptionSchema
