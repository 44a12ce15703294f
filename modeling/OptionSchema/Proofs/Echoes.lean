import OptionSchema.Proofs.Output
/-!
# Types that return what they are given

Only validators and nested schemas change values. A map type rebuilds its map, which leaves a map
with distinct keys as it is.
-/
namespace OptionSchema.Ty

variable {onward : Onward} {ty : Ty} {value w : Value}

/-- Neither a validator nor a nested schema is part of the type. -/
def Echoes (ty : Ty) : Prop := ∀ sub ∈ ty.subterms, match sub with
  | .custom _ => False
  | .keyed .. => False
  | _ => True

theorem Echoes.part (h : ty.Echoes) {sub : Ty} (hsub : sub ∈ ty.parts) : sub.Echoes :=
  fun inner hinner => h inner (subterms_of_part hsub hinner)

theorem output_eq_of_echoes (echoes : ty.Echoes)
    (proper : ∀ keyTy valueTy, .mapOf keyTy valueTy ∈ ty.subterms → value.Proper)
    (h : ty.output onward value = some w) : w = value := by
  induction ty using parts_induction generalizing value w with
  | step ty ih =>
    have part : ∀ sub ∈ ty.parts, ∀ held ∈ value :: value.parts, ∀ result,
        sub.output onward held = some result → result = held := by
      intro sub hsub held hheld result
      apply ih sub hsub (echoes.part hsub)
      intro keyTy valueTy hmap
      have := proper keyTy valueTy (subterms_of_part hsub hmap)
      rcases List.mem_cons.mp hheld with rfl | hheld
      · exact this
      · exact this.part hheld
    by_cases plain : ty.isPlain = true
    · exact ((output_plain_eq_some plain).mp h).2.symm
    cases ty with
    | mapOf keyTy valueTy =>
      obtain ⟨pairs, results, rfl, rfl, items⟩ := output_mapOf_eq_some h
      have same : List.Forall₂ (fun result pair => result = pair) results pairs := by
        refine (forall₂_imp_mem items fun pair hpair result _ hresult => ?_).flip
        have hmem := Value.mem_parts_map hpair
        exact Prod.ext
          (part keyTy (by simp [parts]) pair.1 (List.mem_cons_of_mem _ hmem.1) _ hresult.1)
          (part valueTy (by simp [parts]) pair.2 (List.mem_cons_of_mem _ hmem.2) _ hresult.2)
      rw [List.forall₂_eq_eq_eq] at same
      subst same
      have hmap := proper keyTy valueTy (self_mem_subterms _)
      exact Value.mapOf_eq_of_distinct hmap.distinct fun pair hpair =>
        hmap.part (Value.mem_parts_map hpair).1
    | custom validator => exact (echoes _ (self_mem_subterms _)).elim
    | union alternatives =>
      obtain ⟨before, ty, after, rfl, hty, -⟩ := output_union_eq_some h
      exact part ty (by simp [parts]) value List.mem_cons_self w hty
    | listOf item =>
      obtain ⟨items, results, rfl, rfl, each⟩ := output_listOf_eq_some h
      have same : List.Forall₂ (fun result element => result = element) results items :=
        (forall₂_imp_mem each fun element helement result _ hresult =>
          part item (by simp [parts]) element (List.mem_cons_of_mem _ helement) result hresult).flip
      rw [List.forall₂_eq_eq_eq] at same
      rw [same]
    | tuple types =>
      obtain ⟨items, results, rfl, rfl, size, each⟩ := output_tuple_eq_some h
      have same : List.Forall₂ (fun result each => result = each.2) results (types.zip items) :=
        (forall₂_imp_mem each fun pair hpair result _ hresult =>
          part pair.1 (List.of_mem_zip hpair).1 pair.2
            (List.mem_cons_of_mem _ (List.of_mem_zip hpair).2) result hresult).flip
      rw [← List.forall₂_map_right_iff (R := Eq), List.forall₂_eq_eq_eq,
        List.map_snd_zip (by omega)] at same
      rw [same]
    | keyed container nested => exact (echoes _ (self_mem_subterms _)).elim
    | _ => exact absurd rfl plain

theorem acceptsKeys_of_isContainer (h : ty.isContainer = true) : ty.acceptsKeys = true := by
  cases ty <;> first | rfl | cases h

theorem isContainer_of_subterm (h : ty.acceptsKeys = true) {sub : Ty} (hsub : sub ∈ ty.subterms) :
    sub = ty ∨ sub.isContainer = true := by
  cases ty with
  | listOf item =>
    rw [subterms, subterms_of_isContainer h, List.mem_cons, List.mem_singleton] at hsub
    exact hsub.imp_right fun heq => by rw [heq]; exact h
  | union alternatives =>
    rw [subterms, List.mem_cons, mem_subtermsOfAll] at hsub
    apply hsub.imp_right
    intro hsub
    obtain ⟨ty, hty, hsub⟩ := hsub
    have hcontainer := List.all_eq_true.mp (Bool.and_eq_true_iff.mp h).2 ty hty
    rw [subterms_of_isContainer hcontainer, List.mem_singleton] at hsub
    exact hsub ▸ hcontainer
  | _ => first | exact Or.inl (List.mem_singleton.mp hsub) | cases h

theorem output_eq_of_acceptsKeys (h : ty.acceptsKeys = true)
    (hout : ty.output onward value = some w) : w = value := by
  refine output_eq_of_echoes (fun sub hsub => ?_) (fun keyTy valueTy hsub => ?_) hout
  · rcases isContainer_of_subterm h hsub with rfl | hsub
    · cases sub <;> trivial
    · cases sub <;> trivial
  · rcases isContainer_of_subterm h hsub with rfl | hsub
    · cases h
    · cases hsub

end OptionSchema.Ty
