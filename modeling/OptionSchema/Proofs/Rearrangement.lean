import Mathlib.Data.List.Perm.Basic
/-!
# Lists that match item by item, in place or in another order

Fallible maps over two lists of related items succeed or fail together.
-/
namespace OptionSchema

variable {α β γ δ ε ζ : Type}

theorem forall₂_imp_mem {R R' : α → β → Prop} {as : List α} {bs : List β}
    (h : List.Forall₂ R as bs) (himp : ∀ a ∈ as, ∀ b ∈ bs, R a b → R' a b) :
    List.Forall₂ R' as bs := by
  refine List.forall₂_iff_zip.mpr ⟨h.length_eq, fun {a b} hab => ?_⟩
  have hmem := List.of_mem_zip hab
  exact himp a hmem.1 b hmem.2 (List.forall₂_zip h hab)

theorem forall₂_trans {R : α → β → Prop} {S : β → γ → Prop} {T : α → γ → Prop} {as : List α}
    {bs : List β} {cs : List γ} (h : List.Forall₂ R as bs) (k : List.Forall₂ S bs cs)
    (himp : ∀ a ∈ as, ∀ b ∈ bs, ∀ c ∈ cs, R a b → S b c → T a c) : List.Forall₂ T as cs := by
  induction h generalizing cs with
  | nil => cases k; exact .nil
  | @cons a b as bs hab _ ih =>
    cases k with
    | @cons _ c _ cs hbc k =>
      refine .cons (himp a List.mem_cons_self b List.mem_cons_self c List.mem_cons_self hab hbc) ?_
      exact ih k fun x hx y hy z hz => himp x (List.mem_cons_of_mem a hx) y
        (List.mem_cons_of_mem b hy) z (List.mem_cons_of_mem c hz)

theorem forall₂_of_zip {R : α × β → γ → Prop} {as : List α} {bs : List β} {cs : List γ}
    (h : List.Forall₂ R (as.zip bs) cs) (size : as.length = bs.length) :
    List.Forall₂ (fun a c => ∃ b ∈ bs, R (a, b) c) as cs := by
  induction as generalizing bs cs with
  | nil => cases h; exact .nil
  | cons a as ih =>
    cases bs with
    | nil => cases size
    | cons b bs =>
      cases h with
      | cons hab h =>
        refine .cons ⟨b, List.mem_cons_self, hab⟩ ((ih h (Nat.succ_inj.mp size)).imp ?_)
        exact fun _ _ ⟨b', hb', hab'⟩ => ⟨b', List.mem_cons_of_mem b hb', hab'⟩

theorem zip_forall₂ {R : α → γ → Prop} {S : β → δ → Prop} {as : List α} {bs : List β} {cs : List γ}
    {ds : List δ} (h : List.Forall₂ R as cs) (k : List.Forall₂ S bs ds) :
    List.Forall₂ (fun a c => R a.1 c.1 ∧ S a.2 c.2) (as.zip bs) (cs.zip ds) := by
  induction h generalizing bs ds with
  | nil => exact .nil
  | cons hac _ ih =>
    cases k with
    | nil => exact .nil
    | cons hbd k => exact .cons ⟨hac, hbd⟩ (ih k)

theorem exists_forall₂ {R : α → β → Prop} {bs : List β} (h : ∀ b ∈ bs, ∃ a, R a b) :
    ∃ as, List.Forall₂ R as bs := by
  induction bs with
  | nil => exact ⟨[], .nil⟩
  | cons b bs ih =>
    rw [List.forall_mem_cons] at h
    obtain ⟨a, hab⟩ := h.1
    obtain ⟨as, each⟩ := ih h.2
    exact ⟨a :: as, .cons hab each⟩

section Option

variable {R : α → β → Prop} {S : γ → δ → Prop} {x : Option α} {y : Option β}

theorem isSome_eq_of_rel (h : Option.Rel R x y) : x.isSome = y.isSome := by
  cases h <;> rfl

theorem rel_imp {T : α → β → Prop} (h : Option.Rel R x y) (himp : ∀ a b, R a b → T a b) :
    Option.Rel T x y := by
  cases h with
  | none => exact .none
  | some h => exact .some (himp _ _ h)

theorem rel_flip (h : Option.Rel R x y) : Option.Rel (flip R) y x := by
  cases h with
  | none => exact .none
  | some h => exact .some h

theorem rel_map {f : α → γ} {g : β → δ} (h : Option.Rel R x y)
    (himp : ∀ a b, x = some a → y = some b → R a b → S (f a) (g b)) :
    Option.Rel S (x.map f) (y.map g) := by
  cases h with
  | none => exact .none
  | some h => exact .some (himp _ _ rfl rfl h)

theorem rel_bind {f : α → Option γ} {g : β → Option δ} (h : Option.Rel R x y)
    (himp : ∀ a b, x = some a → y = some b → R a b → Option.Rel S (f a) (g b)) :
    Option.Rel S (x.bind f) (y.bind g) := by
  cases h with
  | none => exact .none
  | some h => exact himp _ _ rfl rfl h

theorem pair_eq_some {y : Option γ} {pair : α × γ} :
    (x.bind fun a => y.map fun c => (a, c)) = some pair ↔ x = some pair.1 ∧ y = some pair.2 := by
  obtain ⟨a, c⟩ := pair
  cases x with
  | none => simp
  | some a' => cases y <;> simp

theorem findSome?_rel {T : ε → ζ → Prop} {f : ε → Option α} {g : ζ → Option β} {as : List ε}
    {bs : List ζ} (h : List.Forall₂ T as bs)
    (agree : ∀ a ∈ as, ∀ b ∈ bs, T a b → Option.Rel R (f a) (g b)) :
    Option.Rel R (as.findSome? f) (bs.findSome? g) := by
  induction h with
  | nil => exact .none
  | @cons a b as bs hab _ ih =>
    have tail := ih fun x hx y hy =>
      agree x (List.mem_cons_of_mem a hx) y (List.mem_cons_of_mem b hy)
    have head := agree a List.mem_cons_self b List.mem_cons_self hab
    rw [List.findSome?_cons, List.findSome?_cons]
    cases hfa : f a with
    | none => cases hgb : g b with
      | none => exact tail
      | some y => rw [hfa, hgb] at head; cases head
    | some x => cases hgb : g b with
      | none => rw [hfa, hgb] at head; cases head
      | some y => rw [hfa, hgb] at head; exact head

end Option

theorem mapM_eq_some_iff {f : α → Option β} {as : List α} {bs : List β} :
    as.mapM f = some bs ↔ List.Forall₂ (fun a b => f a = some b) as bs := by
  induction as generalizing bs with
  | nil =>
    rw [List.mapM_nil, List.forall₂_nil_left_iff]
    exact ⟨fun h => (Option.some.inj h).symm, fun h => h ▸ rfl⟩
  | cons a as ih =>
    rw [List.mapM_cons, List.forall₂_cons_left_iff]
    constructor
    · intro h
      obtain ⟨b, hb, h⟩ := Option.bind_eq_some_iff.mp h
      obtain ⟨rest, hrest, h⟩ := Option.bind_eq_some_iff.mp h
      exact ⟨b, rest, hb, ih.mp hrest, (Option.some.inj h).symm⟩
    · rintro ⟨b, rest, hb, hrest, rfl⟩
      simp [hb, ih.mpr hrest]

theorem isSome_mapM_iff {f : α → Option β} {as : List α} :
    (as.mapM f).isSome ↔ ∀ a ∈ as, (f a).isSome := by
  induction as with
  | nil => simp
  | cons a as ih =>
    rw [List.mapM_cons, List.forall_mem_cons, ← ih]
    cases f a with
    | none => simp
    | some b => cases as.mapM f <;> simp

theorem exists_mapM {R : β → α → Prop} {f : α → Option β} {as : List α}
    (h : ∀ a ∈ as, ∃ b, f a = some b ∧ R b a) :
    ∃ bs, as.mapM f = some bs ∧ List.Forall₂ R bs as := by
  induction as with
  | nil => exact ⟨[], rfl, .nil⟩
  | cons a as ih =>
    rw [List.forall_mem_cons] at h
    obtain ⟨⟨b, hb, hba⟩, hrest⟩ := h
    obtain ⟨bs, hbs, items⟩ := ih hrest
    refine ⟨b :: bs, ?_, .cons hba items⟩
    rw [List.mapM_cons, hb, hbs]
    rfl

theorem mapM_rel {R : α → β → Prop} {S : γ → δ → Prop} {f : α → Option γ} {g : β → Option δ}
    {as : List α} {bs : List β} (h : List.Forall₂ R as bs)
    (agree : ∀ a ∈ as, ∀ b ∈ bs, R a b → Option.Rel S (f a) (g b)) :
    Option.Rel (List.Forall₂ S) (as.mapM f) (bs.mapM g) := by
  induction h with
  | nil => exact .some .nil
  | @cons a b as bs hab _ ih =>
    rw [List.mapM_cons, List.mapM_cons]
    have head := agree a List.mem_cons_self b List.mem_cons_self hab
    have tail := ih fun x hx y hy =>
      agree x (List.mem_cons_of_mem a hx) y (List.mem_cons_of_mem b hy)
    generalize f a = x at head
    generalize g b = y at head
    generalize as.mapM f = xs at tail
    generalize bs.mapM g = ys at tail
    cases head with
    | none => exact .none
    | some first =>
      cases tail with
      | none => exact .none
      | some rest => exact .some (.cons first rest)

/-- The second list is the first one in some order, with a related item for each item. -/
def Rearranged (R : α → β → Prop) (as : List α) (bs : List β) : Prop :=
  ∃ cs, as.Perm cs ∧ List.Forall₂ R cs bs

namespace Rearranged

variable {R : α → β → Prop} {S : γ → δ → Prop} {as : List α} {bs : List β}

theorem of_forall₂ (h : List.Forall₂ R as bs) : Rearranged R as bs := ⟨as, .refl as, h⟩

theorem length_eq (h : Rearranged R as bs) : as.length = bs.length := by
  obtain ⟨cs, perm, items⟩ := h
  exact perm.length_eq.trans items.length_eq

theorem symm (h : Rearranged R as bs) : Rearranged (fun b a => R a b) bs as := by
  obtain ⟨cs, perm, items⟩ := h
  obtain ⟨ds, items, perm⟩ := List.perm_comp_forall₂ perm items
  exact ⟨ds, perm.symm, items.flip⟩

theorem perm_right (h : Rearranged R as bs) {bs' : List β} (perm : bs.Perm bs') :
    Rearranged R as bs' := by
  obtain ⟨ds, perm', items⟩ := h.symm
  exact symm ⟨ds, perm.symm.trans perm', items⟩

theorem forth (h : Rearranged R as bs) {a : α} (ha : a ∈ as) : ∃ b ∈ bs, R a b := by
  obtain ⟨cs, perm, items⟩ := h
  have hc : a ∈ cs := perm.mem_iff.mp ha
  clear perm ha
  induction items with
  | nil => cases hc
  | @cons c b cs bs hcb _ ih =>
    rcases List.mem_cons.mp hc with rfl | hc
    · exact ⟨b, List.mem_cons_self, hcb⟩
    · obtain ⟨b', hb', hab⟩ := ih hc
      exact ⟨b', List.mem_cons_of_mem b hb', hab⟩

theorem back (h : Rearranged R as bs) {b : β} (hb : b ∈ bs) : ∃ a ∈ as, R a b :=
  h.symm.forth hb

theorem imp {R' : α → β → Prop} (h : Rearranged R as bs)
    (himp : ∀ a ∈ as, ∀ b ∈ bs, R a b → R' a b) : Rearranged R' as bs := by
  obtain ⟨cs, perm, items⟩ := h
  exact ⟨cs, perm, forall₂_imp_mem items fun c hc => himp c (perm.mem_iff.mpr hc)⟩

theorem trans {T : β → γ → Prop} {U : α → γ → Prop} {cs : List γ} (h : Rearranged R as bs)
    (k : Rearranged T bs cs) (himp : ∀ a ∈ as, ∀ b ∈ bs, ∀ c ∈ cs, R a b → T b c → U a c) :
    Rearranged U as cs := by
  obtain ⟨ds, perm, items⟩ := h
  obtain ⟨es, perm', items'⟩ := k
  obtain ⟨fs, perm'', items''⟩ := List.perm_comp_forall₂ perm'.symm items.flip
  refine ⟨fs, perm.trans items''.symm, forall₂_trans perm''.flip items' ?_⟩
  intro f hf e he c hc
  exact himp f (perm.mem_iff.mpr (items''.mem_iff.mp hf)) e
    (perm'.mem_iff.mpr he) c hc

theorem perm {as bs : List α} (h : Rearranged Eq as bs) : as.Perm bs := by
  obtain ⟨cs, perm, items⟩ := h
  rw [List.forall₂_eq_eq_eq] at items
  exact items ▸ perm

theorem map {f : α → γ} {g : β → δ} (h : Rearranged R as bs)
    (himp : ∀ a ∈ as, ∀ b ∈ bs, R a b → S (f a) (g b)) :
    Rearranged S (as.map f) (bs.map g) := by
  obtain ⟨cs, perm, items⟩ := h.imp himp
  refine ⟨cs.map f, perm.map f, ?_⟩
  rw [List.forall₂_map_left_iff, List.forall₂_map_right_iff]
  exact items

/-- A fallible map over a list does not depend on the order of the list, apart from the order of
its results. -/
theorem mapM_rel {f : α → Option γ} {g : β → Option δ} (h : Rearranged R as bs)
    (agree : ∀ a ∈ as, ∀ b ∈ bs, R a b → Option.Rel S (f a) (g b)) :
    Option.Rel (Rearranged S) (as.mapM f) (bs.mapM g) := by
  obtain ⟨cs, perm, items⟩ := h
  have pairs := OptionSchema.mapM_rel items fun c hc b hb =>
    agree c (perm.mem_iff.mpr hc) b hb
  cases hf : as.mapM f with
  | none =>
    have hc : cs.mapM f = none := by
      rw [← Option.not_isSome_iff_eq_none, isSome_mapM_iff] at hf ⊢
      intro all
      exact hf fun a ha => all a (perm.mem_iff.mp ha)
    rw [hc] at pairs
    cases hg : bs.mapM g with
    | none => exact .none
    | some ds => rw [hg] at pairs; cases pairs
  | some cs' =>
    obtain ⟨ds, hds, perm'⟩ := List.perm_comp_forall₂ perm.symm (mapM_eq_some_iff.mp hf)
    rw [mapM_eq_some_iff.mpr hds] at pairs
    generalize bs.mapM g = results at pairs
    cases pairs with
    | some items' => exact .some ⟨ds, perm'.symm, items'⟩

theorem filterMap_id {T : γ → δ → Prop} {as : List (Option γ)} {bs : List (Option δ)}
    (h : Rearranged (Option.Rel T) as bs) : Rearranged T (as.filterMap id) (bs.filterMap id) := by
  obtain ⟨cs, perm, items⟩ := h
  refine ⟨cs.filterMap id, perm.filterMap id, ?_⟩
  clear perm
  induction items with
  | nil => exact .nil
  | cons hcb _ ih =>
    cases hcb with
    | none => exact ih
    | some h => exact .cons h ih

/-- Where every item has a partner, no two items share one and no partner is left over, the
lists match in another order. -/
theorem of_partners (partner : ∀ a ∈ as, ∃ b ∈ bs, R a b)
    (alone : as.Pairwise fun a a' => ∀ b ∈ bs, R a b → ¬ R a' b)
    (size : as.length = bs.length) : Rearranged R as bs := by
  induction as generalizing bs with
  | nil =>
    rw [List.eq_nil_of_length_eq_zero size.symm]
    exact of_forall₂ .nil
  | cons a as ih =>
    rw [List.pairwise_cons] at alone
    obtain ⟨b, hb, hab⟩ := partner a List.mem_cons_self
    obtain ⟨before, after, rfl⟩ := List.append_of_mem hb
    have others : ∀ a' ∈ as, ∃ b' ∈ before ++ after, R a' b' := by
      intro a' ha'
      obtain ⟨b', hb', hab'⟩ := partner a' (List.mem_cons_of_mem a ha')
      rcases List.mem_append.mp hb' with hb' | hb'
      · exact ⟨b', List.mem_append_left after hb', hab'⟩
      · rcases List.mem_cons.mp hb' with rfl | hb'
        · exact absurd hab' (alone.1 a' ha' b' hb hab)
        · exact ⟨b', List.mem_append_right before hb', hab'⟩
    have alone' : as.Pairwise fun x y => ∀ z ∈ before ++ after, R x z → ¬ R y z := by
      refine alone.2.imp fun h z hz => h z ?_
      rcases List.mem_append.mp hz with hz | hz
      · exact List.mem_append_left _ hz
      · exact List.mem_append_right _ (List.mem_cons_of_mem b hz)
    have size' : as.length = (before ++ after).length := by
      simp only [List.length_cons, List.length_append] at size ⊢
      omega
    obtain ⟨cs, perm, items⟩ := ih others alone' size'
    have paired : Rearranged R (a :: as) (b :: (before ++ after)) :=
      ⟨a :: cs, perm.cons a, .cons hab items⟩
    exact paired.perm_right List.perm_middle.symm

end Rearranged

end OptionSchema
