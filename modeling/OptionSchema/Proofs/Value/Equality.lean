import OptionSchema.Proofs.Value.Parts
/-!
# Equality of values is an equivalence

On values whose mappings hold every key once, equality of two mappings means that the entries of one
are those of the other in some order.
-/
namespace OptionSchema.Value

theorem beq_def (a b : Value) : (a == b) = beq a b := rfl

theorem beqAll_iff {as bs : List Value} :
    beqAll as bs = true ↔ List.Forall₂ (fun a b => (a == b) = true) as bs := by
  induction as generalizing bs with
  | nil => cases bs <;> simp [beqAll]
  | cons a as ih =>
    cases bs with
    | nil => simp [beqAll]
    | cons b bs =>
      rw [List.forall₂_cons, ← ih, beqAll, Bool.and_eq_true]
      exact Iff.rfl

theorem entriesWithin_iff {a b : List (String × Value)} :
    entriesWithin a b = true ↔
      ∀ entry ∈ a, ∃ other, b.lookup entry.1 = some other ∧ (entry.2 == other) = true := by
  induction a with
  | nil => simp [entriesWithin]
  | cons head rest ih =>
    obtain ⟨name, value⟩ := head
    rw [entriesWithin, Bool.and_eq_true, ih, List.forall_mem_cons]
    refine and_congr ?_ Iff.rfl
    cases b.lookup name with
    | none => simp
    | some other => simp only [Option.some.injEq, exists_eq_left']; exact Iff.rfl

theorem pairsWithin_iff {a b : List (Value × Value)} :
    pairsWithin a b = true ↔
      ∀ pair ∈ a, ∃ other, b.find? (fun o => pair.1 == o.1) = some other ∧
        (pair.2 == other.2) = true := by
  induction a with
  | nil => simp [pairsWithin]
  | cons head rest ih =>
    obtain ⟨key, value⟩ := head
    rw [pairsWithin, Bool.and_eq_true, ih, List.forall_mem_cons]
    refine and_congr ?_ Iff.rfl
    simp only [show ∀ x y : Value, (x == y) = beq x y from fun _ _ => rfl]
    cases b.find? (fun pair => beq key pair.1) with
    | none => simp
    | some other => simp

def PairsEqual (a b : Value × Value) : Prop := (a.1 == b.1) = true ∧ (a.2 == b.2) = true

def EntriesEqual (a b : String × Value) : Prop := a.1 = b.1 ∧ (a.2 == b.2) = true

theorem entries_beq_iff {a b : List (String × Value)} (ha : (Entries.names a).Nodup)
    (hb : (Entries.names b).Nodup) :
    a.length = b.length ∧ entriesWithin a b = true ↔ Rearranged EntriesEqual a b := by
  rw [entriesWithin_iff]
  constructor
  · rintro ⟨size, within⟩
    refine Rearranged.of_partners ?_ ?_ size
    · intro entry hentry
      obtain ⟨other, hother, heq⟩ := within entry hentry
      exact ⟨(entry.1, other), Entries.mem_of_lookup hother, rfl, heq⟩
    · refine (List.pairwise_map.mp ha).imp ?_
      intro entry entry' hne other _ h h'
      exact hne (h.1.trans h'.1.symm)
  · intro h
    refine ⟨h.length_eq, fun entry hentry => ?_⟩
    obtain ⟨other, hother, hname, heq⟩ := h.forth hentry
    exact ⟨other.2, hname ▸ Entries.lookup_of_mem hb hother, heq⟩

theorem find_of_distinct {pairs : List (Value × Value)} (distinct : Entries.Distinct pairs)
    {key : Value} {pair : Value × Value} (hpair : pair ∈ pairs) (hkey : (key == pair.1) = true)
    (alone : ∀ other ∈ pairs, (key == other.1) = true →
      (pair.1 == other.1) = true ∧ (other.1 == pair.1) = true) :
    pairs.find? (fun other => key == other.1) = some pair := by
  induction pairs with
  | nil => cases hpair
  | cons head rest ih =>
    rw [Entries.Distinct, List.pairwise_cons] at distinct
    rcases List.mem_cons.mp hpair with rfl | hpair
    · simp [hkey]
    · have hhead : (key == head.1) = false := by
        by_contra h
        have same := alone head List.mem_cons_self (by simpa using h)
        rw [distinct.1 pair hpair] at same
        exact Bool.false_ne_true same.2
      rw [List.find?_cons_of_neg (by simp [hhead])]
      exact ih distinct.2 hpair fun other hother => alone other (List.mem_cons_of_mem head hother)

section

variable {P : Value → Prop} (symm : ∀ a b, P a → P b → (a == b) = true → (b == a) = true)
  (trans : ∀ a b c, P a → P b → P c → (a == b) = true → (b == c) = true → (a == c) = true)

include symm trans

theorem pairs_beq_iff {a b : List (Value × Value)} (da : Entries.Distinct a)
    (db : Entries.Distinct b) (ha : ∀ pair ∈ a, P pair.1) (hb : ∀ pair ∈ b, P pair.1) :
    a.length = b.length ∧ pairsWithin a b = true ↔ Rearranged PairsEqual a b := by
  rw [pairsWithin_iff]
  constructor
  · rintro ⟨size, within⟩
    refine Rearranged.of_partners ?_ ?_ size
    · intro pair hpair
      obtain ⟨other, hother, heq⟩ := within pair hpair
      exact ⟨other, List.mem_of_find?_eq_some hother, by simpa using List.find?_some hother, heq⟩
    · apply da.imp_of_mem
      intro pair pair' hpair hpair' hne other hother h h'
      have back := symm _ _ (ha pair' hpair') (hb other hother) h'.1
      have same := trans _ _ _ (ha pair hpair) (hb other hother) (ha pair' hpair') h.1 back
      rw [hne] at same
      exact Bool.false_ne_true same
  · intro h
    refine ⟨h.length_eq, fun pair hpair => ?_⟩
    obtain ⟨other, hother, hkey, heq⟩ := h.forth hpair
    refine ⟨other, find_of_distinct db hother hkey ?_, heq⟩
    intro other' hother' hkey'
    have back := symm _ _ (ha pair hpair) (hb other hother) hkey
    have there := trans _ _ _ (hb other hother) (ha pair hpair) (hb other' hother') back hkey'
    exact ⟨there, symm _ _ (hb other hother) (hb other' hother') there⟩

end

/-- Equality seen from the parts: one kind of value, with equal parts in the same order or, in a
mapping, in any order. -/
inductive EqualByParts : Value → Value → Prop where
  | scalar {a : Value} (h : a.isScalar = true) : EqualByParts a a
  | func {f g : Fun} (arity : f.arity = g.arity) (identity : f.identity = g.identity) :
      EqualByParts (.func f) (.func g)
  | list {as bs : List Value} (h : List.Forall₂ (fun a b => (a == b) = true) as bs) :
      EqualByParts (.list as) (.list bs)
  | tuple {as bs : List Value} (h : List.Forall₂ (fun a b => (a == b) = true) as bs) :
      EqualByParts (.tuple as) (.tuple bs)
  | keywords {as bs : List (String × Value)} (h : Rearranged EntriesEqual as bs) :
      EqualByParts (.keywords as) (.keywords bs)
  | map {as bs : List (Value × Value)} (h : Rearranged PairsEqual as bs) :
      EqualByParts (.map as) (.map bs)
  | struct {tag : String} {as bs : List (String × Value)} (h : Rearranged EntriesEqual as bs) :
      EqualByParts (.struct tag as) (.struct tag bs)

theorem eq_of_beq_scalar {a b : Value} (scalar : a.isScalar = true) (h : (a == b) = true) :
    a = b := by
  rw [beq_def] at h
  cases a <;> first | exact absurd scalar Bool.false_ne_true | skip
  all_goals cases b <;> first
    | exact absurd h Bool.false_ne_true
    | rfl
    | simpa [beq] using h

section

variable {P : Value → Prop} (symm : ∀ a b, P a → P b → (a == b) = true → (b == a) = true)
  (trans : ∀ a b c, P a → P b → P c → (a == b) = true → (b == c) = true → (a == c) = true)

include symm trans

theorem beq_iff_parts {a b : Value} (da : a.HasDistinctKeys) (db : b.HasDistinctKeys)
    (ha : ∀ part ∈ a.parts, P part) (hb : ∀ part ∈ b.parts, P part) :
    (a == b) = true ↔ EqualByParts a b := by
  constructor
  · intro h
    by_cases scalar : a.isScalar = true
    · obtain rfl := eq_of_beq_scalar scalar h
      exact .scalar scalar
    cases a with
    | list as => cases b with
      | list bs => exact .list (beqAll_iff.mp h)
      | _ => exact absurd h Bool.false_ne_true
    | tuple as => cases b with
      | tuple bs => exact .tuple (beqAll_iff.mp h)
      | _ => exact absurd h Bool.false_ne_true
    | keywords as => cases b with
      | keywords bs =>
        refine .keywords ((entries_beq_iff da db).mp ?_)
        simpa [beq_def, beq] using h
      | _ => exact absurd h Bool.false_ne_true
    | map as => cases b with
      | map bs =>
        refine .map ((pairs_beq_iff symm trans da db ?_ ?_).mp ?_)
        · intro pair hpair
          exact ha _ (List.mem_flatMap.mpr ⟨pair, hpair, by simp⟩)
        · intro pair hpair
          exact hb _ (List.mem_flatMap.mpr ⟨pair, hpair, by simp⟩)
        · simpa [beq_def, beq] using h
      | _ => exact absurd h Bool.false_ne_true
    | struct s as => cases b with
      | struct t bs =>
        simp only [beq_def, beq, Bool.and_eq_true, beq_iff_eq] at h
        obtain ⟨⟨rfl, size⟩, within⟩ := h
        exact .struct ((entries_beq_iff da db).mp ⟨size, within⟩)
      | _ => exact absurd h Bool.false_ne_true
    | func f => cases b with
      | func g =>
        simp only [beq_def, beq, Bool.and_eq_true, beq_iff_eq] at h
        exact .func h.1 h.2
      | _ => exact absurd h Bool.false_ne_true
    | _ => exact absurd rfl scalar
  · intro h
    cases h with
    | scalar h => cases a <;> first | exact absurd h Bool.false_ne_true | simp [beq_def, beq]
    | func arity identity => simp [beq_def, beq, arity, identity]
    | list h => exact beqAll_iff.mpr h
    | tuple h => exact beqAll_iff.mpr h
    | keywords h =>
      have := (entries_beq_iff da db).mpr h
      simpa [beq_def, beq] using this
    | map h =>
      have := (pairs_beq_iff symm trans da db
        (fun pair hpair => ha _ (List.mem_flatMap.mpr ⟨pair, hpair, by simp⟩))
        (fun pair hpair => hb _ (List.mem_flatMap.mpr ⟨pair, hpair, by simp⟩))).mpr h
      simpa [beq_def, beq] using this
    | struct h =>
      have := (entries_beq_iff da db).mpr h
      simpa [beq_def, beq] using this

end

section

variable {as bs : List (String × Value)} {ps qs : List (Value × Value)}

theorem mem_parts_keywords {entry : String × Value} (h : entry ∈ as) :
    entry.2 ∈ as.map (·.2) := List.mem_map.mpr ⟨entry, h, rfl⟩

theorem mem_parts_map {pair : Value × Value} (h : pair ∈ ps) :
    pair.1 ∈ (Value.map ps).parts ∧ pair.2 ∈ (Value.map ps).parts :=
  ⟨List.mem_flatMap.mpr ⟨pair, h, by simp⟩, List.mem_flatMap.mpr ⟨pair, h, by simp⟩⟩

theorem entriesEqual_symm
    (parts : ∀ x ∈ as.map (·.2), ∀ y ∈ bs.map (·.2), (x == y) = true → (y == x) = true) :
    ∀ a ∈ as, ∀ b ∈ bs, EntriesEqual a b → EntriesEqual b a := fun _ ha _ hb h =>
  ⟨h.1.symm, parts _ (mem_parts_keywords ha) _ (mem_parts_keywords hb) h.2⟩

theorem pairsEqual_symm (parts : ∀ x ∈ (Value.map ps).parts, ∀ y ∈ (Value.map qs).parts,
      (x == y) = true → (y == x) = true) :
    ∀ a ∈ ps, ∀ b ∈ qs, PairsEqual a b → PairsEqual b a := fun _ ha _ hb h =>
  ⟨parts _ (mem_parts_map ha).1 _ (mem_parts_map hb).1 h.1,
    parts _ (mem_parts_map ha).2 _ (mem_parts_map hb).2 h.2⟩

theorem entriesEqual_trans {cs : List (String × Value)}
    (parts : ∀ x ∈ as.map (·.2), ∀ y ∈ bs.map (·.2), ∀ z ∈ cs.map (·.2),
      (x == y) = true → (y == z) = true → (x == z) = true) :
    ∀ a ∈ as, ∀ b ∈ bs, ∀ c ∈ cs, EntriesEqual a b → EntriesEqual b c → EntriesEqual a c :=
  fun _ ha _ hb _ hc h k => ⟨h.1.trans k.1, parts _ (mem_parts_keywords ha) _
    (mem_parts_keywords hb) _ (mem_parts_keywords hc) h.2 k.2⟩

theorem pairsEqual_trans {rs : List (Value × Value)}
    (parts : ∀ x ∈ (Value.map ps).parts, ∀ y ∈ (Value.map qs).parts, ∀ z ∈ (Value.map rs).parts,
      (x == y) = true → (y == z) = true → (x == z) = true) :
    ∀ a ∈ ps, ∀ b ∈ qs, ∀ c ∈ rs, PairsEqual a b → PairsEqual b c → PairsEqual a c :=
  fun _ ha _ hb _ hc h k =>
    ⟨parts _ (mem_parts_map ha).1 _ (mem_parts_map hb).1 _ (mem_parts_map hc).1 h.1 k.1,
      parts _ (mem_parts_map ha).2 _ (mem_parts_map hb).2 _ (mem_parts_map hc).2 h.2 k.2⟩

end

theorem EqualByParts.symm {a b : Value} (h : EqualByParts a b)
    (parts : ∀ x ∈ a.parts, ∀ y ∈ b.parts, (x == y) = true → (y == x) = true) :
    EqualByParts b a := by
  cases h with
  | scalar h => exact .scalar h
  | func arity identity => exact .func arity.symm identity.symm
  | list h => exact .list (forall₂_imp_mem h parts).flip
  | tuple h => exact .tuple (forall₂_imp_mem h parts).flip
  | keywords h => exact .keywords (h.imp (entriesEqual_symm parts)).symm
  | map h => exact .map (h.imp (pairsEqual_symm parts)).symm
  | struct h => exact .struct (h.imp (entriesEqual_symm parts)).symm

theorem EqualByParts.trans {a b c : Value} (h : EqualByParts a b) (k : EqualByParts b c)
    (parts : ∀ x ∈ a.parts, ∀ y ∈ b.parts, ∀ z ∈ c.parts,
      (x == y) = true → (y == z) = true → (x == z) = true) : EqualByParts a c := by
  cases h with
  | scalar h => exact k
  | func arity identity => cases k with
    | scalar h => exact absurd h Bool.false_ne_true
    | func arity' identity' => exact .func (arity.trans arity') (identity.trans identity')
  | list h => cases k with
    | scalar h => exact absurd h Bool.false_ne_true
    | list k => exact .list (forall₂_trans h k parts)
  | tuple h => cases k with
    | scalar h => exact absurd h Bool.false_ne_true
    | tuple k => exact .tuple (forall₂_trans h k parts)
  | keywords h => cases k with
    | scalar h => exact absurd h Bool.false_ne_true
    | keywords k => exact .keywords (h.trans k (entriesEqual_trans parts))
  | map h => cases k with
    | scalar h => exact absurd h Bool.false_ne_true
    | map k => exact .map (h.trans k (pairsEqual_trans parts))
  | struct h => cases k with
    | scalar h => exact absurd h Bool.false_ne_true
    | struct k => exact .struct (h.trans k (entriesEqual_trans parts))

/-- Symmetry and transitivity need each other in the keys of maps, so they are shown together, for
values up to a size. -/
theorem beq_symm_trans (n : Nat) :
    (∀ a b : Value, (sizeOf a < n ∧ a.Proper) → (sizeOf b < n ∧ b.Proper) →
      (a == b) = true → (b == a) = true) ∧
    (∀ a b c : Value, (sizeOf a < n ∧ a.Proper) → (sizeOf b < n ∧ b.Proper) →
      (sizeOf c < n ∧ c.Proper) → (a == b) = true → (b == c) = true → (a == c) = true) := by
  induction n with
  | zero => exact ⟨fun a b ha => absurd ha.1 (Nat.not_lt_zero _), fun a b c ha =>
      absurd ha.1 (Nat.not_lt_zero _)⟩
  | succ n ih =>
    obtain ⟨symm, trans⟩ := ih
    have small : ∀ {value part : Value}, (sizeOf value < n + 1 ∧ value.Proper) →
        part ∈ value.parts → sizeOf part < n ∧ part.Proper := by
      intro value part h hpart
      have := sizeOf_part hpart
      exact ⟨by omega, h.2.part hpart⟩
    have iff : ∀ {a b : Value}, (sizeOf a < n + 1 ∧ a.Proper) → (sizeOf b < n + 1 ∧ b.Proper) →
        ((a == b) = true ↔ EqualByParts a b) := fun ha hb =>
      beq_iff_parts symm trans ha.2.distinct hb.2.distinct (fun _ => small ha) (fun _ => small hb)
    refine ⟨fun a b ha hb h => ?_, fun a b c ha hb hc h k => ?_⟩
    · rw [iff hb ha]
      rw [iff ha hb] at h
      exact h.symm fun x hx y hy => symm x y (small ha hx) (small hb hy)
    · rw [iff ha hc]
      rw [iff ha hb] at h
      rw [iff hb hc] at k
      exact h.trans k fun x hx y hy z hz => trans x y z (small ha hx) (small hb hy) (small hc hz)

namespace Proper

variable {a b c : Value}

theorem beq_symm (ha : a.Proper) (hb : b.Proper) (h : (a == b) = true) : (b == a) = true :=
  (beq_symm_trans (sizeOf a + sizeOf b + 1)).1 a b ⟨by omega, ha⟩ ⟨by omega, hb⟩ h

theorem beq_trans (ha : a.Proper) (hb : b.Proper) (hc : c.Proper) (h : (a == b) = true)
    (k : (b == c) = true) : (a == c) = true :=
  (beq_symm_trans (sizeOf a + sizeOf b + sizeOf c + 1)).2 a b c ⟨by omega, ha⟩ ⟨by omega, hb⟩
    ⟨by omega, hc⟩ h k

/-- Two mappings of a kind are equal exactly when the entries of one are those of the other in some
order. -/
theorem beq_iff (ha : a.Proper) (hb : b.Proper) : (a == b) = true ↔ EqualByParts a b :=
  beq_iff_parts (P := Proper) (fun _ _ => beq_symm) (fun _ _ _ => beq_trans) ha.distinct hb.distinct
    (fun _ => ha.part) (fun _ => hb.part)

theorem beq_refl (ha : a.Proper) : (a == a) = true := by
  induction a using parts_induction with
  | step a ih =>
    have same : ∀ part ∈ a.parts, (part == part) = true := fun part h => ih part h (ha.part h)
    rw [beq_iff ha ha]
    cases a with
    | list items => exact .list (List.forall₂_same.mpr same)
    | tuple items => exact .tuple (List.forall₂_same.mpr same)
    | keywords entries =>
      exact .keywords (.of_forall₂ (List.forall₂_same.mpr fun entry h =>
        ⟨rfl, same _ (mem_parts_keywords h)⟩))
    | map pairs =>
      exact .map (.of_forall₂ (List.forall₂_same.mpr fun pair h =>
        ⟨same _ (mem_parts_map h).1, same _ (mem_parts_map h).2⟩))
    | struct tag fields =>
      exact .struct (.of_forall₂ (List.forall₂_same.mpr fun entry h =>
        ⟨rfl, same _ (mem_parts_keywords h)⟩))
    | func f => exact .func rfl rfl
    | _ => exact .scalar rfl

theorem nodup_keys {pairs : List (Value × Value)} (h : (Value.map pairs).Proper) :
    (Entries.names pairs).Nodup := by
  rw [Entries.names, List.nodup_iff_pairwise_ne, List.pairwise_map]
  refine (h.distinct : Entries.Distinct pairs).imp_of_mem ?_
  intro a b ha _ hne heq
  rw [← heq, (h.part (mem_parts_map ha).1).beq_refl] at hne
  cases hne

end Proper

theorem distinct_iff_flipped {pairs : List (Value × Value)} (keys : ∀ pair ∈ pairs, pair.1.Proper) :
    Entries.Distinct pairs ↔ pairs.Pairwise fun a b => (b.1 == a.1) = false := by
  have flip : ∀ a ∈ pairs, ∀ b ∈ pairs, (a.1 == b.1) = false → (b.1 == a.1) = false := by
    intro a ha b hb hne
    by_contra heq
    have back := (keys b hb).beq_symm (keys a ha) (Bool.of_not_eq_false heq)
    rw [hne] at back
    cases back
  constructor
  · intro h
    exact h.imp_of_mem fun {a b} ha hb => flip a ha b hb
  · intro h
    exact h.imp_of_mem fun {a b} ha hb => flip b hb a ha

theorem mapOf_eq_of_distinct {pairs : List (Value × Value)} (distinct : Entries.Distinct pairs)
    (keys : ∀ pair ∈ pairs, pair.1.Proper) : mapOf pairs = .map pairs := by
  rw [mapOf, Entries.ofList_of_distinct ((distinct_iff_flipped keys).mp distinct)]

theorem mapOf_eq_of_names {pairs results : List (Value × Value)} (proper : (Value.map pairs).Proper)
    (names : Entries.names results = Entries.names pairs) : mapOf results = .map results := by
  refine mapOf_eq_of_distinct ?_ fun result hresult => ?_
  · rw [Entries.distinct_iff_names, names, ← Entries.distinct_iff_names]
    exact proper.distinct
  · obtain ⟨pair, hpair, heq⟩ := List.mem_map.mp (names ▸ Entries.mem_names hresult)
    exact heq ▸ proper.part (mem_parts_map hpair).1

theorem ofList_distinct_of_proper {pairs : List (Value × Value)}
    (keys : ∀ pair ∈ Entries.ofList pairs, pair.1.Proper) :
    Entries.Distinct (Entries.ofList pairs) :=
  (distinct_iff_flipped keys).mpr (Entries.ofList_distinct pairs)

theorem mapOf_proper {pairs : List (Value × Value)}
    (h : ∀ pair ∈ Entries.ofList pairs, pair.1.Proper ∧ pair.2.Proper) : (mapOf pairs).Proper :=
  (proper_map ..).mpr ⟨ofList_distinct_of_proper fun pair hpair => (h pair hpair).1, h⟩

end OptionSchema.Value
