import OptionSchema.Entries
import OptionSchema.Proofs.Rearrangement
/-!
# Looking up, inserting and comparing entries

What an entry list holds after insertions is said in terms of membership, so that nothing depends on
the order in which names were observed. Names come in the order in which they were inserted first.
-/
namespace OptionSchema.Entries

variable {κ ν : Type}

theorem mem_names {entries : List (κ × ν)} {entry : κ × ν} (h : entry ∈ entries) :
    entry.1 ∈ names entries := List.mem_map.mpr ⟨entry, h, rfl⟩

theorem nodup_names_cons {entry : κ × ν} {entries : List (κ × ν)} :
    (names (entry :: entries)).Nodup ↔ entry.1 ∉ names entries ∧ (names entries).Nodup :=
  List.nodup_cons

theorem names_filter {entries : List (κ × ν)} {p : κ × ν → Bool} {q : κ → Bool}
    (agree : ∀ entry ∈ entries, p entry = q entry.1) :
    names (entries.filter p) = (names entries).filter q := by
  rw [List.filter_congr agree, names, names, List.filter_map]
  rfl

theorem distinct_iff_names [BEq κ] {entries : List (κ × ν)} :
    Distinct entries ↔ (names entries).Pairwise fun a b => (a == b) = false := by
  rw [Distinct, names, List.pairwise_map]

theorem names_eq_of_forall₂ {μ : Type} {as : List (κ × ν)} {bs : List (κ × μ)}
    (h : List.Forall₂ (fun a b => a.1 = b.1) as bs) : names as = names bs := by
  have heads : List.Forall₂ (· = ·) (names as) (names bs) := by
    rw [names, names, List.forall₂_map_left_iff, List.forall₂_map_right_iff]
    exact h
  rwa [List.forall₂_eq_eq_eq] at heads

section Lookup

variable [BEq κ] [LawfulBEq κ] {entries : List (κ × ν)} {key : κ} {value : ν}

theorem mem_of_lookup (h : entries.lookup key = some value) : (key, value) ∈ entries := by
  obtain ⟨before, after, rfl, -⟩ := List.lookup_eq_some_iff.mp h
  simp

theorem lookup_of_mem (once : (names entries).Nodup) (h : (key, value) ∈ entries) :
    entries.lookup key = some value := by
  induction entries with
  | nil => cases h
  | cons head rest ih =>
    obtain ⟨other, held⟩ := head
    rw [nodup_names_cons] at once
    rcases List.mem_cons.mp h with heq | hrest
    · obtain ⟨rfl, rfl⟩ := Prod.mk.inj heq
      exact List.lookup_cons_self
    · have hname : key ∈ names rest := mem_names hrest
      have hne : key ≠ other := by
        rintro rfl
        exact once.1 hname
      rw [List.lookup_cons, beq_false_of_ne hne]
      exact ih once.2 hrest

theorem lookup_eq_some (once : (names entries).Nodup) :
    entries.lookup key = some value ↔ (key, value) ∈ entries :=
  ⟨mem_of_lookup, lookup_of_mem once⟩

theorem eq_of_mem (once : (names entries).Nodup) {other : ν} (h : (key, value) ∈ entries)
    (h' : (key, other) ∈ entries) : value = other := by
  have found := lookup_of_mem once h
  rw [lookup_of_mem once h'] at found
  exact (Option.some.inj found).symm

theorem lookup_eq_none : entries.lookup key = none ↔ key ∉ names entries := by
  rw [List.lookup_eq_none_iff]
  constructor
  · intro h hmem
    obtain ⟨entry, hentry, rfl⟩ := List.mem_map.mp hmem
    exact absurd (h entry hentry) (by simp)
  · intro h entry hentry
    exact bne_iff_ne.mpr fun heq => h (heq ▸ mem_names hentry)

theorem exists_lookup (h : key ∈ names entries) : ∃ value, entries.lookup key = some value := by
  cases found : entries.lookup key with
  | some value => exact ⟨value, rfl⟩
  | none => exact absurd h (lookup_eq_none.mp found)

end Lookup

section Given

def given (value? : κ → Option ν) (keys : List κ) : List (κ × ν) :=
  keys.filterMap fun key => (value? key).map fun value => (key, value)

variable {value? : κ → Option ν} {keys : List κ}

theorem names_given_sublist : (names (given value? keys)).Sublist keys := by
  induction keys with
  | nil => exact .slnil
  | cons key keys ih =>
    cases hvalue : value? key with
    | none => simpa [given, names, hvalue] using ih.cons key
    | some value => simpa [given, names, hvalue] using ih

theorem lookup_given [BEq κ] [LawfulBEq κ] (once : keys.Nodup) {key : κ} (h : key ∈ keys) :
    (given value? keys).lookup key = value? key := by
  refine Option.ext fun value => ?_
  rw [lookup_eq_some (names_given_sublist.nodup once), given, List.mem_filterMap]
  constructor
  · rintro ⟨other, -, hother⟩
    obtain ⟨held, hheld, heq⟩ := Option.map_eq_some_iff.mp hother
    obtain ⟨rfl, rfl⟩ := Prod.mk.inj heq
    exact hheld
  · exact fun hvalue => ⟨key, h, by rw [hvalue, Option.map_some]⟩

end Given

section Insertion

variable [BEq κ]

theorem insert_of_absent {key : κ} (value : ν) {entries : List (κ × ν)}
    (absent : ∀ entry ∈ entries, (key == entry.1) = false) :
    insert key value entries = entries ++ [(key, value)] := by
  induction entries with
  | nil => rfl
  | cons head rest ih =>
    have hhead := absent head List.mem_cons_self
    simp [insert, hhead, ih fun entry h => absent entry (List.mem_cons_of_mem head h)]

theorem foldl_insert_of_distinct {entries pairs : List (κ × ν)}
    (distinct : (entries ++ pairs).Pairwise fun a b => (b.1 == a.1) = false) :
    pairs.foldl (fun entries pair => insert pair.1 pair.2 entries) entries = entries ++ pairs := by
  induction pairs generalizing entries with
  | nil => simp
  | cons pair pairs ih =>
    have absent : ∀ entry ∈ entries, (pair.1 == entry.1) = false := fun entry h =>
      (List.pairwise_append.mp distinct).2.2 entry h pair List.mem_cons_self
    rw [List.foldl_cons, insert_of_absent pair.2 absent, ih (by simpa using distinct)]
    simp

theorem ofList_of_distinct {pairs : List (κ × ν)}
    (distinct : pairs.Pairwise fun a b => (b.1 == a.1) = false) : ofList pairs = pairs := by
  rw [ofList, foldl_insert_of_distinct (by simpa using distinct), List.nil_append]

/-- A key that is overwritten keeps its spelling, so keys and values are bounded apart. -/
theorem forall_insert {K : κ → Prop} {V : ν → Prop} {key : κ} {value : ν} {entries : List (κ × ν)}
    (hkey : K key) (hvalue : V value) (h : ∀ entry ∈ entries, K entry.1 ∧ V entry.2) :
    ∀ entry ∈ insert key value entries, K entry.1 ∧ V entry.2 := by
  induction entries with
  | nil => simp [insert, hkey, hvalue]
  | cons head rest ih =>
    rw [List.forall_mem_cons] at h
    simp only [insert]
    split
    · exact List.forall_mem_cons.mpr ⟨⟨h.1.1, hvalue⟩, h.2⟩
    · exact List.forall_mem_cons.mpr ⟨h.1, ih h.2⟩

theorem forall_ofList {K : κ → Prop} {V : ν → Prop} {pairs : List (κ × ν)}
    (h : ∀ pair ∈ pairs, K pair.1 ∧ V pair.2) : ∀ entry ∈ ofList pairs, K entry.1 ∧ V entry.2 := by
  suffices inv : ∀ entries : List (κ × ν), (∀ entry ∈ entries, K entry.1 ∧ V entry.2) →
      ∀ entry ∈ pairs.foldl (fun entries pair => insert pair.1 pair.2 entries) entries,
        K entry.1 ∧ V entry.2 from inv [] (by simp)
  induction pairs with
  | nil => exact fun _ h => h
  | cons pair pairs ih =>
    rw [List.forall_mem_cons] at h
    intro entries hentries
    exact ih h.2 _ (forall_insert h.1.1 h.1.2 hentries)

theorem insert_distinct {key : κ} (value : ν) {entries : List (κ × ν)}
    (distinct : entries.Pairwise fun a b => (b.1 == a.1) = false) :
    (insert key value entries).Pairwise fun a b => (b.1 == a.1) = false := by
  induction entries with
  | nil => exact List.pairwise_singleton _ _
  | cons head rest ih =>
    rw [List.pairwise_cons] at distinct
    simp only [insert]
    split
    · exact List.pairwise_cons.mpr distinct
    · rename_i hne
      refine List.pairwise_cons.mpr ⟨fun entry h => ?_, ih distinct.2⟩
      exact (forall_insert (K := fun k => (k == head.1) = false) (V := fun _ => True)
        (by simpa using hne) trivial
        (fun other hother => ⟨distinct.1 other hother, trivial⟩) entry h).1

theorem ofList_distinct (pairs : List (κ × ν)) :
    (ofList pairs).Pairwise fun a b => (b.1 == a.1) = false := by
  suffices inv : ∀ entries : List (κ × ν), (entries.Pairwise fun a b => (b.1 == a.1) = false) →
      (pairs.foldl (fun entries pair => insert pair.1 pair.2 entries) entries).Pairwise
        fun a b => (b.1 == a.1) = false from inv [] .nil
  induction pairs with
  | nil => exact fun _ h => h
  | cons pair pairs ih => exact fun entries h => ih _ (insert_distinct pair.2 h)

theorem length_insert_of_present {key : κ} (value : ν) {entries : List (κ × ν)}
    (present : ∃ entry ∈ entries, (key == entry.1) = true) :
    (insert key value entries).length = entries.length := by
  induction entries with
  | nil =>
    obtain ⟨entry, hentry, -⟩ := present
    cases hentry
  | cons head rest ih =>
    rw [insert]
    by_cases hhead : (key == head.1) = true
    · rw [if_pos hhead]
      rfl
    · rw [if_neg hhead, List.length_cons, List.length_cons]
      obtain ⟨entry, hentry, hkey⟩ := present
      rcases List.mem_cons.mp hentry with rfl | hrest
      · exact absurd hkey hhead
      · rw [ih ⟨entry, hrest, hkey⟩]

theorem length_insert_le (key : κ) (value : ν) (entries : List (κ × ν)) :
    (insert key value entries).length ≤ entries.length + 1 := by
  by_cases present : ∃ entry ∈ entries, (key == entry.1) = true
  · rw [length_insert_of_present value present]
    omega
  · rw [insert_of_absent value (by simpa using present), List.length_append]
    simp

theorem length_foldl_insert_le (entries pairs : List (κ × ν)) :
    (pairs.foldl (fun entries pair => insert pair.1 pair.2 entries) entries).length ≤
      entries.length + pairs.length := by
  induction pairs generalizing entries with
  | nil => simp
  | cons pair pairs ih =>
    have one := length_insert_le pair.1 pair.2 entries
    have others := ih (insert pair.1 pair.2 entries)
    rw [List.foldl_cons, List.length_cons]
    omega

theorem distinct_of_length_foldl_insert {entries pairs : List (κ × ν)}
    (size : (pairs.foldl (fun entries pair => insert pair.1 pair.2 entries) entries).length =
      entries.length + pairs.length) :
    (pairs.Pairwise fun a b => (b.1 == a.1) = false) ∧
      ∀ pair ∈ pairs, ∀ entry ∈ entries, (pair.1 == entry.1) = false := by
  induction pairs generalizing entries with
  | nil => exact ⟨.nil, nofun⟩
  | cons pair pairs ih =>
    rw [List.foldl_cons, List.length_cons] at size
    have absent : ∀ entry ∈ entries, (pair.1 == entry.1) = false := by
      by_contra present
      have kept : (insert pair.1 pair.2 entries).length = entries.length :=
        length_insert_of_present pair.2 (by simpa using present)
      have others := length_foldl_insert_le (insert pair.1 pair.2 entries) pairs
      omega
    rw [insert_of_absent pair.2 absent] at size
    obtain ⟨distinct, apart⟩ := ih (by rw [size, List.length_append, List.length_singleton]; omega)
    refine ⟨List.pairwise_cons.mpr ⟨fun later hlater => ?_, distinct⟩, ?_⟩
    · exact apart later hlater (pair.1, pair.2) (by simp)
    · refine List.forall_mem_cons.mpr ⟨absent, fun later hlater entry hentry => ?_⟩
      exact apart later hlater entry (List.mem_append_left _ hentry)

/-- No pair is lost exactly where no key comes a second time. -/
theorem length_ofList_eq_iff {pairs : List (κ × ν)} :
    (ofList pairs).length = pairs.length ↔ pairs.Pairwise fun a b => (b.1 == a.1) = false := by
  constructor
  · intro size
    have inserted : (pairs.foldl (fun entries pair => insert pair.1 pair.2 entries) []).length =
        ([] : List (κ × ν)).length + pairs.length := by
      rw [List.length_nil, Nat.zero_add]
      exact size
    exact (distinct_of_length_foldl_insert inserted).1
  · intro distinct
    rw [ofList_of_distinct distinct]

end Insertion

section Names

variable {pairs : List (String × ν)}

theorem nodup_names_ofList (pairs : List (String × ν)) : (names (ofList pairs)).Nodup := by
  rw [names, List.nodup_iff_pairwise_ne, List.pairwise_map]
  exact (ofList_distinct pairs).imp fun h heq => by simp [heq] at h

theorem ofList_of_nodup (once : (names pairs).Nodup) : ofList pairs = pairs :=
  ofList_of_distinct
    ((List.pairwise_map.mp once).imp fun ne => beq_eq_false_iff_ne.mpr ne.symm)

theorem lookup_map {μ : Type} (f : ν → μ) (entries : List (String × ν)) (name : String) :
    (entries.map fun entry => (entry.1, f entry.2)).lookup name = (entries.lookup name).map f := by
  induction entries with
  | nil => rfl
  | cons head rest ih =>
    rw [List.map_cons, List.lookup_cons, List.lookup_cons, ih]
    cases name == head.1 <;> rfl

theorem names_insert (name : String) (value : ν) (entries : List (String × ν)) :
    names (insert name value entries) =
      if name ∈ names entries then names entries else names entries ++ [name] := by
  by_cases present : name ∈ names entries
  · rw [if_pos present]
    induction entries with
    | nil => cases present
    | cons head rest ih =>
      rw [insert]
      by_cases hname : name = head.1
      · rw [if_pos (beq_iff_eq.mpr hname)]
        rfl
      · rw [if_neg (mt beq_iff_eq.mp hname)]
        have later : name ∈ names rest := (List.mem_cons.mp present).resolve_left hname
        exact congrArg (head.1 :: ·) (ih later)
  · have absent : ∀ entry ∈ entries, (name == entry.1) = false := by
      intro entry hentry
      refine beq_false_of_ne ?_
      rintro rfl
      exact present (mem_names hentry)
    rw [if_neg present, insert_of_absent value absent, names, List.map_append]
    rfl

theorem eraseDups_of_nodup {items : List String} (once : items.Nodup) :
    items.eraseDups = items := by
  induction items with
  | nil => rfl
  | cons item items ih =>
    have apart := (List.nodup_cons.mp once).1
    rw [List.eraseDups_cons, List.filter_eq_self.mpr, ih once.of_cons]
    intro other hother
    rw [Bool.not_eq_true', beq_eq_false_iff_ne]
    rintro rfl
    exact apart hother

theorem names_foldl_insert {entries : List (String × ν)} (once : (names entries).Nodup) :
    names (pairs.foldl (fun entries pair => insert pair.1 pair.2 entries) entries) =
      (names entries ++ names pairs).eraseDups := by
  induction pairs generalizing entries with
  | nil =>
    have none : names ([] : List (String × ν)) = [] := rfl
    rw [List.foldl_nil, none, List.append_nil, eraseDups_of_nodup once]
  | cons pair pairs ih =>
    have split : names (pair :: pairs) = [pair.1] ++ names pairs := rfl
    rw [List.foldl_cons, split]
    by_cases present : pair.1 ∈ names entries
    · have kept : names (insert pair.1 pair.2 entries) = names entries := by
        rw [names_insert, if_pos present]
      rw [ih (kept ▸ once), kept, List.eraseDups_append, List.eraseDups_append]
      simp [List.removeAll, present]
    · have added : names (insert pair.1 pair.2 entries) = names entries ++ [pair.1] := by
        rw [names_insert, if_neg present]
      have still : (names entries ++ [pair.1]).Nodup := by
        refine List.nodup_append.mpr ⟨once, by simp, fun other hother last hlast => ?_⟩
        rw [List.mem_singleton.mp hlast]
        rintro rfl
        exact present hother
      rw [ih (added ▸ still), added, List.append_assoc]

/-- The names are those of the pairs, in the order in which each comes first. -/
theorem names_ofList (pairs : List (String × ν)) :
    names (ofList pairs) = (names pairs).eraseDups := by
  have none : (names ([] : List (String × ν))).Nodup := List.nodup_nil
  exact names_foldl_insert none

theorem filter_name {entries : List (String × ν)} (once : (names entries).Nodup)
    {name : String} {value : ν} (h : (name, value) ∈ entries) :
    entries.filter (fun entry => entry.1 == name) = [(name, value)] := by
  induction entries with
  | nil => cases h
  | cons head rest ih =>
    obtain ⟨apart, once⟩ := nodup_names_cons.mp once
    rw [List.filter_cons]
    rcases List.mem_cons.mp h with rfl | h
    · have others : rest.filter (fun entry => entry.1 == name) = [] := by
        rw [List.filter_eq_nil_iff]
        intro entry hentry heq
        have hname : name ∈ names rest := beq_iff_eq.mp heq ▸ mem_names hentry
        exact apart hname
      rw [if_pos (beq_self_eq_true name), others]
    · have hne : head.1 ≠ name := by
        intro heq
        have hname : name ∈ names rest := mem_names h
        exact apart (heq ▸ hname)
      rw [if_neg (mt beq_iff_eq.mp hne), ih once h]

theorem lookup_foldl_insert {name : String} {value : ν}
    (consistent : ∀ pair ∈ pairs, pair.1 = name → pair.2 = value) (entries : List (String × ν))
    (h : (name, value) ∈ pairs ∨ entries.lookup name = some value) :
    (pairs.foldl (fun entries pair => insert pair.1 pair.2 entries) entries).lookup name =
      some value := by
  induction pairs generalizing entries with
  | nil => exact h.resolve_left List.not_mem_nil
  | cons pair pairs ih =>
    rw [List.forall_mem_cons] at consistent
    apply ih consistent.2 _
    by_cases hname : pair.1 = name
    · right
      rw [← consistent.1 hname, ← hname]
      exact lookup_insert_self _ _ entries
    · rw [lookup_insert_of_ne _ entries (Ne.symm hname)]
      rcases h with h | h
      · rcases List.mem_cons.mp h with rfl | h
        · exact absurd rfl hname
        · exact Or.inl h
      · exact Or.inr h

theorem isSome_lookup_foldl_insert {name : String} (entries : List (String × ν))
    (h : name ∈ names pairs ∨ (entries.lookup name).isSome = true) :
    ((pairs.foldl (fun entries pair => insert pair.1 pair.2 entries) entries).lookup name).isSome =
      true := by
  induction pairs generalizing entries with
  | nil => exact h.resolve_left List.not_mem_nil
  | cons pair pairs ih =>
    apply ih
    by_cases hname : name = pair.1
    · right
      rw [hname, lookup_insert_self]
      rfl
    · rw [lookup_insert_of_ne _ entries hname]
      exact h.imp_left fun hmem => (List.mem_cons.mp hmem).resolve_left hname

/-- Where a name always comes with one value, the entries are the pairs, each once. -/
theorem mem_ofList_iff (consistent : ∀ a ∈ pairs, ∀ b ∈ pairs, a.1 = b.1 → a.2 = b.2)
    {entry : String × ν} : entry ∈ ofList pairs ↔ entry ∈ pairs := by
  have listed : ∀ pair ∈ pairs, (ofList pairs).lookup pair.1 = some pair.2 := fun pair hpair =>
    lookup_foldl_insert (fun other hother heq => consistent other hother pair hpair heq) []
      (Or.inl hpair)
  constructor
  · intro h
    obtain ⟨hname, -⟩ := forall_ofList (K := (· ∈ names pairs)) (V := fun _ => True)
      (fun pair hpair => ⟨mem_names hpair, trivial⟩) entry h
    obtain ⟨pair, hpair, hname⟩ := List.mem_map.mp hname
    have hvalue := lookup_of_mem (nodup_names_ofList pairs) h
    rw [← hname, listed pair hpair] at hvalue
    rw [show entry = pair from Prod.ext hname.symm (Option.some.inj hvalue).symm]
    exact hpair
  · exact fun h => mem_of_lookup (listed entry h)

end Names

section Comparison

variable {μ : Type} {as : List (String × ν)} {bs : List (String × μ)}
  {R : String × ν → String × μ → Prop}

/-- Entry lists without repeated names match when each entry has a partner of its name on the other
side. -/
theorem rearranged_of_names (ha : (names as).Nodup) (hb : (names bs).Nodup)
    (named : ∀ a ∈ as, ∀ b ∈ bs, R a b → a.1 = b.1) (forth : ∀ a ∈ as, ∃ b ∈ bs, R a b)
    (back : ∀ b ∈ bs, ∃ a ∈ as, R a b) : Rearranged R as bs := by
  have same : ∀ name, name ∈ names as ↔ name ∈ names bs := by
    intro name
    constructor
    · intro h
      obtain ⟨a, hmem, rfl⟩ := List.mem_map.mp h
      obtain ⟨b, hb, hab⟩ := forth a hmem
      exact named a hmem b hb hab ▸ mem_names hb
    · intro h
      obtain ⟨b, hmem, rfl⟩ := List.mem_map.mp h
      obtain ⟨a, ha, hab⟩ := back b hmem
      exact named a ha b hmem hab ▸ mem_names ha
  have size := ((List.perm_ext_iff_of_nodup ha hb).mpr same).length_eq
  refine Rearranged.of_partners forth ?_ (by simpa [names] using size)
  refine List.Pairwise.imp_of_mem ?_ (List.pairwise_map.mp ha)
  intro a a' hmem hmem' hne b hb hab hab'
  exact hne ((named a hmem b hb hab).trans (named a' hmem' b hb hab').symm)

theorem lookup_rel {S : ν → μ → Prop} (hb : (names bs).Nodup)
    (h : Rearranged (fun a b => a.1 = b.1 ∧ S a.2 b.2) as bs) (name : String) :
    Option.Rel S (as.lookup name) (bs.lookup name) := by
  cases found : as.lookup name with
  | some value =>
    obtain ⟨b, hmem, hname, hvalue⟩ := h.forth (mem_of_lookup found)
    have hname : name = b.1 := hname
    rw [hname, lookup_of_mem hb hmem]
    exact .some hvalue
  | none =>
    cases found' : bs.lookup name with
    | none => exact .none
    | some value =>
      obtain ⟨a, hmem, hname, -⟩ := h.back (mem_of_lookup found')
      have hname : a.1 = name := hname
      exact absurd (hname ▸ mem_names hmem) (lookup_eq_none.mp found)

theorem rearranged_of_lookup {S : ν → μ → Prop} (ha : (names as).Nodup) (hb : (names bs).Nodup)
    (h : ∀ name, Option.Rel S (as.lookup name) (bs.lookup name)) :
    Rearranged (fun a b => a.1 = b.1 ∧ S a.2 b.2) as bs := by
  refine rearranged_of_names ha hb (fun a _ b _ hab => hab.1) (fun a hmem => ?_) fun b hmem => ?_
  · have rel := h a.1
    rw [lookup_of_mem ha hmem] at rel
    cases found : bs.lookup a.1 with
    | none => rw [found] at rel; cases rel
    | some value =>
      rw [found] at rel
      cases rel with
      | some rel => exact ⟨(a.1, value), mem_of_lookup found, rfl, rel⟩
  · have rel := h b.1
    rw [lookup_of_mem hb hmem] at rel
    cases found : as.lookup b.1 with
    | none => rw [found] at rel; cases rel
    | some value =>
      rw [found] at rel
      cases rel with
      | some rel => exact ⟨(b.1, value), mem_of_lookup found, rfl, rel⟩

end Comparison

section InPlace

variable {μ : Type} [BEq κ] {S : ν → μ → Prop} {as : List (κ × ν)} {bs : List (κ × μ)}

theorem lookup_forall₂ (h : List.Forall₂ (fun a b => a.1 = b.1 ∧ S a.2 b.2) as bs) (key : κ) :
    Option.Rel S (as.lookup key) (bs.lookup key) := by
  induction h with
  | nil => exact .none
  | @cons a b as bs hab _ ih =>
    obtain ⟨name, held⟩ := a
    obtain ⟨other, held'⟩ := b
    obtain ⟨rfl, hheld⟩ := hab
    rw [List.lookup_cons, List.lookup_cons]
    cases key == name with
    | true => exact .some hheld
    | false => exact ih

theorem insert_forall₂ (h : List.Forall₂ (fun a b => a.1 = b.1 ∧ S a.2 b.2) as bs) (key : κ)
    {value : ν} {other : μ} (hvalue : S value other) :
    List.Forall₂ (fun a b => a.1 = b.1 ∧ S a.2 b.2) (insert key value as)
      (insert key other bs) := by
  induction h with
  | nil => exact .cons ⟨rfl, hvalue⟩ .nil
  | @cons a b as bs hab h ih =>
    obtain ⟨name, held⟩ := a
    obtain ⟨name', held'⟩ := b
    obtain ⟨rfl, hheld⟩ := hab
    rw [insert, insert]
    by_cases hkey : (key == name) = true
    · rw [if_pos hkey, if_pos hkey]
      exact .cons ⟨rfl, hvalue⟩ h
    · rw [if_neg hkey, if_neg hkey]
      exact .cons ⟨rfl, hheld⟩ ih

theorem ofList_forall₂ (h : List.Forall₂ (fun a b => a.1 = b.1 ∧ S a.2 b.2) as bs) :
    List.Forall₂ (fun a b => a.1 = b.1 ∧ S a.2 b.2) (ofList as) (ofList bs) := by
  suffices inv : ∀ {cs ds}, List.Forall₂ (fun a b => a.1 = b.1 ∧ S a.2 b.2) cs ds →
      List.Forall₂ (fun a b => a.1 = b.1 ∧ S a.2 b.2)
        (as.foldl (fun entries pair => insert pair.1 pair.2 entries) cs)
        (bs.foldl (fun entries pair => insert pair.1 pair.2 entries) ds) from inv .nil
  induction h with
  | nil => exact fun h => h
  | cons hab _ ih =>
    intro cs ds hcd
    rw [List.foldl_cons, List.foldl_cons, hab.1]
    exact ih (insert_forall₂ hcd _ hab.2)

end InPlace

end OptionSchema.Entries
