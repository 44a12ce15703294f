import OptionSchema.Proofs.Value.Equality
import OptionSchema.Value.Equality
/-!
# Values are keys of maps

Equality is an equivalence, mappings are compared by their entries, and what is equal is hashed
alike. Values hold every key of a mapping once, as insertion ensures. Functions are equal by
identity and hashed by name, so functions of one identity are taken to have one name.
-/
namespace OptionSchema.Value

inductive Holds (f : Fun) : Value → Prop where
  | here : Holds f (.func f)
  | inside {value part : Value} (hpart : part ∈ value.parts) (h : Holds f part) : Holds f value

/-- A function of one value and a function of the other that have one identity have one name. -/
def NamedAlike (a b : Value) : Prop :=
  ∀ f g : Fun, Holds f a → Holds g b → f.identity = g.identity → f.name = g.name

theorem NamedAlike.part {a b x y : Value} (named : NamedAlike a b) (hx : x ∈ a.parts)
    (hy : y ∈ b.parts) : NamedAlike x y := fun f g hf hg =>
  named f g (.inside hx hf) (.inside hy hg)

@[simp] theorem holds_func {f g : Fun} : Holds f (.func g) ↔ g = f := by
  constructor
  · intro h
    cases h with
    | here => rfl
    | inside hpart => cases hpart
  · rintro rfl
    exact .here

@[simp] theorem holds_list {f : Fun} {items : List Value} :
    Holds f (.list items) ↔ ∃ item ∈ items, Holds f item := by
  constructor
  · intro h
    cases h with
    | inside hpart h => exact ⟨_, hpart, h⟩
  · rintro ⟨item, hitem, h⟩
    exact .inside hitem h

@[simp] theorem holds_keywords {f : Fun} {entries : List (String × Value)} :
    Holds f (.keywords entries) ↔ ∃ entry ∈ entries, Holds f entry.2 := by
  constructor
  · intro h
    cases h with
    | inside hpart h =>
      obtain ⟨entry, hentry, rfl⟩ := List.mem_map.mp hpart
      exact ⟨entry, hentry, h⟩
  · rintro ⟨entry, hentry, h⟩
    exact .inside (mem_parts_keywords hentry) h

@[simp] theorem holds_map {f : Fun} {pairs : List (Value × Value)} :
    Holds f (.map pairs) ↔ ∃ pair ∈ pairs, Holds f pair.1 ∨ Holds f pair.2 := by
  constructor
  · intro h
    cases h with
    | inside hpart h =>
      obtain ⟨pair, hpair, hpart⟩ := List.mem_flatMap.mp hpart
      rcases List.mem_pair.mp hpart with rfl | rfl
      · exact ⟨pair, hpair, .inl h⟩
      · exact ⟨pair, hpair, .inr h⟩
  · rintro ⟨pair, hpair, h | h⟩
    · exact .inside (mem_parts_map hpair).1 h
    · exact .inside (mem_parts_map hpair).2 h

theorem not_holds_of_scalar {f : Fun} {value : Value} (scalar : value.isScalar = true) :
    ¬ Holds f value := by
  intro h
  cases h with
  | here => cases scalar
  | inside hpart _ =>
    cases value <;> first | exact absurd scalar Bool.false_ne_true | cases hpart

theorem digestAll_congr {as bs : List Value}
    (h : List.Forall₂ (fun a b => a.digest = b.digest) as bs) : digestAll as = digestAll bs := by
  induction h with
  | nil => rfl
  | cons hab _ ih => rw [digestAll, digestAll, hab, ih]

/-- Of a mapping only the size is hashed, so equal mappings need no more than equally many
entries; of a list or a tuple every item is. -/
theorem EqualByParts.digest_eq {a b : Value} (h : EqualByParts a b) (named : NamedAlike a b)
    (parts : ∀ x ∈ a.parts, ∀ y ∈ b.parts, (x == y) = true → x.digest = y.digest) :
    a.digest = b.digest := by
  cases h with
  | scalar => rfl
  | func arity identity => rw [digest, digest, named _ _ .here .here identity, arity]
  | list h =>
    rw [digest, digest, h.length_eq, digestAll_congr (forall₂_imp_mem h parts)]
  | tuple h =>
    rw [digest, digest, h.length_eq, digestAll_congr (forall₂_imp_mem h parts)]
  | keywords h => rw [digest, digest, h.length_eq]
  | map h => rw [digest, digest, h.length_eq]
  | struct h => rw [digest, digest, h.length_eq]

theorem Proper.digest_eq_of_beq {a b : Value} (ha : a.Proper) (hb : b.Proper)
    (named : NamedAlike a b) (h : (a == b) = true) : a.digest = b.digest := by
  induction a using parts_induction generalizing b with
  | step a ih =>
    refine ((ha.beq_iff hb).mp h).digest_eq named fun x hx y hy => ?_
    exact ih x hx (ha.part hx) (hb.part hy) (named.part hx hy)

section

variable {as bs : List (String × Value)} {ps qs : List (Value × Value)} {s t : String}

theorem keywords_beq_iff (ha : (Value.keywords as).Proper) (hb : (Value.keywords bs).Proper) :
    (Value.keywords as == .keywords bs) = true ↔ Rearranged EntriesEqual as bs := by
  rw [ha.beq_iff hb]
  constructor
  · intro h
    cases h with
    | scalar h => cases h
    | keywords h => exact h
  · exact .keywords

theorem map_beq_iff (ha : (Value.map ps).Proper) (hb : (Value.map qs).Proper) :
    (Value.map ps == .map qs) = true ↔ Rearranged PairsEqual ps qs := by
  rw [ha.beq_iff hb]
  constructor
  · intro h
    cases h with
    | scalar h => cases h
    | map h => exact h
  · exact .map

theorem struct_beq_iff (ha : (Value.struct s as).Proper) (hb : (Value.struct t bs).Proper) :
    (Value.struct s as == .struct t bs) = true ↔ s = t ∧ Rearranged EntriesEqual as bs := by
  rw [ha.beq_iff hb]
  constructor
  · intro h
    cases h with
    | scalar h => cases h
    | struct h => exact ⟨rfl, h⟩
  · rintro ⟨rfl, h⟩
    exact .struct h

end

/-- Equality is lawful for keys: an equivalence, under which two mappings of a kind are equal when
the entries of one are those of the other in some order, and which hashing respects. -/
theorem equality_is_lawful {a b c : Value} (ha : a.Proper) (hb : b.Proper) (hc : c.Proper) :
    (a == a) = true ∧
    ((a == b) = true → (b == a) = true) ∧
    ((a == b) = true → (b == c) = true → (a == c) = true) ∧
    (∀ as bs, a = .keywords as → b = .keywords bs →
      ((a == b) = true ↔ Rearranged EntriesEqual as bs)) ∧
    (∀ as bs, a = .map as → b = .map bs → ((a == b) = true ↔ Rearranged PairsEqual as bs)) ∧
    (∀ s as t bs, a = .struct s as → b = .struct t bs →
      ((a == b) = true ↔ s = t ∧ Rearranged EntriesEqual as bs)) ∧
    (NamedAlike a b → (a == b) = true → a.digest = b.digest) := by
  refine ⟨ha.beq_refl, ha.beq_symm hb, ha.beq_trans hb hc, ?_, ?_, ?_, ha.digest_eq_of_beq hb⟩
  · rintro as bs rfl rfl
    exact keywords_beq_iff ha hb
  · rintro as bs rfl rfl
    exact map_beq_iff ha hb
  · rintro s as t bs rfl rfl
    exact struct_beq_iff ha hb

section Routes

def alive : Fun := ⟨"alive", 1, 4⟩

def routes : Value :=
  .map [(.keywords [("host", .string "a"), ("port", .integer 80)],
      .map [(.atom "weight", .float 0), (.string "via", .null)]),
    (.string "check", .list [.func alive])]

def routesReversed : Value :=
  .map [(.string "check", .list [.func alive]),
    (.keywords [("port", .integer 80), ("host", .string "a")],
      .map [(.string "via", .null), (.atom "weight", .float 0)])]

theorem routes_proper : routes.Proper ∧ routesReversed.Proper := by
  have check : (Value.func alive).Proper := .intro trivial (by simp [parts])
  simp (disch := decide) [routes, routesReversed, Entries.Distinct, Entries.names, check,
    proper_of_scalar]
  decide

/-- Routes in either order are one key of a map: equal both ways and hashed alike. -/
theorem routes_are_one_key :
    (routes == routesReversed) = true ∧ (routesReversed == routes) = true ∧
      (routes == routes) = true ∧ routes.digest = routesReversed.digest := by
  have proper := routes_proper
  have equal : (routes == routesReversed) = true := rfl
  have named : NamedAlike routes routesReversed := by
    intro f g hf hg _
    simp (disch := decide) [routes, routesReversed, not_holds_of_scalar] at hf hg
    rw [← hf, hg]
  obtain ⟨same, back, -, -, -, -, hashed⟩ := equality_is_lawful proper.1 proper.2 proper.1
  exact ⟨equal, back equal, same, hashed named equal⟩

end Routes

end OptionSchema.Value
