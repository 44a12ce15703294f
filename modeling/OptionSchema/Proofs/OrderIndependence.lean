import OptionSchema.Proofs.Echoes
import OptionSchema.Proofs.OutputProper
import OptionSchema.Proofs.Schema.Checked
import OptionSchema.Proofs.Schema.Equality
/-!
# Order does not matter

Two runs on equal values against equal schemas are followed side by side. They go through keys and
entries in different orders and may fail at different places, but they succeed together, and then
their outputs are equal.
-/
namespace OptionSchema

/-- Equal proper values give equal results, or none. -/
def Respects (f g : Value → Option Value) : Prop :=
  ∀ a b, a.Proper → b.Proper → (a == b) = true →
    Option.Rel (fun x y => (x == y) = true) (f a) (g b)

def Validator.Agrees (validator other : Validator) : Prop :=
  Respects (fun value => (validator.call value).toOption) fun value => (other.call value).toOption

namespace Ty

variable {onward : Onward} {ty other : Ty}

theorem contains_congr {allowed allowed' : List Value} {a b : Value}
    (h : List.Forall₂ (fun x y => (x == y) = true) allowed allowed')
    (proper : ∀ value ∈ allowed, value.Proper) (proper' : ∀ value ∈ allowed', value.Proper)
    (ha : a.Proper) (hb : b.Proper) (equal : (a == b) = true) :
    allowed.contains a = allowed'.contains b := by
  rw [Bool.eq_iff_iff, List.contains_iff_exists_mem_beq, List.contains_iff_exists_mem_beq]
  constructor
  · rintro ⟨x, hx, hax⟩
    obtain ⟨y, hy, hxy⟩ := (Rearranged.of_forall₂ h).forth hx
    have hbx := hb.beq_trans ha (proper x hx) (ha.beq_symm hb equal) hax
    exact ⟨y, hy, hb.beq_trans (proper x hx) (proper' y hy) hbx hxy⟩
  · rintro ⟨y, hy, hby⟩
    obtain ⟨x, hx, hxy⟩ := (Rearranged.of_forall₂ h).back hy
    have hay := ha.beq_trans hb (proper' y hy) equal hby
    exact ⟨x, hx, ha.beq_trans (proper' y hy) (proper x hx) hay
      ((proper x hx).beq_symm (proper' y hy) hxy)⟩

theorem admits_congr (plain : ty.isPlain = true)
    (values : ∀ allowed, ty ≠ .choice (.values allowed)) {a b : Value}
    (h : Value.EqualByParts a b) : ty.admits a = ty.admits b := by
  have read := Value.entries?_rel h
  cases ty with
  | keywordList =>
    simp only [admits, Value.isKeywordList]
    generalize a.entries? = x at read
    generalize b.entries? = y at read
    cases read <;> rfl
  | nonEmptyKeywordList =>
    simp only [admits]
    generalize a.entries? = x at read
    generalize b.entries? = y at read
    cases read with
    | none => rfl
    | @some entries entries' h =>
      have size := h.length_eq
      cases entries <;> cases entries' <;> first | rfl | cases size
  | func arity =>
    cases h with
    | func harity => simp [admits, harity]
    | _ => rfl
  | choice choices =>
    cases choices with
    | values allowed => exact absurd rfl (values allowed)
    | range first last => cases h <;> rfl
  | _ => cases h <;> rfl

/-- Whatever the parts of the first type ask for has its counterpart in the second one. -/
structure Comparable (onward : Onward) (ty other : Ty) : Prop where
  proper : ∀ sub ∈ ty.subterms, sub.IsProper ∧ KeepsProper (sub.output onward)
  proper' : ∀ sub ∈ other.subterms, sub.IsProper ∧ KeepsProper (sub.output onward)
  custom : ∀ validator validator', .custom validator ∈ ty.subterms →
    .custom validator' ∈ other.subterms → (validator == validator') = true →
      validator.Agrees validator'
  mapKeys : ∀ keyTy valueTy, .mapOf keyTy valueTy ∈ ty.subterms → keyTy.Echoes
  nested : ∀ container nested container' nested', .keyed container nested ∈ ty.subterms →
    .keyed container' nested' ∈ other.subterms → nested.Alike nested' →
      Respects (onward nested) (onward nested')

theorem Comparable.part (h : Comparable onward ty other) {sub sub' : Ty} (hsub : sub ∈ ty.parts)
    (hsub' : sub' ∈ other.parts) : Comparable onward sub sub' where
  proper inner hinner := h.proper inner (subterms_of_part hsub hinner)
  proper' inner hinner := h.proper' inner (subterms_of_part hsub' hinner)
  custom v v' hv hv' := h.custom v v' (subterms_of_part hsub hv) (subterms_of_part hsub' hv')
  mapKeys k v hmap := h.mapKeys k v (subterms_of_part hsub hmap)
  nested c n c' n' hn hn' :=
    h.nested c n c' n' (subterms_of_part hsub hn) (subterms_of_part hsub' hn')

theorem Matches.parts_back {R : Nested → Nested → Prop} (h : ty.Matches R other) {sub' : Ty}
    (hsub' : sub' ∈ other.parts) : ∃ sub ∈ ty.parts, sub.Matches R sub' := by
  cases h with
  | plain plain =>
    rw [parts_of_isPlain plain] at hsub'
    cases hsub'
  | values => cases hsub'
  | custom => cases hsub'
  | @mapOf key key' value value' hkey hvalue =>
    simp only [parts, List.mem_cons, List.not_mem_nil, or_false] at hsub'
    rcases hsub' with rfl | rfl
    · exact ⟨key, by simp [parts], hkey⟩
    · exact ⟨value, by simp [parts], hvalue⟩
  | union h => exact (Rearranged.of_forall₂ h).back hsub'
  | tuple h => exact (Rearranged.of_forall₂ h).back hsub'
  | @listOf item _ h =>
    obtain rfl := List.mem_singleton.mp hsub'
    exact ⟨item, by simp [parts], h⟩
  | @keyed container _ _ _ h =>
    obtain rfl := List.mem_singleton.mp hsub'
    exact ⟨container, by simp [parts], h⟩

theorem Matches.echoes {R : Nested → Nested → Prop} (h : ty.Matches R other) (echoes : ty.Echoes) :
    other.Echoes := by
  induction other using parts_induction generalizing ty with
  | step other ih =>
    intro sub' hsub'
    rcases mem_subterms_iff.mp hsub' with rfl | ⟨part', hpart', hsub'⟩
    · have here := echoes ty (self_mem_subterms ty)
      cases h with
      | plain | custom | keyed => exact here
      | _ => trivial
    · obtain ⟨part, hpart, hmatches⟩ := h.parts_back hpart'
      exact ih part' hpart' hmatches (echoes.part hpart) sub' hsub'

theorem rel_pair {x x' y y' : Option Value} (h : Option.Rel (fun a b => (a == b) = true) x x')
    (k : Option.Rel (fun a b => (a == b) = true) y y') :
    Option.Rel Value.PairsEqual (x.bind fun key => y.map fun held => (key, held))
      (x'.bind fun key => y'.map fun held => (key, held)) :=
  rel_bind h fun _ _ _ _ hkey => rel_map k fun _ _ _ _ hheld => ⟨hkey, hheld⟩

theorem names_of_echoes {keyTy valueTy : Ty} {pairs results : List (Value × Value)}
    (echoes : keyTy.Echoes) (proper : (Value.map pairs).Proper)
    (h : (pairs.mapM fun pair => (keyTy.output onward pair.1).bind fun key =>
      (valueTy.output onward pair.2).map fun held => (key, held)) = some results) :
    Entries.names results = Entries.names pairs := by
  refine Entries.names_eq_of_forall₂ (forall₂_imp_mem (mapM_eq_some_iff.mp h).flip ?_)
  intro result _ pair hpair heq
  have hkey := (pair_eq_some.mp heq).1
  exact output_eq_of_echoes echoes (fun _ _ _ => proper.part (Value.mem_parts_map hpair).1) hkey

theorem respects_mapOf {key key' value value' : Ty}
    (keys : Respects (key.output onward) (key'.output onward))
    (values : Respects (value.output onward) (value'.output onward))
    (echoes : key.Echoes) (echoes' : key'.Echoes)
    (keeps : KeepsProper ((mapOf key value).output onward))
    (keeps' : KeepsProper ((mapOf key' value').output onward)) :
    Respects ((mapOf key value).output onward) ((mapOf key' value').output onward) := by
  intro a b ha hb equal
  cases (ha.beq_iff hb).mp equal with
  | @map as bs items =>
    have rel := items.mapM_rel fun p hp q hq heq => by
      have hparts := Value.mem_parts_map hp
      have hparts' := Value.mem_parts_map hq
      exact rel_pair (keys p.1 q.1 (ha.part hparts.1) (hb.part hparts'.1) heq.1)
        (values p.2 q.2 (ha.part hparts.2) (hb.part hparts'.2) heq.2)
    apply rel_map rel
    intro results results' hresults hresults' hrel
    have hw := keeps _ _ ha (by rw [output, hresults]; rfl)
    have hw' := keeps' _ _ hb (by rw [output, hresults']; rfl)
    rw [Value.mapOf_eq_of_names ha (names_of_echoes echoes ha hresults)] at hw ⊢
    rw [Value.mapOf_eq_of_names hb (names_of_echoes echoes' hb hresults')] at hw' ⊢
    exact (hw.beq_iff hw').mpr (.map hrel)
  | scalar h => cases a <;> first | exact .none | exact absurd h Bool.false_ne_true
  | _ => exact .none

theorem respects_listOf {item item' : Ty}
    (h : Respects (item.output onward) (item'.output onward)) :
    Respects ((listOf item).output onward) ((listOf item').output onward) := by
  intro a b ha hb equal
  cases (ha.beq_iff hb).mp equal with
  | @list as bs items =>
    have rel : Option.Rel (List.Forall₂ fun x y => (x == y) = true)
        (as.mapM (item.output onward)) (bs.mapM (item'.output onward)) :=
      mapM_rel items fun x hx y hy heq => h x y (ha.part hx) (hb.part hy) heq
    exact rel_map rel fun _ _ _ _ hrel => Value.beqAll_iff.mpr hrel
  | scalar h => cases a <;> first | exact .none | exact absurd h Bool.false_ne_true
  | _ => exact .none

theorem respects_tuple {types types' : List Ty}
    (h : List.Forall₂ (fun ty ty' => Respects (ty.output onward) (ty'.output onward))
      types types') :
    Respects ((tuple types).output onward) ((tuple types').output onward) := by
  intro a b ha hb equal
  cases (ha.beq_iff hb).mp equal with
  | @tuple as bs items =>
    rw [output, output, h.length_eq, items.length_eq]
    split
    · rw [outputEach_eq_mapM, outputEach_eq_mapM]
      have rel : Option.Rel (List.Forall₂ fun x y => (x == y) = true)
          ((types.zip as).mapM fun part => part.1.output onward part.2)
          ((types'.zip bs).mapM fun part => part.1.output onward part.2) :=
        mapM_rel (zip_forall₂ h items) fun p hp q hq heq => heq.1 p.2 q.2
          (ha.part (List.of_mem_zip hp).2) (hb.part (List.of_mem_zip hq).2) heq.2
      exact rel_map rel fun _ _ _ _ hrel => Value.beqAll_iff.mpr hrel
    · exact .none
  | scalar h => cases a <;> first | exact .none | exact absurd h Bool.false_ne_true
  | _ => exact .none

theorem respects_union {types types' : List Ty}
    (h : List.Forall₂ (fun ty ty' => Respects (ty.output onward) (ty'.output onward))
      types types') :
    Respects ((union types).output onward) ((union types').output onward) := by
  intro a b ha hb equal
  rw [output, output, outputAny_eq_findSome?, outputAny_eq_findSome?]
  exact findSome?_rel h fun ty _ ty' _ heq => heq a b ha hb equal

theorem output_respects (same : ty.Matches Nested.Alike other) (h : Comparable onward ty other) :
    Respects (ty.output onward) (other.output onward) := by
  induction ty using parts_induction generalizing other with
  | step ty ih =>
    have here := h.proper ty (self_mem_subterms ty)
    have here' := h.proper' other (self_mem_subterms other)
    cases same with
    | plain plain values =>
      intro a b ha hb equal
      rw [output_of_isPlain plain, output_of_isPlain plain,
        admits_congr plain values ((ha.beq_iff hb).mp equal)]
      split
      · exact .some equal
      · exact .none
    | @values allowed allowed' items =>
      intro a b ha hb equal
      rw [output_of_isPlain rfl, output_of_isPlain rfl]
      have admits : (choice (.values allowed)).admits a = (choice (.values allowed')).admits b :=
        contains_congr items here.1 here'.1 ha hb equal
      rw [admits]
      split
      · exact .some equal
      · exact .none
    | mapOf hkey hvalue =>
      have echoes := h.mapKeys _ _ (self_mem_subterms _)
      have keys := ih _ (by simp [parts]) hkey (h.part (by simp [parts]) (by simp [parts]))
      have values := ih _ (by simp [parts]) hvalue (h.part (by simp [parts]) (by simp [parts]))
      exact respects_mapOf keys values echoes (hkey.echoes echoes) here.2 here'.2
    | custom heq => exact h.custom _ _ (self_mem_subterms _) (self_mem_subterms _) heq
    | union items =>
      exact respects_union (forall₂_imp_mem items fun _ hx _ hy hxy => ih _ hx hxy (h.part hx hy))
    | listOf hitem =>
      have items := ih _ (by simp [parts]) hitem (h.part (by simp [parts]) (by simp [parts]))
      exact respects_listOf items
    | tuple items =>
      exact respects_tuple (forall₂_imp_mem items fun _ hx _ hy hxy => ih _ hx hxy (h.part hx hy))
    | @keyed container container' nested nested' hcontainer hnested =>
      intro a b ha hb equal
      have below : Comparable onward container container' :=
        h.part (by simp [parts]) (by simp [parts])
      have inner := ih container (by simp [parts]) hcontainer below
      apply rel_bind (inner a b ha hb equal)
      intro x y hx hy hxy
      have keeps := (below.proper container (self_mem_subterms _)).2
      have keeps' := (below.proper' container' (self_mem_subterms _)).2
      exact h.nested _ _ _ _ (self_mem_subterms _) (self_mem_subterms _) hnested x y
        (keeps a x ha hx) (keeps' b y hb hy) hxy

end Ty

theorem KeySpec.output_respects {onward : Onward} {spec other : KeySpec}
    (same : spec.Matches Nested.Alike other)
    (ty : Respects (spec.ty.output onward) (other.ty.output onward))
    (keeps : KeepsProper (spec.ty.output onward)) (keeps' : KeepsProper (other.ty.output onward))
    (nested : ∀ nested nested', spec.nested = some nested → other.nested = some nested' →
      nested.Alike nested' → Respects (onward nested) (onward nested')) :
    Respects (spec.output onward) (other.output onward) := by
  intro a b ha hb equal
  apply rel_bind (ty a b ha hb equal)
  intro x y hx hy hxy
  have alike := same.nested
  cases hnested : spec.nested with
  | none =>
    cases hnested' : other.nested with
    | none => exact .some hxy
    | some nested' => rw [hnested, hnested'] at alike; cases alike
  | some inner =>
    cases hnested' : other.nested with
    | none => rw [hnested, hnested'] at alike; cases alike
    | some inner' =>
      rw [hnested, hnested'] at alike
      cases alike with
      | some alike =>
        exact nested inner inner' hnested hnested' alike x y (keeps a x ha hx) (keeps' b y hb hy)
          hxy

theorem KeySpec.candidate?_rel {input input' : List (String × Value)} {name : String}
    {spec other : KeySpec} (same : spec.Matches Nested.Alike other)
    (equal : Option.Rel (fun x y => (x == y) = true) (input.lookup name) (input'.lookup name)) :
    Option.Rel (Option.Rel fun x y => (x == y) = true) (candidate? input name spec)
      (candidate? input' name other) := by
  rw [candidate?, candidate?, same.required]
  generalize input.lookup name = x at equal
  generalize input'.lookup name = y at equal
  cases equal with
  | some h => exact .some (.some h)
  | none =>
    by_cases required : other.required = true
    · simp only [if_pos required]
      exact .none
    · simp only [if_neg required]
      exact .some same.default

theorem KeySpec.contribution_rel {onward : Onward} {input input' : List (String × Value)}
    {name : String} {spec other : KeySpec} (same : spec.Matches Nested.Alike other)
    (respects : Respects (spec.output onward) (other.output onward))
    (defaults : ∀ value ∈ spec.default, value.Proper)
    (defaults' : ∀ value ∈ other.default, value.Proper)
    (hinput : ∀ entry ∈ input, entry.2.Proper) (hinput' : ∀ entry ∈ input', entry.2.Proper)
    (equal : Option.Rel (fun x y => (x == y) = true) (input.lookup name) (input'.lookup name)) :
    Option.Rel (Option.Rel Value.EntriesEqual) (contribution onward input (name, spec))
      (contribution onward input' (name, other)) := by
  refine rel_bind (candidate?_rel same equal) fun x y hx hy hxy => ?_
  cases hxy with
  | none => exact .some .none
  | @some value value' hvalues =>
    have proper := candidate?_proper hinput defaults hx
    have proper' := candidate?_proper hinput' defaults' hy
    exact rel_map (respects value value' proper proper' hvalues) fun _ _ _ _ h => .some ⟨rfl, h⟩

namespace Schema

variable {onward : Onward} {schema other : Schema} {input input' : List (String × Value)}

theorem specFor?_rel (once : other.names.Nodup) (same : schema.Matches Nested.Alike other)
    (name : String) :
    Option.Rel (KeySpec.Matches Nested.Alike) (schema.specFor? name) (other.specFor? name) := by
  rw [specFor?, specFor?]
  have own : Option.Rel _ (schema.find? name) (other.find? name) :=
    Entries.lookup_rel once same name
  generalize schema.find? name = x at own
  generalize other.find? name = y at own
  cases own with
  | some h => exact .some h
  | none => exact Entries.lookup_rel once same wildcardName

/-- Expanded for the same names, equal levels stay equal. -/
theorem expand_matches (once : schema.names.Nodup) (once' : other.names.Nodup)
    (same : schema.Matches Nested.Alike other) {observed observed' : List String}
    (names : ∀ name, name ∈ observed ↔ name ∈ observed') :
    (schema.expand observed).Matches Nested.Alike (other.expand observed') := by
  apply Entries.rearranged_of_lookup (nodup_names_expand once _) (nodup_names_expand once' _)
  intro name
  change Option.Rel _ ((schema.expand observed).find? name) ((other.expand observed').find? name)
  rw [find?_expand once, find?_expand once']
  by_cases hname : name ∈ observed
  · rw [if_pos hname, if_pos ((names name).mp hname)]
    exact specFor?_rel once' same name
  · rw [if_neg hname, if_neg fun h => hname ((names name).mpr h)]
    by_cases hwild : name = wildcardName
    · rw [if_pos hwild, if_pos hwild]
      exact .none
    · rw [if_neg hwild, if_neg hwild]
      exact Entries.lookup_rel once' same name

theorem outputEntries_rel (proper : schema.Proper) (proper' : other.Proper)
    (same : schema.Matches Nested.Alike other)
    (specs : ∀ own spec own' spec', (own, spec) ∈ schema.keys → (own', spec') ∈ other.keys →
      spec.Matches Nested.Alike spec' → Respects (spec.output onward) (spec'.output onward))
    (hinput : ∀ entry ∈ input, entry.2.Proper) (hinput' : ∀ entry ∈ input', entry.2.Proper)
    (nodup' : (Entries.names input').Nodup) (items : Rearranged Value.EntriesEqual input input') :
    Option.Rel (Rearranged Value.EntriesEqual) (schema.outputEntries onward input)
      (other.outputEntries onward input') := by
  have names : ∀ name, name ∈ Entries.names input ↔ name ∈ Entries.names input' := fun _ =>
    (Value.names_perm items).mem_iff
  have declared : (schema.expand (Entries.names input)).undeclared (Entries.names input) = [] ↔
      (other.expand (Entries.names input')).undeclared (Entries.names input') = [] := by
    rw [undeclared_expand_eq_nil proper.names, undeclared_expand_eq_nil proper'.names]
    refine forall_congr' fun name => imp_congr (names name) ?_
    have rel := specFor?_rel proper'.names same name
    generalize schema.specFor? name = x at rel
    generalize other.specFor? name = y at rel
    cases rel <;> rfl
  have contributions : Option.Rel (Rearranged (Option.Rel Value.EntriesEqual))
      ((schema.expand (Entries.names input)).keys.mapM (KeySpec.contribution onward input))
      ((other.expand (Entries.names input')).keys.mapM (KeySpec.contribution onward input')) := by
    refine (expand_matches proper.names proper'.names same names).mapM_rel ?_
    rintro ⟨name, spec⟩ hmem ⟨name', spec'⟩ hmem' ⟨hname, hmatches⟩
    obtain rfl : name = name' := hname
    obtain ⟨own, hown⟩ := mem_of_mem_expand hmem
    obtain ⟨own', hown'⟩ := mem_of_mem_expand hmem'
    exact KeySpec.contribution_rel hmatches (specs own spec own' spec' hown hown' hmatches)
      (proper.defaults _ hown) (proper'.defaults _ hown') hinput hinput'
      (Entries.lookup_rel nodup' items name)
  rw [outputEntries, outputEntries]
  by_cases h : (schema.expand (Entries.names input)).undeclared (Entries.names input) = []
  · rw [if_pos h, if_pos (declared.mp h)]
    exact rel_map contributions fun _ _ _ _ hrel => hrel.filterMap_id
  · rw [if_neg h, if_neg fun h' => h (declared.mpr h')]
    exact .none

theorem outputMapping_respects (proper : schema.Proper) (proper' : other.Proper)
    (same : schema.Matches Nested.Alike other)
    (specs : ∀ own spec own' spec', (own, spec) ∈ schema.keys → (own', spec') ∈ other.keys →
      spec.Matches Nested.Alike spec' → Respects (spec.output onward) (spec'.output onward))
    (keeps : KeepsProper (schema.outputMapping onward))
    (keeps' : KeepsProper (other.outputMapping onward)) :
    Respects (schema.outputMapping onward) (other.outputMapping onward) := by
  intro a b ha hb equal
  cases (ha.beq_iff hb).mp equal with
  | @keywords as bs items =>
    have rel := outputEntries_rel proper proper' same specs (Value.entries?_proper ha rfl)
      (Value.entries?_proper hb rfl) hb.distinct items
    apply rel_map rel
    intro output output' hout hout' hrel
    have hw := keeps _ _ ha (by rw [outputMapping, hout]; rfl)
    have hw' := keeps' _ _ hb (by rw [outputMapping, hout']; rfl)
    exact (hw.beq_iff hw').mpr (.keywords hrel)
  | @map as bs items =>
    refine rel_bind (Value.namedEntries?_rel items) fun read read' hread hread' hitems => ?_
    have nodup' := (Value.namedEntries?_eq_some_iff.mp hread').2
    have rel := outputEntries_rel proper proper' same specs (Value.entries?_proper ha hread)
      (Value.entries?_proper hb hread') nodup' hitems
    apply rel_map rel
    intro output output' hout hout' hrel
    have hw := keeps _ _ ha (by rw [outputMapping, hread, Option.bind_some, hout]; rfl)
    have hw' := keeps' _ _ hb (by rw [outputMapping, hread', Option.bind_some, hout']; rfl)
    refine (hw.beq_iff hw').mpr (.map (hrel.map fun entry _ entry' _ heq => ⟨?_, heq.2⟩))
    change (restoredKey as entry.1 == restoredKey bs entry'.1) = true
    rw [heq.1]
    exact restoredKey_beq items hread hread' entry'.1
  | scalar h => cases a <;> first | exact .none | exact absurd h Bool.false_ne_true
  | _ => exact .none

theorem outputNested_respects
    (h : Respects (schema.outputMapping onward) (other.outputMapping onward)) :
    Respects (schema.outputNested onward) (other.outputNested onward) := by
  intro a b ha hb equal
  have whole := h a b ha hb equal
  cases (ha.beq_iff hb).mp equal with
  | @list as bs items =>
    have rel : Option.Rel (List.Forall₂ fun x y => (x == y) = true)
        (as.mapM (schema.outputMapping onward)) (bs.mapM (other.outputMapping onward)) :=
      mapM_rel items fun x hx y hy heq => h x y (ha.part hx) (hb.part hy) heq
    exact rel_map rel fun _ _ _ _ hrel => Value.beqAll_iff.mpr hrel
  | scalar h => cases a <;> first | exact .none | exact absurd h Bool.false_ne_true
  | _ => exact whole

def Uses (resolve : Resolver) (schema : Schema) (validator : Validator) : Prop :=
  ∃ level, schema.Reaches resolve level ∧ .custom validator ∈ level.types

structure Comparable (resolve : Resolver) (schema other : Schema) : Prop where
  proper : schema.EveryLevel resolve Schema.Proper
  proper' : other.EveryLevel resolve Schema.Proper
  mapKeys : schema.EveryLevel resolve fun level => ∀ keyTy valueTy,
    .mapOf keyTy valueTy ∈ level.types → keyTy.Echoes
  custom : ∀ validator validator', schema.Uses resolve validator → other.Uses resolve validator' →
    (validator == validator') = true → validator.Agrees validator'

theorem Comparable.nested {resolve : Resolver} (h : Comparable resolve schema other)
    {inner inner' : Nested} {next next' : Schema} (mention : schema.Mentions inner)
    (mention' : other.Mentions inner') (resolved : resolve inner = some next)
    (resolved' : resolve inner' = some next') : Comparable resolve next next' where
  proper := h.proper.nested mention resolved
  proper' := h.proper'.nested mention' resolved'
  mapKeys := h.mapKeys.nested mention resolved
  custom := by
    rintro v v' ⟨level, reached, hv⟩ ⟨level', reached', hv'⟩
    exact h.custom v v' ⟨level, .step mention resolved reached, hv⟩
      ⟨level', .step mention' resolved' reached', hv'⟩

/-- A level respects equality, if the schemas nested in it do. -/
theorem Comparable.outputMapping_respects {resolve : Resolver} (h : Comparable resolve schema other)
    (same : schema.Alike other)
    (keeps : ∀ inner, schema.Mentions inner → KeepsProper (onward inner))
    (keeps' : ∀ inner, other.Mentions inner → KeepsProper (onward inner))
    (nested : ∀ inner inner', schema.Mentions inner → other.Mentions inner' →
      inner.Alike inner' → Respects (onward inner) (onward inner')) :
    Respects (schema.outputMapping onward) (other.outputMapping onward) := by
  have proper := h.proper.self
  have proper' := h.proper'.self
  have parts : ∀ {level : Schema} {own : String} {spec : KeySpec}, level.Proper →
      (∀ inner, level.Mentions inner → KeepsProper (onward inner)) → (own, spec) ∈ level.keys →
        ∀ sub ∈ spec.ty.subterms, sub.IsProper ∧ KeepsProper (sub.output onward) := by
    intro level own spec hlevel hkeeps hmem sub hsub
    have types : ∀ {inner}, inner ∈ sub.subterms → inner ∈ level.types := fun hinner =>
      mem_types hmem (Ty.subterms_trans hsub hinner)
    refine ⟨hlevel.types sub (mem_types hmem hsub), Ty.output_proper ?_ ?_⟩
    · intro inner hinner
      exact hlevel.types inner (types hinner)
    · intro container inner hinner
      exact hkeeps inner (.type (types hinner))
  refine Schema.outputMapping_respects proper proper' (same.matches proper) ?_
    (outputMapping_proper proper keeps) (outputMapping_proper proper' keeps')
  intro own spec own' spec' hmem hmem' hmatches
  have comparable : Ty.Comparable onward spec.ty spec'.ty := by
    refine ⟨parts proper keeps hmem, parts proper' keeps' hmem', ?_, ?_, ?_⟩
    · intro v v' hv hv'
      exact h.custom v v' ⟨schema, .refl schema, mem_types hmem hv⟩
        ⟨other, .refl other, mem_types hmem' hv'⟩
    · intro keyTy valueTy hmap
      exact h.mapKeys.self keyTy valueTy (mem_types hmem hmap)
    · intro _ inner _ inner' hinner hinner'
      exact nested inner inner'
        (.type (mem_types hmem hinner)) (.type (mem_types hmem' hinner'))
  refine KeySpec.output_respects hmatches (Ty.output_respects hmatches.ty comparable)
    (parts proper keeps hmem _ (Ty.self_mem_subterms _)).2
    (parts proper' keeps' hmem' _ (Ty.self_mem_subterms _)).2 ?_
  exact fun inner inner' hinner hinner' =>
    nested inner inner' (.key hmem hinner) (.key hmem' hinner')

end Schema

theorem Nested.output_respects {ctx : Context} {producers : Producers} (levels : Nat)
    {nested other : Nested} (alike : nested.Alike other)
    (comparable : ∀ next next', ctx.resolver producers nested = some next →
      ctx.resolver producers other = some next' →
        Schema.Comparable (ctx.resolver producers) next next') :
    Respects (Nested.output (ctx.resolver producers) levels nested)
      (Nested.output (ctx.resolver producers) levels other) := by
  induction levels generalizing nested other with
  | zero => exact fun _ _ _ _ _ => .none
  | succ levels ih =>
    intro a b ha hb equal
    apply rel_bind alike.resolve
    intro next next' resolved resolved' same
    have here := comparable next next' resolved resolved'
    refine Schema.outputNested_respects (here.outputMapping_respects same ?_ ?_ ?_) a b ha hb equal
    · exact fun inner mention =>
        Nested.output_proper levels fun _ resolved => here.proper.nested mention resolved
    · exact fun inner mention =>
        Nested.output_proper levels fun _ resolved => here.proper'.nested mention resolved
    · exact fun inner inner' mention mention' alike =>
        ih alike fun _ _ resolved resolved' => here.nested mention mention' resolved resolved'

/-- Equal schemas accept equal values alike, and return equal values for them. -/
theorem validate_respects_equality (producers : Producers) (ctx : Context) {schema other : Schema}
    {value value' : Value} (same : (schema == other) = true) (equal : (value == value') = true)
    (proper : value.Proper) (proper' : value'.Proper)
    (levels : schema.EveryLevel (ctx.resolver producers) Schema.Proper)
    (levels' : other.EveryLevel (ctx.resolver producers) Schema.Proper)
    (mapKeys : schema.EveryLevel (ctx.resolver producers) fun level => ∀ keyTy valueTy,
      .mapOf keyTy valueTy ∈ level.types → keyTy.Echoes)
    (agree : ∀ validator validator', schema.Uses (ctx.resolver producers) validator →
      other.Uses (ctx.resolver producers) validator' → (validator == validator') = true →
        validator.Agrees validator') :
    ((∃ output, (schema.validate producers value ctx).outcome = .ok output) ↔
      ∃ output', (other.validate producers value' ctx).outcome = .ok output') ∧
    ∀ output output', (schema.validate producers value ctx).outcome = .ok output →
      (other.validate producers value' ctx).outcome = .ok output' → (output == output') = true := by
  have top : Schema.Comparable (ctx.resolver producers) schema other :=
    ⟨levels, levels', mapKeys, agree⟩
  have rel : Option.Rel (fun x y => (x == y) = true)
      (schema.output (ctx.resolver producers) ctx.remaining value)
      (other.output (ctx.resolver producers) ctx.remaining value') := by
    refine top.outputMapping_respects (Or.inr same) ?_ ?_ ?_ value value' proper proper' equal
    · exact fun inner mention =>
        Nested.output_proper ctx.remaining fun _ resolved => levels.nested mention resolved
    · exact fun inner mention =>
        Nested.output_proper ctx.remaining fun _ resolved => levels'.nested mention resolved
    · intro inner inner' mention mention' alike
      exact Nested.output_respects ctx.remaining alike
        fun _ _ resolved resolved' => top.nested mention mention' resolved resolved'
  simp only [← Run.result?_eq_some, Schema.result?_validate]
  generalize schema.output (ctx.resolver producers) ctx.remaining value = x at rel
  generalize other.output (ctx.resolver producers) ctx.remaining value' = y at rel
  cases rel with
  | none => simp
  | some rel =>
    refine ⟨⟨fun _ => ⟨_, rfl⟩, fun _ => ⟨_, rfl⟩⟩, ?_⟩
    rintro output output' houtput houtput'
    rw [← Option.some.inj houtput, ← Option.some.inj houtput']
    exact rel

/-- Neither the declaration order nor the order of the entries counts. -/
theorem client_reordered :
    let reversed : Schema := ⟨Schema.clientSchema.keys.reverse⟩
    ∃ output output',
      (Schema.clientSchema.validate (fun _ => .empty)
        (.keywords [("retry", .keywords []), ("name", .string "a")]) {}).outcome = .ok output ∧
      (reversed.validate (fun _ => .empty)
        (.keywords [("name", .string "a"), ("retry", .keywords [])]) {}).outcome = .ok output' ∧
      (output == output') = true := by
  have inline : ∀ schema, Context.resolver {} (fun _ => .empty) (.inline schema) = some schema :=
    fun _ => rfl
  have levels := Schema.clientSchema_proper inline
  have levels' : (Schema.mk Schema.clientSchema.keys.reverse).EveryLevel
      (Context.resolver {} fun _ => .empty) Schema.Proper := by
    refine .of_mentions ⟨by decide, ?_, ?_⟩ fun nested next mention resolved => ?_
    · simp [Schema.clientSchema]
    · simp [Schema.clientSchema, Schema.types, Ty.subterms, Ty.subtermsOfAll, Ty.IsProper]
    · exact levels.nested (mention.perm (List.reverse_perm _)) resolved
  have custom : Schema.clientSchema.EveryLevel (Context.resolver {} fun _ => .empty)
      fun level => ∀ validator, .custom validator ∉ level.types := by
    refine Schema.clientSchema_everyLevel inline ?_ ?_ <;>
      simp [Schema.clientSchema, Schema.retrySchema, Schema.types, Ty.subterms, Ty.subtermsOfAll]
  have mapKeys : Schema.clientSchema.EveryLevel (Context.resolver {} fun _ => .empty)
      fun level => ∀ keyTy valueTy, .mapOf keyTy valueTy ∈ level.types → keyTy.Echoes := by
    refine Schema.clientSchema_everyLevel inline ?_ ?_ <;>
      simp [Schema.clientSchema, Schema.retrySchema, Schema.types, Ty.subterms, Ty.subtermsOfAll]
  have same : (Schema.clientSchema == ⟨Schema.clientSchema.keys.reverse⟩) = true := by decide
  have equal : (Value.keywords [("retry", .keywords []), ("name", .string "a")] ==
      .keywords [("name", .string "a"), ("retry", .keywords [])]) = true := by decide
  refine ⟨_, _, rfl, rfl, (validate_respects_equality (fun _ => .empty) {} same equal
    (by simp [Entries.names]) (by simp [Entries.names]) levels levels' mapKeys ?_).2 _ _ rfl rfl⟩
  rintro validator - ⟨level, reached, h⟩
  exact absurd h (custom level reached validator)

end OptionSchema
