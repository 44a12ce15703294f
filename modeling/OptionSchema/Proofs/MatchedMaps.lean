import OptionSchema.Proofs.Echoes
import OptionSchema.Proofs.Schema.Checked
/-!
# The entries of a map that matches a map type

Keys and values are matched pair by pair, and the map is rebuilt from what they are matched as. A
key type may change its keys: a validator can, and so can the defaults of a nested schema. Where two
keys are matched as equal ones, the later value replaces the earlier, and nothing reports it.
-/
namespace OptionSchema

theorem Run.traverse_eq_ok {ε α β : Type} {f : α → Run ε β} {items : List α} {results : List β}
    (h : (traverse f items).outcome = .ok results) :
    List.Forall₂ (fun item result => (f item).outcome = .ok result) items results := by
  have mapped : items.mapM (fun item => (f item).result?) = some results := by
    rw [← result?_traverse fun _ _ => rfl]
    exact result?_eq_some.mpr h
  exact (mapM_eq_some_iff.mp mapped).imp fun _ _ => result?_eq_some.mp

namespace Ty

/-- Each entry is the pair at its position, matched key and matched value. -/
def MatchesPairs (enter : Enter) (keyTy valueTy : Ty) (ctx : Context) :
    List (Value × Value) → List (Value × Value) → Prop :=
  List.Forall₂ fun pair entry =>
    (keyTy.check enter .mapKey pair.1 ctx).outcome = .ok entry.1 ∧
      (valueTy.check enter (.mapValue entry.1) pair.2 ctx).outcome = .ok entry.2

variable {enter : Enter} {keyTy valueTy : Ty} {place : Place} {pairs entries : List (Value × Value)}
  {ctx : Context} {result : Value}

theorem check_mapOf_eq_ok
    (matched : ((mapOf keyTy valueTy).check enter place (.map pairs) ctx).outcome = .ok result) :
    ∃ entries, MatchesPairs enter keyTy valueTy (ctx.step place.segment) pairs entries ∧
      result = Value.mapOf entries := by
  rw [check, ← Run.result?_eq_some, Run.result?_map, Run.result?_mapError] at matched
  obtain ⟨entries, collected, rfl⟩ := Option.map_eq_some_iff.mp matched
  refine ⟨entries, ?_, rfl⟩
  refine (Run.traverse_eq_ok (Run.result?_eq_some.mp collected)).imp fun pair entry h => ?_
  rw [← Run.result?_eq_some, Run.result?_bind, Option.bind_eq_some_iff] at h
  obtain ⟨key, hkey, h⟩ := h
  rw [Run.result?_bind, Option.bind_eq_some_iff] at h
  obtain ⟨held, hheld, h⟩ := h
  obtain rfl := Option.some.inj h
  exact ⟨Run.result?_eq_some.mp hkey, Run.result?_eq_some.mp hheld⟩

theorem MatchesPairs.names_eq {producers : Producers} {levels : Nat} (echoes : keyTy.Echoes)
    (proper : (Value.map pairs).Proper)
    (h : MatchesPairs (Nested.enterWithin producers levels) keyTy valueTy ctx pairs entries) :
    Entries.names entries = Entries.names pairs := by
  have returns := Nested.returns_enterWithin producers ctx levels
  refine (Entries.names_eq_of_forall₂ (forall₂_imp_mem h fun pair hpair entry _ hentry => ?_)).symm
  have output : keyTy.output (Nested.output (ctx.resolver producers) levels) pair.1 =
      some entry.1 := by
    rw [← result?_check returns keyTy .mapKey pair.1 ctx rfl]
    exact Run.result?_eq_some.mpr hentry.1
  have hkey : pair.1.Proper := proper.part (Value.mem_parts_map hpair).1
  exact (output_eq_of_echoes echoes (fun _ _ _ => hkey) output).symm

end Ty

/-- A map is rebuilt from all of its matched pairs, in their order. It has lost none of them exactly
where no matched key equals an earlier one; then its entries are the matched pairs. Key types
without validators and nested schemas lose nothing. -/
theorem matched_pairs_collected (producers : Producers) (levels : Nat) (keyTy valueTy : Ty)
    (place : Place) (pairs : List (Value × Value)) (ctx : Context) (result : Value)
    (matched : ((Ty.mapOf keyTy valueTy).check (Nested.enterWithin producers levels) place
      (.map pairs) ctx).outcome = .ok result) :
    ∃ entries collected, Ty.MatchesPairs (Nested.enterWithin producers levels) keyTy valueTy
        (ctx.step place.segment) pairs entries ∧
      result = .map collected ∧ collected = Entries.ofList entries ∧
      (collected.length = pairs.length ↔
        entries.Pairwise fun earlier later => (later.1 == earlier.1) = false) ∧
      (collected.length = pairs.length → collected = entries) ∧
      (keyTy.Echoes → (Value.map pairs).Proper →
        collected = entries ∧ Entries.names entries = Entries.names pairs) := by
  obtain ⟨entries, each, rfl⟩ := Ty.check_mapOf_eq_ok matched
  have size : pairs.length = entries.length := each.length_eq
  have complete : (Entries.ofList entries).length = pairs.length ↔
      entries.Pairwise fun earlier later => (later.1 == earlier.1) = false := by
    rw [size]
    exact Entries.length_ofList_eq_iff
  refine ⟨entries, _, each, rfl, rfl, complete, fun kept => ?_, fun echoes proper => ?_⟩
  · exact Entries.ofList_of_distinct (complete.mp kept)
  · have names := each.names_eq echoes proper
    exact ⟨Value.map.inj (Value.mapOf_eq_of_names proper names), names⟩

section Weights

def endpointSchema : Schema :=
  ⟨[("host", { ty := .string, required := true }),
    ("port", { ty := .posInteger, default := some (.integer 80) })]⟩

def weightsTy : Ty := .mapOf (.union [.keyed .keywordList (.inline endpointSchema)]) .posInteger

def weightsSchema : Schema := ⟨[("weights", { ty := weightsTy })]⟩

def host (name : String) : Value := .keywords [("host", .string name)]

def hostAt (name : String) (port : Int64) : Value :=
  .keywords [("host", .string name), ("port", .integer port)]

/-- The port that is filled in for one endpoint is not that of the other. -/
theorem weights_collected :
    let pairs := [(host "a", .integer 1), (hostAt "a" 8080, .integer 2)]
    ∃ entries collected, Ty.MatchesPairs (Nested.enterWithin (fun _ => .empty) 1)
        (.union [.keyed .keywordList (.inline endpointSchema)]) .posInteger
        (Context.new.step (.key "weights")) pairs entries ∧
      Value.map [(hostAt "a" 80, .integer 1), (hostAt "a" 8080, .integer 2)] = .map collected ∧
      collected = entries := by
  intro pairs
  have matched : (weightsTy.check (Nested.enterWithin (fun _ => .empty) 1) (.key "weights")
      (.map pairs) .new).outcome = .ok (.map [(hostAt "a" 80, .integer 1),
        (hostAt "a" 8080, .integer 2)]) := rfl
  obtain ⟨entries, collected, each, result, -, -, kept, -⟩ :=
    matched_pairs_collected (fun _ => .empty) 1 _ _ (.key "weights") pairs .new _ matched
  refine ⟨entries, collected, each, result, kept ?_⟩
  rw [← Value.map.inj result]
  rfl

/-- The port that is filled in for the first endpoint makes it equal to the second, whose weight
replaces the first. -/
theorem filled_keys_collide : ¬ ∀ (producers : Producers) (levels : Nat) (keyTy valueTy : Ty)
    (place : Place) (pairs : List (Value × Value)) (ctx : Context) (schema : Schema)
    (result : Value), (Value.map pairs).Proper → schema.Passes producers →
      .mapOf keyTy valueTy ∈ schema.types →
      ((Ty.mapOf keyTy valueTy).check (Nested.enterWithin producers levels) place (.map pairs)
        ctx).outcome = .ok result →
      ∃ entries, result = .map entries ∧ Ty.MatchesPairs (Nested.enterWithin producers levels)
        keyTy valueTy (ctx.step place.segment) pairs entries := by
  intro claim
  have distinct : Entries.Distinct
      [(host "a", Value.integer 1), (hostAt "a" 80, Value.integer 2)] := List.pairwise_pair.mpr rfl
  have proper : (Value.map [(host "a", .integer 1), (hostAt "a" 80, .integer 2)]).Proper :=
    Value.proper_map.mpr ⟨distinct, by simp [host, hostAt, Entries.names]⟩
  have weights : weightsTy ∈ weightsSchema.types :=
    Schema.mem_types (List.mem_singleton.mpr rfl) (Ty.self_mem_subterms weightsTy)
  obtain ⟨entries, result, each⟩ := claim (fun _ => .empty) 1 _ _ (.key "weights") _ .new
    weightsSchema (.map [(hostAt "a" 80, .integer 2)]) proper rfl weights rfl
  obtain rfl := Value.map.inj result
  exact absurd each.length_eq (by decide)

end Weights

end OptionSchema
