import OptionSchema.Proofs.Rearrangement
import OptionSchema.Log

/-!
# The results of runs

The value of a run is computed apart from its journal and its errors. A property of the result that
depends on which levels the run has entered is composed along the run.
-/
namespace OptionSchema.Run

variable {ε δ α β : Type}

def result? (run : Run ε α) : Option α := run.outcome.toOption

theorem result?_eq_some {run : Run ε α} {value : α} :
    run.result? = some value ↔ run.outcome = .ok value := by
  obtain ⟨outcome, journal⟩ := run
  cases outcome <;> simp [result?, Except.toOption]

@[simp] theorem result?_succeed (value : α) : (succeed value : Run ε α).result? = some value := rfl

@[simp] theorem result?_ofExcept (outcome : Except ε α) :
    (ofExcept outcome).result? = outcome.toOption := rfl

@[simp] theorem result?_bind (run : Run ε α) (next : α → Run ε β) :
    (run >>= next).result? = run.result?.bind fun value => (next value).result? := by
  obtain ⟨outcome, journal⟩ := run
  cases outcome <;> rfl

@[simp] theorem result?_map (f : α → β) (run : Run ε α) :
    (f <$> run).result? = run.result?.map f := by
  obtain ⟨outcome, journal⟩ := run
  cases outcome <;> rfl

@[simp] theorem result?_mapError (f : ε → δ) (run : Run ε α) :
    (run.mapError f).result? = run.result? := by
  obtain ⟨outcome, journal⟩ := run
  cases outcome <;> rfl

@[simp] theorem result?_orCollect (run : Run ε α) (next : Unit → Run (List ε) α) :
    (run.orCollect next).result? = run.result?.or (next ()).result? := by
  obtain ⟨outcome, journal⟩ := run
  cases outcome with
  | ok value => rfl
  | error error =>
    simp only [orCollect, result?, Except.toOption]
    cases (next ()).outcome <;> rfl

theorem result?_traverse {f : α → Run ε β} {g : α → Option β} {items : List α}
    (h : ∀ item ∈ items, (f item).result? = g item) :
    (traverse f items).result? = items.mapM g := by
  induction items with
  | nil => rfl
  | cons item items ih =>
    rw [List.forall_mem_cons] at h
    rw [traverse, List.mapM_cons, result?_bind, h.1]
    simp only [result?_bind, ih h.2, result?_succeed]
    rfl

theorem result?_traverseFrom {f : Nat → α → Run ε β} {g : α → Option β} {items : List α}
    (h : ∀ index, ∀ item ∈ items, (f index item).result? = g item) (position : Nat) :
    (traverseFrom f position items).result? = items.mapM g := by
  induction items generalizing position with
  | nil => rfl
  | cons item items ih =>
    have htail : ∀ index, ∀ other ∈ items, (f index other).result? = g other :=
      fun index other hother => h index other (List.mem_cons_of_mem item hother)
    rw [traverseFrom, List.mapM_cons, result?_bind, h position item List.mem_cons_self]
    simp only [result?_bind, ih htail, result?_succeed]
    rfl

/-! ## What a run ensures -/

variable {W : Schema → Value → Prop}

/-- Where all levels that the run enters are in `W`, its result has the property `Q`. -/
def Ensures (W : Schema → Value → Prop) (run : Run ε α) (Q : α → Prop) : Prop :=
  (∀ schema value ctx, .entered schema value ctx ∈ run.journal → W schema value) →
    ∀ result, run.outcome = .ok result → Q result

namespace Ensures

variable {P Q : α → Prop} {R : β → Prop} {run : Run ε α}

theorem of_result (h : ∀ result, run.result? = some result → Q result) : run.Ensures W Q :=
  fun _ result hresult => h result (result?_eq_some.mpr hresult)

theorem succeed {value : α} (h : Q value) : (Run.succeed value : Run ε α).Ensures W Q := by
  intro _ result hresult
  cases hresult
  exact h

theorem fail {error : ε} : (Run.fail error : Run ε α).Ensures W Q := fun _ _ h => nomatch h

theorem imp (h : run.Ensures W P) (himp : ∀ result, P result → Q result) : run.Ensures W Q :=
  fun entered result hresult => himp result (h entered result hresult)

theorem entered {schema : Schema} {value : Value} {ctx : Context} :
    (Run.note (.entered schema value ctx) : Run ε Unit).Ensures W fun _ => W schema value :=
  fun entered _ _ => entered schema value ctx List.mem_cons_self

theorem bind {next : α → Run ε β} (h : run.Ensures W P)
    (hnext : ∀ value, P value → (next value).Ensures W R) : (run >>= next).Ensures W R := by
  obtain ⟨outcome, journal⟩ := run
  intro entered result hresult
  cases outcome with
  | error error => cases hresult
  | ok value =>
    have first := h (fun s v ctx hmem => entered s v ctx (List.mem_append_left _ hmem)) value rfl
    refine hnext value first (fun s v ctx hmem => ?_) result hresult
    exact entered s v ctx (List.mem_append_right _ hmem)

theorem map {f : α → β} (h : run.Ensures W fun value => R (f value)) : (f <$> run).Ensures W R := by
  change (run >>= fun value => Run.succeed (f value)).Ensures W R
  exact h.bind fun value hvalue => succeed hvalue

theorem mapError {f : ε → δ} (h : run.Ensures W Q) : (run.mapError f).Ensures W Q := by
  obtain ⟨outcome, journal⟩ := run
  intro entered result hresult
  cases outcome with
  | error error => cases hresult
  | ok value =>
    cases hresult
    exact h entered result rfl

theorem orCollect {next : Unit → Run (List ε) α} (h : run.Ensures W Q)
    (other : (next ()).Ensures W Q) : (run.orCollect next).Ensures W Q := by
  obtain ⟨outcome, journal⟩ := run
  intro entered result hresult
  cases outcome with
  | ok value =>
    cases hresult
    exact h entered result rfl
  | error error =>
    refine other (fun s v ctx hmem => entered s v ctx (List.mem_append_right _ hmem)) result ?_
    simp only [Run.orCollect] at hresult
    cases hnext : (next ()).outcome with
    | error errors => rw [hnext] at hresult; cases hresult
    | ok value => rw [hnext] at hresult; exact hresult

theorem traverse {f : α → Run ε β} {S : α → β → Prop} {items : List α}
    (h : ∀ item ∈ items, (f item).Ensures W (S item)) :
    (Run.traverse f items).Ensures W (List.Forall₂ S items) := by
  induction items with
  | nil => exact succeed .nil
  | cons item items ih =>
    rw [List.forall_mem_cons] at h
    exact h.1.bind fun result hresult => (ih h.2).bind fun results hresults =>
      succeed (.cons hresult hresults)

theorem traverseFrom {f : Nat → α → Run ε β} {S : α → β → Prop} {items : List α} {position : Nat}
    (h : ∀ index, ∀ item ∈ items, (f index item).Ensures W (S item)) :
    (Run.traverseFrom f position items).Ensures W (List.Forall₂ S items) := by
  induction items generalizing position with
  | nil => exact succeed .nil
  | cons item items ih =>
    have tail : (Run.traverseFrom f (position + 1) items).Ensures W (List.Forall₂ S items) :=
      ih fun index other hother => h index other (List.mem_cons_of_mem item hother)
    exact (h position item List.mem_cons_self).bind fun result hresult =>
      tail.bind fun results hresults => succeed (.cons hresult hresults)

end Ensures

end OptionSchema.Run
