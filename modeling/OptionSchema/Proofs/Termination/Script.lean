import Mathlib.Order.WellFounded
import OptionSchema.Log
/-!
# Recursive programs without a budget

A recursive program says for each call what it does until it returns: it creates contexts, makes
calls and goes on with their results. A run of it is a finite derivation, in which every call made
returns. Where no call can enclose further calls forever, every call returns, and what it returns is
the one solution of the program's equations.
-/
namespace OptionSchema

/-- What is done until there is a result. -/
inductive Script (κ : Type) (ρ : κ → Type) (α : Type) where
  | done (result : α)
  | create (ctx : Context) (rest : Script κ ρ α)
  | call (callee : κ) (next : ρ callee → Script κ ρ α)

namespace Script

variable {κ : Type} {ρ : κ → Type} {α β ε δ : Type} {answer : ∀ callee, ρ callee}
  {script : Script κ ρ α}

def eval (answer : ∀ callee, ρ callee) : Script κ ρ α → α
  | .done result => result
  | .create _ rest => rest.eval answer
  | .call callee next => (next (answer callee)).eval answer

def calls (answer : ∀ callee, ρ callee) : Script κ ρ α → List κ
  | .done _ => []
  | .create _ rest => rest.calls answer
  | .call callee next => callee :: (next (answer callee)).calls answer

def created (answer : ∀ callee, ρ callee) : Script κ ρ α → List Context
  | .done _ => []
  | .create ctx rest => ctx :: rest.created answer
  | .call callee next => (next (answer callee)).created answer

def bind : Script κ ρ α → (α → Script κ ρ β) → Script κ ρ β
  | .done result, next => next result
  | .create ctx rest, next => .create ctx (rest.bind next)
  | .call callee rest, next => .call callee fun result => (rest result).bind next

def map (f : α → β) (script : Script κ ρ α) : Script κ ρ β :=
  script.bind fun result => .done (f result)

def ask (callee : κ) : Script κ ρ (ρ callee) := .call callee .done

@[simp] theorem eval_create (ctx : Context) :
    (create ctx script).eval answer = script.eval answer := rfl

@[simp] theorem eval_ask (callee : κ) : (ask callee).eval answer = answer callee := rfl

@[simp] theorem eval_bind (next : α → Script κ ρ β) :
    (script.bind next).eval answer = (next (script.eval answer)).eval answer := by
  induction script with
  | done result => rfl
  | create ctx rest ih => exact ih
  | call callee rest ih => exact ih (answer callee)

@[simp] theorem eval_map (f : α → β) : (script.map f).eval answer = f (script.eval answer) :=
  eval_bind _

section Runs

/-- The program derives the result of a script: every call in it returns. -/
inductive Returns (body : ∀ callee, Script κ ρ (ρ callee)) : {α : Type} → Script κ ρ α → α → Prop
    where
  | done {α : Type} (result : α) : Returns body (.done result) result
  | create {α : Type} {ctx : Context} {rest : Script κ ρ α} {result : α}
      (h : Returns body rest result) : Returns body (.create ctx rest) result
  | call {α : Type} {callee : κ} {next : ρ callee → Script κ ρ α} {returned : ρ callee} {result : α}
      (inside : Returns body (body callee) returned) (rest : Returns body (next returned) result) :
      Returns body (.call callee next) result

variable {body : ∀ callee, Script κ ρ (ρ callee)}

theorem Returns.unique {result other : α} (h : Returns body script result)
    (h' : Returns body script other) : result = other := by
  induction h with
  | done result => cases h'; rfl
  | create _ ih => cases h' with
    | create h' => exact ih h'
  | call _ _ ihInside ihRest => cases h' with
    | call inside rest =>
      obtain rfl := ihInside inside
      exact ihRest rest

def Makes (body : ∀ callee, Script κ ρ (ρ callee)) (answer : ∀ callee, ρ callee)
    (caller callee : κ) : Prop := callee ∈ (body caller).calls answer

theorem returns_of_calls (h : ∀ callee ∈ script.calls answer,
    Returns body (body callee) (answer callee)) : Returns body script (script.eval answer) := by
  induction script with
  | done result => exact .done result
  | create ctx rest ih => exact .create (ih h)
  | call callee next ih =>
    rw [calls, List.forall_mem_cons] at h
    exact .call h.1 (ih (answer callee) h.2)

/-- A solution of the program's equations is what its calls return, where none encloses others
forever. -/
theorem returns_of_wellFounded (solves : ∀ callee, (body callee).eval answer = answer callee)
    (descends : WellFounded fun callee caller => Makes body answer caller callee) (callee : κ) :
    Returns body (body callee) (answer callee) := by
  induction callee using descends.induction with
  | _ callee ih => exact solves callee ▸ returns_of_calls ih

/-- The calls that enclose a call in a run of the first one, the innermost first. -/
inductive Stack (body : ∀ callee, Script κ ρ (ρ callee)) (answer : ∀ callee, ρ callee) (first : κ) :
    List κ → κ → Prop where
  | base : Stack body answer first [] first
  | push {stack : List κ} {caller callee : κ} (h : Stack body answer first stack caller)
      (makes : Makes body answer caller callee) : Stack body answer first (caller :: stack) callee

variable {first last : κ} {stack : List κ}

/-- What every call passes on to those it makes holds throughout the run. -/
theorem Stack.holds {P : κ → Prop}
    (step : ∀ {caller callee}, Makes body answer caller callee → P caller → P callee)
    (h : Stack body answer first stack last) (base : P first) : P last := by
  induction h with
  | base => exact base
  | push _ makes ih => exact step makes ih

/-- What decreases with each call is smaller for a call than for all that enclose it. -/
theorem Stack.lt_of_mem {μ : Type} [Preorder μ] {rank : κ → μ}
    (descends : ∀ {caller callee}, Makes body answer caller callee → rank callee < rank caller)
    (h : Stack body answer first stack last) {outer : κ} (encloses : outer ∈ stack) :
    rank last < rank outer := by
  induction h with
  | base => cases encloses
  | push h makes ih =>
    rcases List.mem_cons.mp encloses with rfl | encloses
    · exact descends makes
    · exact (descends makes).trans (ih encloses)

/-- Calls that each use up one unit enclose each other at most as often as there are units. -/
theorem Stack.countP_add_le {costly : κ → Bool} {units : κ → Nat}
    (spends : ∀ {caller callee}, Makes body answer caller callee →
      (if costly caller then 1 else 0) + units callee ≤ units caller)
    (h : Stack body answer first stack last) : stack.countP costly + units last ≤ units first := by
  induction h with
  | base => simp
  | push _ makes ih =>
    have := spends makes
    rw [List.countP_cons]
    omega

end Runs

section Promises

/-- The promise about every call and every created context, whatever the calls return. -/
def All (P : κ → Prop) (Q : Context → Prop) : Script κ ρ α → Prop
  | .done _ => True
  | .create ctx rest => Q ctx ∧ rest.All P Q
  | .call callee next => P callee ∧ ∀ result, (next result).All P Q

variable {P : κ → Prop} {Q : Context → Prop}

theorem All.calls (h : script.All P Q) : ∀ callee ∈ script.calls answer, P callee := by
  induction script with
  | done result => nofun
  | create ctx rest ih => exact ih h.2
  | call callee next ih => exact List.forall_mem_cons.mpr ⟨h.1, ih _ (h.2 _)⟩

theorem All.created (h : script.All P Q) : ∀ ctx ∈ script.created answer, Q ctx := by
  induction script with
  | done result => nofun
  | create ctx rest ih => exact List.forall_mem_cons.mpr ⟨h.1, ih h.2⟩
  | call callee next ih => exact ih _ (h.2 _)

theorem All.bind {next : α → Script κ ρ β} (h : script.All P Q)
    (h' : ∀ result, (next result).All P Q) : (script.bind next).All P Q := by
  induction script with
  | done result => exact h' result
  | create ctx rest ih => exact ⟨h.1, ih h.2⟩
  | call callee rest ih => exact ⟨h.1, fun result => ih result (h.2 result)⟩

theorem All.map (h : script.All P Q) (f : α → β) : (script.map f).All P Q := h.bind fun _ => trivial

theorem all_ask {callee : κ} (h : P callee) : (ask callee : Script κ ρ (ρ callee)).All P Q :=
  ⟨h, fun _ => trivial⟩

end Promises

/-! Scripts whose results are runs -/

section Sequences

def andThen (script : Script κ ρ (Run ε α)) (next : α → Script κ ρ (Run ε β)) :
    Script κ ρ (Run ε β) :=
  script.bind fun run => match run.outcome with
    | .ok value => (next value).map fun rest => ⟨rest.outcome, run.journal ++ rest.journal⟩
    | .error error => .done ⟨.error error, run.journal⟩

variable {run : Script κ ρ (Run ε α)} {P : κ → Prop} {Q : Context → Prop}

@[simp] theorem eval_andThen (next : α → Script κ ρ (Run ε β)) :
    (run.andThen next).eval answer =
      (run.eval answer).bind fun value => (next value).eval answer := by
  rw [andThen, eval_bind, Run.bind]
  cases (run.eval answer).outcome with
  | ok value => exact eval_map _
  | error error => rfl

theorem All.andThen {next : α → Script κ ρ (Run ε β)} (h : run.All P Q)
    (h' : ∀ value, (next value).All P Q) : (run.andThen next).All P Q := by
  refine h.bind fun result => ?_
  cases result.outcome with
  | ok value => exact (h' value).map _
  | error error => trivial

def orCollect (script : Script κ ρ (Run ε α)) (next : Script κ ρ (Run (List ε) α)) :
    Script κ ρ (Run (List ε) α) :=
  script.bind fun run => match run.outcome with
    | .ok value => .done ⟨.ok value, run.journal⟩
    | .error error =>
      next.map fun rest => ⟨rest.outcome.mapError (error :: ·), run.journal ++ rest.journal⟩

@[simp] theorem eval_orCollect (next : Script κ ρ (Run (List ε) α)) :
    (run.orCollect next).eval answer = (run.eval answer).orCollect fun _ => next.eval answer := by
  rw [orCollect, eval_bind, Run.orCollect]
  cases (run.eval answer).outcome with
  | ok value => rfl
  | error error => exact eval_map _

theorem All.orCollect {next : Script κ ρ (Run (List ε) α)} (h : run.All P Q) (h' : next.All P Q) :
    (run.orCollect next).All P Q := by
  refine h.bind fun result => ?_
  cases result.outcome with
  | ok value => trivial
  | error error => exact h'.map _

def traverseFrom (f : Nat → α → Script κ ρ (Run ε β)) (position : Nat) :
    List α → Script κ ρ (Run ε (List β))
  | [] => .done (.succeed [])
  | item :: items =>
    (f position item).andThen fun result =>
      (traverseFrom f (position + 1) items).andThen fun results =>
        .done (.succeed (result :: results))

theorem eval_traverseFrom {f : Nat → α → Script κ ρ (Run ε β)} {g : Nat → α → Run ε β}
    {items : List α}
    (h : ∀ position, ∀ item ∈ items, (f position item).eval answer = g position item)
    (position : Nat) :
    (traverseFrom f position items).eval answer = Run.traverseFrom g position items := by
  induction items generalizing position with
  | nil => rfl
  | cons item items ih =>
    have rest := ih fun position item hitem => h position item (List.mem_cons_of_mem _ hitem)
    rw [traverseFrom, eval_andThen, h position item List.mem_cons_self]
    simp only [eval_andThen, rest]
    rfl

theorem all_traverseFrom {f : Nat → α → Script κ ρ (Run ε β)} {items : List α}
    (h : ∀ position, ∀ item ∈ items, (f position item).All P Q) (position : Nat) :
    (traverseFrom f position items).All P Q := by
  induction items generalizing position with
  | nil => trivial
  | cons item items ih =>
    refine (h position item List.mem_cons_self).andThen fun result => ?_
    exact (ih (fun position item hitem => h position item (List.mem_cons_of_mem _ hitem)) _).andThen
      fun _ => trivial

end Sequences

end Script

end OptionSchema
