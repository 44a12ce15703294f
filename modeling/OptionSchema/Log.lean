import OptionSchema.Context

/-!
# Runs and their logs

A run is an outcome together with what was met on the way to it. What was met outlives failure: a
warning from an alternative of a union stays, although the alternative failed and another one
matched.
-/
namespace OptionSchema

inductive Note where
  /-- A schema level is about to be walked over a value. -/
  | entered (schema : Schema) (value : Value) (ctx : Context)
  /-- A nested schema lay beyond the depth limit. -/
  | limitReached (place : Place) (ctx : Context)
  /-- A deprecated key was given. -/
  | deprecated (name advice : String) (path : Path)
  /-- A schema with so many keys was accepted. -/
  | accepted (keys : Nat)
  /-- A schema was rejected for so many defects. -/
  | rejected (defects : Nat)
  | registered (name : String) (keys : Nat)

structure LogLine where
  level : String
  message : String
  fields : List (String × String)
deriving DecidableEq, Repr

def Note.line? : Note → Option LogLine
  | .entered .. => none
  | .limitReached .. => none
  | .deprecated name advice path =>
    some ⟨"WARN", "'" ++ name ++ "' is deprecated. " ++ advice, [("key", path.text)]⟩
  | .accepted keys => some ⟨"DEBUG", "schema compiled", [("keys", toString keys)]⟩
  | .rejected defects => some ⟨"DEBUG", "schema rejected", [("errors", toString defects)]⟩
  | .registered name keys =>
    some ⟨"DEBUG", "registered schema", [("schema", name), ("keys", toString keys)]⟩

structure Run (ε α : Type) where
  outcome : Except ε α
  journal : List Note

namespace Run

variable {ε δ α β : Type}

def succeed (value : α) : Run ε α := ⟨.ok value, []⟩

def fail (error : ε) : Run ε α := ⟨.error error, []⟩

def note (n : Note) : Run ε Unit := ⟨.ok (), [n]⟩

def bind (run : Run ε α) (next : α → Run ε β) : Run ε β :=
  match run.outcome with
  | .ok value => ⟨(next value).outcome, run.journal ++ (next value).journal⟩
  | .error error => ⟨.error error, run.journal⟩

instance : Monad (Run ε) where
  pure := succeed
  bind := bind

def log (run : Run ε α) : List LogLine := run.journal.filterMap Note.line?

def ofExcept (outcome : Except ε α) : Run ε α := ⟨outcome, []⟩

def mapError (f : ε → δ) (run : Run ε α) : Run δ α := ⟨run.outcome.mapError f, run.journal⟩

/-- The first run, or if it fails the second; the errors of the failed ones are collected. -/
def orCollect (run : Run ε α) (next : Unit → Run (List ε) α) : Run (List ε) α :=
  match run.outcome with
  | .ok value => ⟨.ok value, run.journal⟩
  | .error error =>
    ⟨(next ()).outcome.mapError (error :: ·), run.journal ++ (next ()).journal⟩

def traverse (f : α → Run ε β) : List α → Run ε (List β)
  | [] => succeed []
  | item :: items => do
    let result ← f item
    let results ← traverse f items
    succeed (result :: results)

def traverseFrom (f : Nat → α → Run ε β) (position : Nat) : List α → Run ε (List β)
  | [] => succeed []
  | item :: items => do
    let result ← f position item
    let results ← traverseFrom f (position + 1) items
    succeed (result :: results)

theorem bind_eq (run : Run ε α) (next : α → Run ε β) : (run >>= next) = run.bind next := rfl

theorem succeed_bind (value : α) (next : α → Run ε β) : (succeed value).bind next = next value := by
  simp [bind, succeed]

theorem bind_succeed (run : Run ε α) : run.bind succeed = run := by
  obtain ⟨outcome, journal⟩ := run
  cases outcome <;> simp [bind, succeed]

theorem bind_assoc {γ : Type} (run : Run ε α) (f : α → Run ε β) (g : β → Run ε γ) :
    (run.bind f).bind g = run.bind fun value => (f value).bind g := by
  obtain ⟨outcome, journal⟩ := run
  cases outcome with
  | error error => rfl
  | ok value =>
    simp only [bind]
    cases (f value).outcome <;> simp

instance : LawfulMonad (Run ε) := LawfulMonad.mk'
  (Run ε) bind_succeed succeed_bind bind_assoc

end Run

end OptionSchema
