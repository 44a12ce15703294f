/-! # Entry lists: associations in order of first insertion -/
namespace OptionSchema.Entries

variable {κ ν : Type}

/-- A key that is already there keeps its place and its first spelling; only its value changes. -/
def insert [BEq κ] (key : κ) (value : ν) : List (κ × ν) → List (κ × ν)
  | [] => [(key, value)]
  | (k, v) :: rest => if key == k then (k, value) :: rest else (k, v) :: insert key value rest

def ofList [BEq κ] (pairs : List (κ × ν)) : List (κ × ν) :=
  pairs.foldl (fun entries pair => insert pair.1 pair.2 entries) []

def names (entries : List (κ × ν)) : List κ := entries.map (·.1)

def Distinct [BEq κ] (entries : List (κ × ν)) : Prop :=
  entries.Pairwise fun a b => (a.1 == b.1) = false

theorem lookup_insert_self [BEq κ] [LawfulBEq κ] (key : κ) (value : ν)
    (entries : List (κ × ν)) : (insert key value entries).lookup key = some value := by
  induction entries with
  | nil => simp [insert]
  | cons head rest ih =>
    obtain ⟨k, v⟩ := head
    by_cases h : key == k
    · simp [insert, List.lookup_cons, h]
    · simp [insert, List.lookup_cons, h, ih]

theorem lookup_insert_of_ne [BEq κ] [LawfulBEq κ] {key other : κ} (value : ν)
    (entries : List (κ × ν)) (h : other ≠ key) :
    (insert key value entries).lookup other = entries.lookup other := by
  induction entries with
  | nil => simp [insert, List.lookup_cons, beq_false_of_ne h]
  | cons head rest ih =>
    obtain ⟨k, v⟩ := head
    by_cases hk : key = k
    · subst hk
      simp [insert, List.lookup_cons, beq_false_of_ne h]
    · simp only [insert, beq_false_of_ne hk, Bool.false_eq_true, if_false, List.lookup_cons, ih]

end OptionSchema.Entries
