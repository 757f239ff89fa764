/-!
Tables in the order of their first insertions.
-/
namespace ApiSurface

/-- Keys with values, each key once, in the order in which the keys came. -/
abbrev Table (κ α : Type) := List (κ × α)

namespace Table

variable {κ α : Type} [BEq κ]

/-- The value of a key. -/
def get? (t : Table κ α) (key : κ) : Option α := t.lookup key

/-- Whether a key has a value. -/
def has (t : Table κ α) (key : κ) : Bool := (t.get? key).isSome

/-- Gives a key a value. A key that has one keeps its place. -/
def insert (t : Table κ α) (key : κ) (value : α) : Table κ α :=
  match t with
  | [] => [(key, value)]
  | (k, v) :: rest => if key == k then (k, value) :: rest else (k, v) :: insert rest key value

/-- Gives a key a value unless it has one. -/
def insertNew (t : Table κ α) (key : κ) (value : α) : Table κ α :=
  if t.has key then t else t.insert key value

/-- The keys in order. -/
def keys (t : Table κ α) : List κ := t.map (·.1)

/-- What is known after an insertion. -/
theorem get?_insert [LawfulBEq κ] (t : Table κ α) (key : κ) (value : α) (other : κ) :
    (t.insert key value).get? other = if other == key then some value else t.get? other := by
  induction t with
  | nil =>
    cases ho : other == key <;> simp [insert, get?, List.lookup_cons, ho]
  | cons entry rest ih =>
    obtain ⟨k, v⟩ := entry
    simp only [get?] at ih ⊢
    cases hk : key == k with
    | true =>
      obtain rfl := eq_of_beq hk
      cases ho : other == key <;> simp [insert, List.lookup_cons, ho]
    | false =>
      cases ho : other == k with
      | true =>
        obtain rfl := eq_of_beq ho
        have : (other == key) = false := by
          rw [beq_eq_false_iff_ne] at hk ⊢; exact hk.symm
        simp [insert, hk, this]
      | false => simp [insert, hk, List.lookup_cons, ho, ih]

end Table

end ApiSurface
