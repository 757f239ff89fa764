import Mathlib.Data.Finset.Card
import Mathlib.Logic.Relation
/-!
Rows of steps from one thing to the next. A row that is longer than there are things comes to one of
them twice, so it runs in a circle.
-/
namespace ApiSurface

variable {α β : Type} {r : α → α → Prop} {row : ℕ → α} {n : ℕ}

theorem transGen_of_row (h : ∀ i < n, r (row i) (row (i+1))) {i j : ℕ} (hij : i < j) (hj : j ≤ n) :
    Relation.TransGen r (row i) (row j) := by
  induction j, hij using Nat.le_induction with
  | base => exact .single (h i (by omega))
  | succ j hij ih => exact (ih (by omega)).tail (h j (by omega))

/-- A row of more things than there are keys to tell them by comes back to one of them. -/
theorem exists_circle_of_row (h : ∀ i < n, r (row i) (row (i+1))) (key : α → β) (keys : List β)
    (hkeys : ∀ i < n, key (row i) ∈ keys) (hlong : keys.length < n)
    (hsame : ∀ i < n, ∀ j < n, key (row i) = key (row j) → row i = row j) :
    ∃ i < n, Relation.TransGen r (row i) (row i) := by
  classical
  have hcard : keys.toFinset.card < (Finset.range n).card := by
    rw [Finset.card_range]
    exact Nat.lt_of_le_of_lt keys.toFinset_card_le hlong
  obtain ⟨i, hi, j, hj, hne, heq⟩ := Finset.exists_ne_map_eq_of_card_lt_of_maps_to hcard
    fun i hi => List.mem_toFinset.mpr (hkeys i (Finset.mem_range.mp hi))
  rw [Finset.mem_range] at hi hj
  have hrow := hsame i hi j hj heq
  rcases Nat.lt_or_gt_of_ne hne with hlt | hlt
  · have hcircle := transGen_of_row h hlt (Nat.le_of_lt hj)
    exact ⟨i, hi, hrow ▸ hcircle⟩
  · have hcircle := transGen_of_row h hlt (Nat.le_of_lt hi)
    exact ⟨j, hj, hrow ▸ hcircle⟩

end ApiSurface
