import Mathlib
/-!
The order of a breadth-first search: what is reached from some roots, each where it is seen first
when the roots come first and then what each member of the order leads to, member after member.
-/
namespace ApiSurface

variable {α : Type} [BEq α] [LawfulBEq α]

theorem eraseDups_nodup (l : List α) : l.eraseDups.Nodup := by
  -- by the length: what follows the first entry is filtered
  induction hn : l.length using Nat.strong_induction_on generalizing l with
  | h n ih =>
    cases l with
    | nil => simp
    | cons a l =>
      have hshorter : (l.filter fun b => !b == a).length < n := by
        have hle := List.length_filter_le (fun b => !b == a) l
        rw [List.length_cons] at hn
        omega
      rw [List.eraseDups_cons, List.nodup_cons]
      refine ⟨fun hmem => ?_, ih _ hshorter _ rfl⟩
      have hfiltered := List.mem_eraseDups.mp hmem
      simp at hfiltered

theorem eraseDups_prefix (l m : List α) : l.eraseDups <+: (l ++ m).eraseDups := by
  rw [List.eraseDups_append]
  exact List.prefix_append _ _

theorem eraseDups_append_singleton [DecidableEq α] (l : List α) (a : α) :
    (l ++ [a]).eraseDups = if a ∈ l then l.eraseDups else l.eraseDups ++ [a] := by
  rw [List.eraseDups_append]
  by_cases ha : a ∈ l
  · simp [List.removeAll, ha]
  · simp [List.removeAll, ha, List.eraseDups_cons]

theorem eraseDups_eq_self [DecidableEq α] {l : List α} (hd : l.Nodup) : l.eraseDups = l := by
  induction l using List.reverseRecOn with
  | nil => rfl
  | append_singleton l a ih =>
    obtain ⟨hl, -, hdisjoint⟩ := List.nodup_append.mp hd
    have ha : a ∉ l := fun ha => hdisjoint a ha a (List.mem_singleton_self a) rfl
    rw [eraseDups_append_singleton, if_neg ha, ih hl]

/-- An order of nodes is that of a breadth-first search from some roots. -/
structure BreadthFirst (roots : List α) (next : α → List α) (order : List α) : Prop where
  /-- It is of what is reached from the roots. -/
  reached : ∀ a, a ∈ order ↔ ∃ r ∈ roots, Relation.ReflTransGen (fun b c => c ∈ next b) r a
  /-- The roots come first, and each node that another one leads to comes where it is seen first. -/
  firstSeen : order = (roots ++ order.flatMap next).eraseDups

namespace BreadthFirst

variable {roots order order' : List α} {next : α → List α}

theorem nodup (h : BreadthFirst roots next order) : order.Nodup := by
  rw [h.firstSeen]
  exact eraseDups_nodup _

/-- An order that says where its members are seen first is closed, so it is enough that all of them
are reached. -/
theorem of_firstSeen (hseen : order = (roots ++ order.flatMap next).eraseDups)
    (hreached : ∀ a ∈ order, ∃ r ∈ roots, Relation.ReflTransGen (fun b c => c ∈ next b) r a) :
    BreadthFirst roots next order := by
  have hmem (a : α) : a ∈ order ↔ a ∈ roots ∨ ∃ b ∈ order, a ∈ next b := by
    conv_lhs => rw [hseen]
    rw [List.mem_eraseDups, List.mem_append, List.mem_flatMap]
  refine ⟨fun a => ⟨hreached a, ?_⟩, hseen⟩
  rintro ⟨r, hr, hpath⟩
  induction hpath with
  | refl => exact (hmem r).mpr (Or.inl hr)
  | tail _ hstep ih => exact (hmem _).mpr (Or.inr ⟨_, ih, hstep⟩)

/-- What a part of the order at its beginning leads to goes beyond it, unless it is all. -/
theorem take_prefix (h : BreadthFirst roots next order) (k : ℕ) :
    (roots ++ (order.take k).flatMap next).eraseDups <+: order := by
  have hsplit : roots ++ order.flatMap next =
      (roots ++ (order.take k).flatMap next) ++ (order.drop k).flatMap next := by
    rw [List.append_assoc, ← List.flatMap_append, List.take_append_drop]
  conv_rhs => rw [h.firstSeen, hsplit]
  exact eraseDups_prefix _ _

theorem take_length_lt (h : BreadthFirst roots next order) {k : ℕ} (hk : k < order.length) :
    k < (roots ++ (order.take k).flatMap next).eraseDups.length := by
  by_contra hle
  -- otherwise the first `k` nodes are closed, and the next one is never reached
  have hsub : ∀ a ∈ roots ++ (order.take k).flatMap next, a ∈ order.take k := by
    intro a ha
    obtain ⟨rest, hrest⟩ := h.take_prefix k
    have htake : (roots ++ (order.take k).flatMap next).eraseDups <+: order.take k := by
      rw [List.prefix_take_iff]
      exact ⟨h.take_prefix k, by omega⟩
    exact htake.subset (List.mem_eraseDups.mpr ha)
  obtain ⟨r, hr, hpath⟩ := (h.reached order[k]).mp (List.getElem_mem hk)
  have hmem : ∀ a, Relation.ReflTransGen (fun b c => c ∈ next b) r a → a ∈ order.take k := by
    intro a ha
    induction ha with
    | refl => exact hsub r (List.mem_append_left _ hr)
    | tail _ hstep ih =>
      exact hsub _ (List.mem_append_right _ (List.mem_flatMap.mpr ⟨_, ih, hstep⟩))
  obtain ⟨j, hj, heq⟩ := List.getElem_of_mem (hmem _ hpath)
  rw [List.length_take] at hj
  rw [List.getElem_take] at heq
  have hsame : j = k := (List.Nodup.getElem_inj_iff h.nodup).mp heq
  omega

/-- There is only one such order. -/
theorem unique (h : BreadthFirst roots next order) (h' : BreadthFirst roots next order') :
    order = order' := by
  have hlength {o o' : List α} (ho : BreadthFirst roots next o)
      (ho' : BreadthFirst roots next o') : o.length ≤ o'.length :=
    (ho.nodup.subperm fun a ha => (ho'.reached a).mpr ((ho.reached a).mp ha)).length_le
  have hlen : order.length = order'.length := le_antisymm (hlength h h') (hlength h' h)
  have htake (k : ℕ) : order.take k = order'.take k := by
    induction k with
    | zero => rfl
    | succ k ih =>
      rcases Nat.lt_or_ge k order.length with hk | hk
      · have hp := h.take_prefix k
        have hp' := h'.take_prefix k
        have hlt := h.take_length_lt hk
        rw [← ih] at hp'
        -- both go on with the first node that the first `k` lead to beyond themselves
        have hnext : order[k]? = order'[k]? :=
          (List.prefix_iff_getElem?.mp hp k hlt).trans (List.prefix_iff_getElem?.mp hp' k hlt).symm
        rw [List.take_add_one, List.take_add_one, ih, hnext]
      · rw [List.take_of_length_le (by omega), List.take_of_length_le (by omega)] at ih
        rw [ih]
  have hall := htake order.length
  rw [List.take_length, hlen, List.take_length] at hall
  exact hall

end BreadthFirst

end ApiSurface
