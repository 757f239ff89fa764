import ApiSurface.Extraction.Identifiers
import ApiSurface.Proofs.Tables
import Mathlib
/-!
Names that nobody else has. The search for a number stops at the least free one, and of the
candidates of one round each gets a name that was free and that no other gets.
-/
namespace ApiSurface

theorem numbered_injective (name : String) : Function.Injective (numbered name) := by
  intro m n h
  have htail : toString m = toString n := (String.append_right_inj _).mp h
  exact Nat.repr_inj.mp htail

/-- Where the search from number `i` on ends: it has passed taken names only, and it ends early
only at a free name. -/
theorem firstFree_eq_numbered (taken : List String) (name : String) (i n : ℕ) :
    ∃ k, firstFree taken name i n = numbered name k ∧ i ≤ k ∧ k ≤ i+n ∧
      (∀ j, i ≤ j → j < k → numbered name j ∈ taken) ∧ (k < i+n → numbered name k ∉ taken) := by
  induction n generalizing i with
  | zero => exact ⟨i, rfl, le_rfl, le_rfl, fun j hj hk => by omega, fun hk => by omega⟩
  | succ n ih =>
    by_cases hi : numbered name i ∈ taken
    · obtain ⟨k, he, hik, hkn, hpassed, hfree⟩ := ih (i+1)
      refine ⟨k, ?_, by omega, by omega, ?_, fun hk => hfree (by omega)⟩
      · simp only [firstFree, List.contains_eq_mem, hi, decide_true, ↓reduceIte, he]
      · intro j hj hk
        rcases Nat.eq_or_lt_of_le hj with rfl | hlt
        · exact hi
        · exact hpassed j hlt hk
    · refine ⟨i, ?_, le_rfl, by omega, fun j hj hk => by omega, fun _ => hi⟩
      simp only [firstFree, List.contains_eq_mem, hi, decide_false, Bool.false_eq_true, ↓reduceIte]

/-- Not all of the first `taken.length+1` numbered names are taken. -/
theorem exists_numbered_not_mem (taken : List String) (name : String) :
    ∃ k, 1 ≤ k ∧ k ≤ taken.length+1 ∧ numbered name k ∉ taken := by
  by_contra hn
  push Not at hn
  let names := (Finset.Icc 1 (taken.length+1)).image (numbered name)
  have hsub : names ⊆ taken.toFinset := by
    intro x hx
    obtain ⟨k, hk, rfl⟩ := Finset.mem_image.mp hx
    obtain ⟨h1, h2⟩ := Finset.mem_Icc.mp hk
    exact List.mem_toFinset.mpr (hn k h1 h2)
  have hcard : names.card = taken.length+1 := by
    rw [Finset.card_image_of_injective _ (numbered_injective name), Nat.card_Icc]
    omega
  have hle := (Finset.card_le_card hsub).trans taken.toFinset_card_le
  omega

/-- The name found carries the least number, from one on, with which it is free. -/
theorem freeName_eq_numbered (taken : List String) (name : String) :
    ∃ k, freeName taken name = numbered name k ∧ 1 ≤ k ∧ k ≤ taken.length+1 ∧
      numbered name k ∉ taken ∧ ∀ j, 1 ≤ j → j < k → numbered name j ∈ taken := by
  obtain ⟨k, he, h1, hle, hpassed, hfree⟩ := firstFree_eq_numbered taken name 1 taken.length
  refine ⟨k, he, h1, by omega, ?_, hpassed⟩
  obtain ⟨j, hj1, hj2, hj⟩ := exists_numbered_not_mem taken name
  rcases Nat.lt_or_ge k (1+taken.length) with hlt | hge
  · exact hfree hlt
  · -- the search went through all its numbers, so the free one can only be its last
    have hjk : j = k := by
      by_contra hne
      exact hj (hpassed j hj1 (by omega))
    exact hjk ▸ hj

theorem freeName_not_mem (taken : List String) (name : String) :
    freeName taken name ∉ taken := by
  obtain ⟨k, he, -, -, hk, -⟩ := freeName_eq_numbered taken name
  exact he ▸ hk

/-- A candidate, and the same candidate under the name that it was given. -/
structure Candidate.NamedAs (c given : Candidate) : Prop where
  id_eq : given.id = c.id
  owner_eq : given.owner = c.owner
  name_eq : given.name = c.name ∨ ∃ n, 1 ≤ n ∧ given.name = numbered c.name n

theorem Candidate.NamedAs.refl (c : Candidate) : c.NamedAs c := ⟨rfl, rfl, Or.inl rfl⟩

theorem Candidate.namedAs_freeName (taken : List String) (c : Candidate) :
    c.NamedAs { c with name := freeName taken c.name } := by
  obtain ⟨k, he, h1, -⟩ := freeName_eq_numbered taken c.name
  exact ⟨rfl, rfl, Or.inr ⟨k, h1, he⟩⟩

namespace Naming

/-- What holds while names are given out of those that are not in `taken`. -/
structure Distinct (taken : List String) (s : Naming) : Prop where
  start_taken : ∀ n ∈ taken, n ∈ s.taken
  named_taken : ∀ c ∈ s.named, c.name ∈ s.taken
  fresh : ∀ c ∈ s.named, c.name ∉ taken
  nodup : (s.named.map (·.name)).Nodup

theorem Distinct.give {taken : List String} {s : Naming} (h : s.Distinct taken) {c : Candidate}
    (hc : c.name ∉ s.taken) (waiting : List Candidate) :
    Distinct taken ⟨c.name :: s.taken, s.named ++ [c], waiting⟩ where
  start_taken n hn := List.mem_cons_of_mem _ (h.start_taken n hn)
  named_taken a ha := by
    rcases List.mem_append.mp ha with ha | ha
    · exact List.mem_cons_of_mem _ (h.named_taken a ha)
    · obtain rfl := List.mem_singleton.mp ha
      exact List.mem_cons_self
  fresh a ha := by
    rcases List.mem_append.mp ha with ha | ha
    · exact h.fresh a ha
    · obtain rfl := List.mem_singleton.mp ha
      exact fun hn => hc (h.start_taken _ hn)
  nodup := by
    rw [List.map_append, List.nodup_append]
    refine ⟨h.nodup, by simp, fun n hn m hm hnm => ?_⟩
    obtain ⟨a, ha, rfl⟩ := List.mem_map.mp hn
    obtain rfl : m = c.name := by simpa using hm
    exact hc (hnm ▸ h.named_taken a ha)

theorem Distinct.keep {taken : List String} {s : Naming} (h : s.Distinct taken) (c : Candidate) :
    (s.keep c).Distinct taken := by
  unfold Naming.keep
  split
  · exact ⟨h.start_taken, h.named_taken, h.fresh, h.nodup⟩
  · next hc => exact h.give (by simpa using hc) _

theorem Distinct.number {taken : List String} {s : Naming} (h : s.Distinct taken)
    (c : Candidate) : (s.number c).Distinct taken :=
  h.give (c := { c with name := freeName s.taken c.name }) (freeName_not_mem _ _) _

theorem Distinct.foldl_keep {taken : List String} {s : Naming} (h : s.Distinct taken)
    (cs : List Candidate) : (cs.foldl Naming.keep s).Distinct taken :=
  List.foldlRecOn cs Naming.keep h fun _ h c _ => h.keep c

theorem Distinct.foldl_number {taken : List String} {s : Naming} (h : s.Distinct taken)
    (cs : List Candidate) : (cs.foldl Naming.number s).Distinct taken :=
  List.foldlRecOn cs Naming.number h fun _ h c _ => h.number c

/-- After the first pass every candidate either has its own name or waits. -/
theorem mem_foldl_keep (cs : List Candidate) (s : Naming) (c : Candidate) :
    c ∈ (cs.foldl keep s).named ∨ c ∈ (cs.foldl keep s).waiting ↔
      (c ∈ s.named ∨ c ∈ s.waiting) ∨ c ∈ cs := by
  induction cs generalizing s with
  | nil => simp
  | cons a cs ih =>
    rw [List.foldl_cons, ih]
    have hstep : c ∈ (s.keep a).named ∨ c ∈ (s.keep a).waiting ↔
        (c ∈ s.named ∨ c ∈ s.waiting) ∨ c = a := by
      unfold keep
      split <;> simp only [List.mem_append, List.mem_singleton] <;> tauto
    rw [hstep, List.mem_cons]
    tauto

theorem named_subset_foldl_number (ws : List Candidate) (s : Naming) :
    ∀ c ∈ s.named, c ∈ (ws.foldl number s).named := by
  induction ws generalizing s with
  | nil => exact fun c hc => hc
  | cons w ws ih => exact fun c hc => ih (s.number w) c (List.mem_append_left _ hc)

/-- The second pass gives every candidate that waits a numbered name. -/
theorem exists_namedAs_of_waiting (ws : List Candidate) (s : Naming) :
    ∀ c ∈ ws, ∃ given ∈ (ws.foldl number s).named, c.NamedAs given := by
  induction ws generalizing s with
  | nil => simp
  | cons w ws ih =>
    intro c hc
    rcases List.mem_cons.mp hc with rfl | hc
    · refine ⟨_, named_subset_foldl_number ws (s.number c) _ ?_, c.namedAs_freeName s.taken⟩
      exact List.mem_append_right _ List.mem_cons_self
    · exact ih (s.number w) c hc

theorem exists_waiting_of_named (ws : List Candidate) (s : Naming) :
    ∀ given ∈ (ws.foldl number s).named, given ∈ s.named ∨ ∃ c ∈ ws, c.NamedAs given := by
  induction ws generalizing s with
  | nil => exact fun given hg => Or.inl hg
  | cons w ws ih =>
    intro given hg
    rcases ih (s.number w) given hg with hg | ⟨c, hc, hn⟩
    · rcases List.mem_append.mp hg with hg | hg
      · exact Or.inl hg
      · obtain rfl := List.mem_singleton.mp hg
        exact Or.inr ⟨w, List.mem_cons_self, w.namedAs_freeName s.taken⟩
    · exact Or.inr ⟨c, List.mem_cons_of_mem _ hc, hn⟩

end Naming

theorem distinctNames_distinct (taken : List String) (cs : List Candidate) :
    ((distinctNames taken cs).map (·.name)).Nodup ∧
      ∀ c ∈ distinctNames taken cs, c.name ∉ taken := by
  have hstart : Naming.Distinct taken ⟨taken, [], []⟩ := ⟨fun _ h => h, by simp, by simp, by simp⟩
  have hall := (hstart.foldl_keep (cs.mergeSort Candidate.le)).foldl_number
    ((cs.mergeSort Candidate.le).foldl Naming.keep ⟨taken, [], []⟩).waiting
  exact ⟨hall.nodup, hall.fresh⟩

theorem exists_namedAs_of_mem (taken : List String) {cs : List Candidate} {c : Candidate}
    (hc : c ∈ cs) : ∃ given ∈ distinctNames taken cs, c.NamedAs given := by
  have hsorted : c ∈ cs.mergeSort Candidate.le := List.mem_mergeSort.mpr hc
  rcases (Naming.mem_foldl_keep _ ⟨taken, [], []⟩ c).mpr (Or.inr hsorted) with hn | hw
  · exact ⟨c, Naming.named_subset_foldl_number _ _ c hn, .refl c⟩
  · exact Naming.exists_namedAs_of_waiting _ _ c hw

theorem exists_candidate_of_mem {taken : List String} {cs : List Candidate} {given : Candidate}
    (hg : given ∈ distinctNames taken cs) : ∃ c ∈ cs, c.NamedAs given := by
  have hmem (c : Candidate)
      (hc : c ∈ ((cs.mergeSort Candidate.le).foldl Naming.keep ⟨taken, [], []⟩).named ∨
        c ∈ ((cs.mergeSort Candidate.le).foldl Naming.keep ⟨taken, [], []⟩).waiting) :
      c ∈ cs := by
    simpa [List.mem_mergeSort] using (Naming.mem_foldl_keep _ _ c).mp hc
  rcases Naming.exists_waiting_of_named _ _ given hg with hn | ⟨c, hc, hn⟩
  · exact ⟨given, hmem given (Or.inl hn), .refl given⟩
  · exact ⟨c, hmem c (Or.inr hc), hn⟩

end ApiSurface
