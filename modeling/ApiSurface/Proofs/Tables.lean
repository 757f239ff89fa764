import ApiSurface.Document.Basic
import Mathlib.Data.List.Nodup
/-!
Tables as finite maps: which keys they have, and what insertion and sorting leave of them.
-/
namespace ApiSurface

namespace Table

variable {κ α : Type} [BEq κ] [LawfulBEq κ]

theorem mem_of_get? {t : Table κ α} {key : κ} {value : α} (h : t.get? key = some value) :
    (key, value) ∈ t := by
  obtain ⟨before, after, rfl, -⟩ := List.lookup_eq_some_iff.mp h
  exact List.mem_append_right before List.mem_cons_self

theorem mem_keys_iff {t : Table κ α} {key : κ} :
    key ∈ t.keys ↔ ∃ value, t.get? key = some value := by
  constructor
  · intro h
    by_contra hn
    have hnone : t.lookup key = none := by
      cases hv : t.lookup key with
      | none => rfl
      | some value => exact absurd ⟨value, hv⟩ hn
    obtain ⟨⟨k, v⟩, hmem, rfl⟩ := List.mem_map.mp h
    simpa using List.lookup_eq_none_iff.mp hnone (k, v) hmem
  · rintro ⟨value, h⟩
    exact List.mem_map.mpr ⟨(key, value), mem_of_get? h, rfl⟩

theorem has_iff {t : Table κ α} {key : κ} : t.has key = true ↔ key ∈ t.keys := by
  rw [mem_keys_iff, has, Option.isSome_iff_exists]

theorem mem_keys_of_get? {t : Table κ α} {key : κ} {value : α} (h : t.get? key = some value) :
    key ∈ t.keys :=
  mem_keys_iff.mpr ⟨value, h⟩

/-- In a table whose keys are distinct, an entry is what its key gives. -/
theorem get?_eq_some_iff {t : Table κ α} (hd : t.keys.Nodup) {key : κ} {value : α} :
    t.get? key = some value ↔ (key, value) ∈ t := by
  refine ⟨mem_of_get?, fun h => ?_⟩
  obtain ⟨other, ho⟩ := mem_keys_iff.mp (List.mem_map.mpr ⟨(key, value), h, rfl⟩)
  have heq : ((key, other) : κ × α) = (key, value) :=
    List.inj_on_of_nodup_map hd (mem_of_get? ho) h rfl
  rw [ho, (Prod.mk.injEq ..).mp heq |>.2]

@[simp] theorem get?_insert_self (t : Table κ α) (key : κ) (value : α) :
    (t.insert key value).get? key = some value := by
  simp [get?_insert]

theorem get?_insert_of_ne (t : Table κ α) {key other : κ} (value : α) (h : other ≠ key) :
    (t.insert key value).get? other = t.get? other := by
  simp [get?_insert, h]

@[simp] theorem mem_keys_insert {t : Table κ α} {key other : κ} {value : α} :
    other ∈ (t.insert key value).keys ↔ other = key ∨ other ∈ t.keys := by
  by_cases h : other = key
  · subst h
    exact iff_of_true (mem_keys_of_get? (get?_insert_self ..)) (Or.inl rfl)
  · simp only [mem_keys_iff, get?_insert_of_ne t value h, h, false_or]

theorem mem_of_mem_insert {t : Table κ α} {key : κ} {value : α} {entry : κ × α}
    (h : entry ∈ t.insert key value) : entry = (key, value) ∨ entry ∈ t := by
  induction t with
  | nil => exact Or.inl (List.mem_singleton.mp h)
  | cons first rest ih =>
    obtain ⟨k, v⟩ := first
    unfold insert at h
    split at h
    · next hk =>
      obtain rfl := eq_of_beq hk
      exact (List.mem_cons.mp h).imp id (List.mem_cons_of_mem _)
    · rcases List.mem_cons.mp h with rfl | h
      · exact Or.inr List.mem_cons_self
      · exact (ih h).imp id (List.mem_cons_of_mem _)

theorem keys_insert_of_mem {t : Table κ α} {key : κ} {value : α} (h : key ∈ t.keys) :
    (t.insert key value).keys = t.keys := by
  induction t with
  | nil => simp [keys] at h
  | cons entry rest ih =>
    obtain ⟨k, v⟩ := entry
    by_cases hk : key = k
    · simp [insert, keys, hk]
    · have hrest : key ∈ keys rest := by simpa [keys, hk] using h
      have htail : (insert rest key value).map (·.1) = rest.map (·.1) := ih hrest
      simp [insert, keys, hk, htail]

theorem insert_of_not_mem {t : Table κ α} {key : κ} {value : α} (h : key ∉ t.keys) :
    t.insert key value = t ++ [(key, value)] := by
  induction t with
  | nil => rfl
  | cons entry rest ih =>
    obtain ⟨k, v⟩ := entry
    have hk : key ≠ k := fun heq => h (by simp [keys, heq])
    have hrest : key ∉ keys rest := fun hm => h (by simp only [keys] at hm ⊢; simp [hm])
    simp [insert, hk, ih hrest]

theorem keys_insert_nodup {t : Table κ α} (hd : t.keys.Nodup) (key : κ) (value : α) :
    (t.insert key value).keys.Nodup := by
  by_cases h : key ∈ t.keys
  · rwa [keys_insert_of_mem h]
  · rw [insert_of_not_mem h, keys, List.map_append, List.nodup_append]
    refine ⟨hd, by simp, fun a ha b hb => ?_⟩
    obtain rfl : b = key := by simpa using hb
    exact fun hab => h (hab ▸ ha)

@[simp] theorem mem_keys_insertNew {t : Table κ α} {key other : κ} {value : α} :
    other ∈ (t.insertNew key value).keys ↔ other = key ∨ other ∈ t.keys := by
  unfold insertNew
  split
  · next h =>
    refine ⟨Or.inr, fun ho => ho.elim (fun heq => ?_) id⟩
    exact heq ▸ has_iff.mp h
  · exact mem_keys_insert

end Table

namespace Table

variable {α : Type}

theorem mem_sorted {t : Table String α} {entry : String × α} : entry ∈ t.sorted ↔ entry ∈ t :=
  (List.mergeSort_perm t _).mem_iff

theorem keys_sorted_perm (t : Table String α) : t.sorted.keys.Perm t.keys :=
  (List.mergeSort_perm t _).map _

theorem mem_keys_sorted {t : Table String α} {key : String} :
    key ∈ t.sorted.keys ↔ key ∈ t.keys :=
  (keys_sorted_perm t).mem_iff

theorem keys_sorted_nodup {t : Table String α} (hd : t.keys.Nodup) : t.sorted.keys.Nodup :=
  (keys_sorted_perm t).nodup_iff.mpr hd

theorem get?_sorted {t : Table String α} (hd : t.keys.Nodup) (key : String) :
    t.sorted.get? key = t.get? key := by
  refine Option.ext fun value => ?_
  rw [get?_eq_some_iff (keys_sorted_nodup hd), get?_eq_some_iff hd, mem_sorted]

end Table

end ApiSurface
