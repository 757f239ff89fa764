import Mathlib.Data.List.Nodup
import ApiSurface.Document.Encoding
import ApiSurface.Json.Record
/-!
Records that are read back from the JSON that was written for them.
-/
namespace ApiSurface

/-- Finite numbers that are read back as they were written. -/
def Legible (xs : List Float) : Prop :=
  ∀ x ∈ xs, x.isFinite = true ∧ Json.numberValue? (numberText x) = some x

theorem legible_nil : Legible [] := List.forall_mem_nil _

theorem legible_append {xs ys : List Float} : Legible (xs ++ ys) ↔ Legible xs ∧ Legible ys :=
  List.forall_mem_append

theorem legible_flatMap {α : Type} {xs : List α} {f : α → List Float} :
    Legible (xs.flatMap f) ↔ ∀ x ∈ xs, Legible (f x) := by
  simp only [Legible, List.mem_flatMap]
  exact ⟨fun h x hx n hn => h n ⟨x, hx, hn⟩, fun h n ⟨x, hx, hn⟩ => h x hx n hn⟩

theorem float?_numberJson {x : Float} (h : Legible [x]) : (numberJson x).float? = some x := by
  obtain ⟨hfinite, hread⟩ := h x List.mem_cons_self
  rw [numberJson, Json.ofFloat, if_pos hfinite]
  exact hread

namespace Json

variable {α : Type} {f : α → Json} {numbers : α → List Float} {read : Json → Option α} {n : ℕ}

/-! ### Nesting -/

theorem depthAll_map_le {xs : List α} : depthAll (xs.map f) ≤ n ↔ ∀ x ∈ xs, (f x).depth ≤ n := by
  induction xs with
  | nil => simp [depthAll]
  | cons x xs ih =>
    rw [List.map_cons, depthAll, Nat.max_le, ih, List.forall_mem_cons]

theorem depthFields_append (xs ys : List (String × Json)) :
    depthFields (xs ++ ys) = max (depthFields xs) (depthFields ys) := by
  induction xs with
  | nil => simp [depthFields]
  | cons x xs ih =>
    obtain ⟨name, v⟩ := x
    rw [List.cons_append, depthFields, depthFields, ih, Nat.max_assoc]

theorem haveWhole_append (good : String → Bool) (xs ys : List (String × Json)) :
    haveWhole good (xs ++ ys) = (haveWhole good xs && haveWhole good ys) := by
  induction xs with
  | nil => rfl
  | cons x xs ih =>
    obtain ⟨name, v⟩ := x
    rw [List.cons_append, haveWhole, haveWhole, ih, Bool.and_assoc]

theorem haveWhole_iff {good : String → Bool} {fields : List (String × Json)} :
    haveWhole good fields = true ↔ ∀ e ∈ fields, e.2.isWhole good = true := by
  induction fields with
  | nil => simp [haveWhole]
  | cons e fields ih =>
    rw [haveWhole, Bool.and_eq_true, ih, List.forall_mem_cons]

theorem isWhole_ofTable {good : String → Bool} {t : Table String α}
    (h : ∀ e ∈ t, (f e.2).isWhole good = true) : (ofTable f t).isWhole good = true := by
  refine haveWhole_iff.mpr fun entry hentry => ?_
  obtain ⟨e, he, rfl⟩ := List.mem_map.mp hentry
  exact h e he

theorem isWhole_list {good : String → Bool} {xs : List α}
    (h : ∀ x ∈ xs, (f x).isWhole good = true) : (list f xs).isWhole good = true := by
  show areWhole good (xs.map f) = true
  induction xs with
  | nil => rfl
  | cons x xs ih =>
    obtain ⟨hx, hxs⟩ := List.forall_mem_cons.mp h
    rw [List.map_cons, areWhole, hx, ih hxs, Bool.and_true]

/-! ### Reading back -/

/-- What is written by `f` is read back by `read` when it nests at most `n` deep and its numbers
are legible. -/
def Restores (n : ℕ) (f : α → Json) (numbers : α → List Float) (read : Json → Option α) : Prop :=
  ∀ x, Legible (numbers x) → (f x).depth ≤ n → read (f x) = some x

theorem Restores.mono {m : ℕ} (h : Restores n f numbers read) (hle : m ≤ n) :
    Restores m f numbers read :=
  fun x hx hm => h x hx (Nat.le_trans hm hle)

theorem Restores.list (h : Restores n f numbers read) :
    Restores n (list f) (List.flatMap numbers) (listOf? read) := by
  intro xs hx hn
  have hdepth : ∀ x ∈ xs, (f x).depth ≤ n := depthAll_map_le.mp (Nat.le_of_succ_le hn)
  have hread : ∀ x ∈ xs, read (f x) = some x :=
    fun x hmem => h x (legible_flatMap.mp hx x hmem) (hdepth x hmem)
  show (xs.map f).mapM read = some xs
  clear hx hn hdepth
  induction xs with
  | nil => rfl
  | cons x xs ih =>
    obtain ⟨hx, hxs⟩ := List.forall_mem_cons.mp hread
    rw [List.map_cons, List.mapM_cons, hx, ih hxs]
    rfl

/-- Reads a value that may be `null`. -/
def orNull? (read : Json → Option α) : Json → Option (Option α)
  | null => some none
  | v => (read v).map some

theorem Record.optional_eq (r : Record) (field : String) :
    r.optional field read = (r.given.lookup field).elim (some none) (orNull? read) := by
  unfold Record.optional
  cases r.given.lookup field with
  | none => rfl
  | some v => cases v <;> rfl

theorem Record.nullable_object (given : List (String × Json)) (field : String) :
    Record.nullable ⟨given, false⟩ field read =
      (given.lookup field).elim (some none) (orNull? read) :=
  Record.optional_eq ⟨given, false⟩ field

/-- What may be absent is read back where `null` may stand, if it is never written as `null`. -/
theorem orNull?_option {a : Option α} (ha : ∀ x ∈ a, f x ≠ null ∧ read (f x) = some x) :
    orNull? read (option f a) = some a := by
  cases a with
  | none => rfl
  | some x =>
    obtain ⟨hne, hread⟩ := ha x rfl
    rw [option, orNull?, hread, Option.map_some]
    exact hne

theorem orNull?_text? (a : Option String) : orNull? str? (text? a) = some a :=
  orNull?_option fun _ _ => ⟨Json.noConfusion, rfl⟩

/-- The name of a form is found, and the other fields are left. -/
theorem form?_tagged (kind : String) {fields : List (String × Json)}
    (h : fields.all (·.1 != "kind") = true) :
    (tagged kind fields).form? = some (str kind, obj fields) := by
  have hall := List.all_eq_true.mp h
  have hnone : fields.filter (·.1 == "kind") = [] :=
    List.filter_eq_nil_iff.mpr fun f hf => by simpa using hall f hf
  have hrest : fields.filter (·.1 != "kind") = fields := List.filter_eq_self.mpr hall
  simp [form?, tagged, hnone, hrest]

end Json

end ApiSurface
