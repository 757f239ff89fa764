import ApiSurface.Extraction.Locations
import ApiSurface.Proofs.ClosedGraph
import Mathlib
/-!
Homes: the modules in which exported symbols are shown. A home is an entrypoint or has a home
itself, so the homes above a symbol lead to an entrypoint or in a circle.
-/
namespace ApiSurface

/-- The symbol that is `n` homes above another one, if there are so many. -/
def homeAbove? (t : Table SymbolId ExportLocation) : ℕ → SymbolId → Option SymbolId
  | 0, id => some id
  | n+1, id => (t.get? id).bind fun l => homeAbove? t n l.parent

variable {t : Table SymbolId ExportLocation} {id : SymbolId}

theorem homeAbove?_add (m n : ℕ) (id : SymbolId) :
    homeAbove? t (m+n) id = (homeAbove? t m id).bind (homeAbove? t n) := by
  induction m generalizing id with
  | zero => rw [Nat.zero_add, homeAbove?, Option.bind_some]
  | succ m ih =>
    rw [Nat.succ_add, homeAbove?, homeAbove?, Option.bind_assoc]
    exact Option.bind_congr fun l _ => ih l.parent

/-- What lies above itself is met again and again. -/
theorem homeAbove?_mul {b : SymbolId} {n m : ℕ} (hb : homeAbove? t n id = some b)
    (hcircle : homeAbove? t (m+1) b = some b) (j : ℕ) :
    homeAbove? t (n + j*(m+1)) id = some b := by
  induction j with
  | zero => rw [Nat.zero_mul, Nat.add_zero, hb]
  | succ j ih => rw [Nat.succ_mul, ← Nat.add_assoc, homeAbove?_add, ih, Option.bind_some, hcircle]

/-- If there is always one more home, then some home lies above itself: there are only so many. -/
theorem exists_circle (h : ∀ n, ∃ b ∈ t.keys, homeAbove? t n id = some b) :
    ∃ n b m, homeAbove? t n id = some b ∧ homeAbove? t (m+1) b = some b := by
  choose above hkeys habove using h
  have hcard : t.keys.toFinset.card < (Finset.range (t.keys.length+1)).card := by
    rw [Finset.card_range]
    exact Nat.lt_succ_of_le t.keys.toFinset_card_le
  -- two of the first steps lead to the same home
  obtain ⟨i, -, j, -, hne, heq⟩ := Finset.exists_ne_map_eq_of_card_lt_of_maps_to hcard
    (fun n _ => List.mem_toFinset.mpr (hkeys n))
  have hcircle {i j : ℕ} (hlt : i < j) (heq : above i = above j) :
      homeAbove? t (j - i - 1 + 1) (above i) = some (above i) := by
    have hj := habove j
    rw [show j = i + (j - i - 1 + 1) by omega, homeAbove?_add, habove i, Option.bind_some] at hj
    rw [hj, heq]
    congr
    omega
  rcases Nat.lt_or_gt_of_ne hne with hlt | hlt
  · exact ⟨i, above i, j - i - 1, habove i, hcircle hlt heq⟩
  · exact ⟨j, above j, i - j - 1, habove j, hcircle hlt heq.symm⟩

namespace Graph

variable {g : Graph} {p : Program}

/-- What is known at every point of the scan. -/
structure Scanned (g : Graph) (scan : ExportScan) : Prop where
  queue : ∀ id ∈ scan.queue.toList, id ∈ g.roots.map (·.id) ∨ id ∈ scan.best.keys
  parent : ∀ id site, scan.best.get? id = some site → site.location.parent ∈ scan.queue.toList
  handle : ∀ id ∈ scan.best.keys, id ∈ g.handles.keys
  notRoot : ∀ id ∈ scan.best.keys, id ∉ g.roots.map (·.id)
  distinct : scan.best.keys.Nodup

/-- Where symbols are shown: in an entrypoint, or in what is shown somewhere itself. -/
structure Homes (g : Graph) (t : Table SymbolId ExportLocation) : Prop where
  parent : ∀ id l, t.get? id = some l → l.parent ∈ g.roots.map (·.id) ∨ l.parent ∈ t.keys
  handle : ∀ id ∈ t.keys, id ∈ g.handles.keys
  notRoot : ∀ id ∈ t.keys, id ∉ g.roots.map (·.id)
  distinct : t.keys.Nodup

/-- A module comes to the queue once. -/
theorem mem_queue_push {queue : Array SymbolId} {c : Bool} {target id : SymbolId} :
    (id ∈ (if c && !queue.contains target then queue.push target else queue).toList →
      id = target ∨ id ∈ queue.toList) ∧
      (id ∈ queue.toList →
        id ∈ (if c && !queue.contains target then queue.push target else queue).toList) := by
  split
  · simp only [Array.toList_push, List.mem_append, List.mem_singleton]
    tauto
  · exact ⟨Or.inr, fun h => h⟩

/-- A symbol that is met has a best export, whether or not it is the one just met. -/
theorem best_of_met {best : Table SymbolId ExportSite} (hd : best.keys.Nodup) {target : SymbolId}
    (better : Bool) (hworse : better = false → target ∈ best.keys) (site : ExportSite) :
    (∀ id, id ∈ (if better then best.insert target site else best).keys ↔
      id = target ∨ id ∈ best.keys) ∧
      (∀ id other, (if better then best.insert target site else best).get? id = some other →
        other = site ∨ best.get? id = some other) ∧
      (if better then best.insert target site else best).keys.Nodup := by
  cases better with
  | true =>
    refine ⟨fun id => Table.mem_keys_insert, fun id other ho => ?_, Table.keys_insert_nodup hd _ _⟩
    rw [if_pos rfl, Table.get?_insert] at ho
    split at ho
    · exact Or.inl (Option.some.inj ho).symm
    · exact Or.inr ho
  | false =>
    refine ⟨fun id => ⟨Or.inr, ?_⟩, fun id other => Or.inr, hd⟩
    rintro (rfl | hid)
    · exact hworse rfl
    · exact hid

/-- An export that is no better than what is known is not the first. -/
theorem mem_keys_of_worse {best : Table SymbolId ExportSite} {target : SymbolId}
    {site : ExportSite}
    (h : (match best.get? target with
      | some current => site.beats current
      | none => true) = false) : target ∈ best.keys := by
  cases hcurrent : best.get? target with
  | none =>
    rw [hcurrent] at h
    exact absurd h (by simp)
  | some current => exact Table.mem_keys_of_get? hcurrent

/-- An export of a module of the queue keeps what is known, and takes nothing from the queue. -/
theorem Scanned.scanExport {scan : ExportScan} (h : g.Scanned scan) {parent : SymbolId}
    (hparent : parent ∈ scan.queue.toList) (moduleLevel : Bool) (pathLength : ℕ)
    (export_ : String × SymbolId) :
    g.Scanned (g.scanExport p parent moduleLevel pathLength scan export_) ∧
      scan.queue.toList ⊆
        (g.scanExport p parent moduleLevel pathLength scan export_).queue.toList := by
  obtain ⟨exportName, target⟩ := export_
  unfold Graph.scanExport
  dsimp only
  split
  · exact ⟨h, List.Subset.refl _⟩
  split
  · exact ⟨h, List.Subset.refl _⟩
  next s hs hroot =>
    let site : ExportSite := ⟨⟨exportName, parent⟩, moduleLevel, pathLength, scan.order⟩
    have htarget : target ∉ g.roots.map (·.id) := by
      intro hmem
      obtain ⟨r, hr, heq⟩ := List.mem_map.mp hmem
      exact hroot (List.any_eq_true.mpr ⟨r, hr, beq_iff_eq.mpr heq⟩)
    obtain ⟨hkeys, hget, hd⟩ := best_of_met h.distinct _ mem_keys_of_worse site
    refine ⟨?_, fun id => mem_queue_push.2⟩
    constructor
    case queue =>
      intro id hid
      rcases mem_queue_push.1 hid with rfl | hid
      · exact Or.inr ((hkeys id).mpr (Or.inl rfl))
      · exact (h.queue id hid).imp (fun hr => hr) fun hb => (hkeys id).mpr (Or.inr hb)
    case parent =>
      intro id other ho
      apply mem_queue_push.2
      rcases hget id other ho with rfl | ho
      · exact hparent
      · exact h.parent id other ho
    case handle =>
      intro id hid
      rcases (hkeys id).mp hid with rfl | hid
      · exact Table.mem_keys_of_get? hs
      · exact h.handle id hid
    case notRoot =>
      intro id hid
      rcases (hkeys id).mp hid with rfl | hid
      · exact htarget
      · exact h.notRoot id hid
    case distinct => exact hd

theorem Scanned.foldl_scanExport {scan : ExportScan} (h : g.Scanned scan) {parent : SymbolId}
    (hparent : parent ∈ scan.queue.toList) (moduleLevel : Bool) (pathLength : ℕ)
    (exports : Table String SymbolId) :
    g.Scanned (exports.foldl (g.scanExport p parent moduleLevel pathLength) scan) := by
  induction exports generalizing scan with
  | nil => exact h
  | cons e exports ih =>
    obtain ⟨hnext, hsub⟩ := h.scanExport (p := p) hparent moduleLevel pathLength e
    exact ih hnext (hsub hparent)

/-- The whole scan keeps what is known, whatever the program answers about exports. -/
theorem Scanned.scanFrom {scan : ExportScan} (h : g.Scanned scan) (n i : ℕ)
    (memory : Program.Memory) : g.Scanned (g.scanFrom p n i scan memory).1 := by
  induction n generalizing scan i memory with
  | zero => exact h
  | succ n ih =>
    unfold Graph.scanFrom
    cases hparent : scan.queue[i]? with
    | none => exact h
    | some parent =>
      have hmem : parent ∈ scan.queue.toList := by
        rw [← Array.getElem?_toList] at hparent
        exact List.mem_of_getElem? hparent
      dsimp only
      cases g.handles.get? parent with
      | none => exact ih h _ _
      | some s => exact ih (h.foldl_scanExport hmem _ _ _) _ _

theorem get?_map_location {best : Table SymbolId ExportSite} (id : SymbolId) :
    Table.get? (best.map fun (id, site) => (id, site.location)) id =
      (best.get? id).map (·.location) := by
  induction best with
  | nil => rfl
  | cons entry best ih =>
    obtain ⟨k, site⟩ := entry
    simp only [Table.get?, List.map_cons, List.lookup_cons] at ih ⊢
    cases id == k
    · exact ih
    · rfl

theorem keys_map_location (best : Table SymbolId ExportSite) :
    Table.keys (best.map fun (id, site) => (id, site.location)) = best.keys := by
  simp [Table.keys]

theorem get?_sorted_location {best : Table SymbolId ExportSite} (hd : best.keys.Nodup)
    (id : SymbolId) :
    (Table.sorted (best.map fun (id, site) => (id, site.location))).get? id =
      (best.get? id).map (·.location) :=
  (Table.get?_sorted (keys_map_location best ▸ hd) id).trans (get?_map_location id)

/-- Where the scan shows symbols, whatever the program was asked before. -/
theorem locations_homes (g : Graph) (p : Program) (memory : Program.Memory) :
    g.Homes (g.locations p memory).1 := by
  let roots := (g.roots.map (·.id)).toArray
  let scan := (g.scanFrom p (roots.size + g.handles.length) 0 ⟨roots, [], 0⟩ memory).1
  have hstart : g.Scanned ⟨roots, [], 0⟩ :=
    ⟨fun id hid => Or.inl (by simpa [roots] using hid),
      fun id site hs => absurd hs (by simp [Table.get?]), by simp [Table.keys],
      by simp [Table.keys], by simp [Table.keys]⟩
  have h : g.Scanned scan := hstart.scanFrom _ 0 memory
  have hkeys := keys_map_location scan.best
  have hmem {id : SymbolId} : id ∈ (g.locations p memory).1.keys ↔ id ∈ scan.best.keys := by
    rw [← hkeys]
    exact Table.mem_keys_sorted
  constructor
  case parent =>
    intro id l hl
    have hl : (scan.best.get? id).map (·.location) = some l :=
      (get?_sorted_location h.distinct id).symm.trans hl
    obtain ⟨site, hsite, rfl⟩ := Option.map_eq_some_iff.mp hl
    exact (h.queue _ (h.parent id site hsite)).imp (fun hr => hr) hmem.mpr
  case handle => exact fun id hid => h.handle id (hmem.mp hid)
  case notRoot => exact fun id hid => h.notRoot id (hmem.mp hid)
  case distinct => exact Table.keys_sorted_nodup (hkeys ▸ h.distinct)

/-- There is no home above an entrypoint. -/
theorem Homes.homeAbove?_root (h : g.Homes t) (hid : id ∈ g.roots.map (·.id)) (n : ℕ) :
    homeAbove? t (n+1) id = none := by
  have hnone : t.get? id = none := by
    cases hl : t.get? id with
    | none => rfl
    | some l => exact absurd hid (h.notRoot id (Table.mem_keys_of_get? hl))
  rw [homeAbove?, hnone, Option.bind_none]

/-- As long as no entrypoint is met, there is one more home. -/
theorem Homes.exists_homeAbove? (h : g.Homes t) (hid : id ∈ t.keys) {n : ℕ}
    (hn : ∀ k ≤ n, ∀ r ∈ g.roots.map (·.id), homeAbove? t k id ≠ some r) :
    ∃ b ∈ t.keys, homeAbove? t n id = some b := by
  induction n with
  | zero => exact ⟨id, hid, rfl⟩
  | succ n ih =>
    obtain ⟨b, hb, hn'⟩ := ih fun k hk => hn k (by omega)
    obtain ⟨l, hl⟩ := Table.mem_keys_iff.mp hb
    have habove : homeAbove? t (n+1) id = some l.parent := by
      rw [homeAbove?_add, hn', Option.bind_some, homeAbove?, hl]
      rfl
    rcases h.parent b l hl with hr | hp
    · exact absurd habove (hn (n+1) le_rfl _ hr)
    · exact ⟨l.parent, hp, habove⟩

/-- The homes above a symbol lead to an entrypoint exactly when none of them, nor the symbol, lies
above itself. -/
theorem Homes.grounded_iff (h : g.Homes t) (hid : id ∈ t.keys) :
    (∃ n, ∃ r ∈ g.roots.map (·.id), homeAbove? t n id = some r) ↔
      ∀ n b m, homeAbove? t n id = some b → homeAbove? t (m+1) b ≠ some b := by
  constructor
  · rintro ⟨n, r, hr, hn⟩ k b m hb hcircle
    -- the circle is met again after the entrypoint, above which there is nothing
    have hagain := homeAbove?_mul hb hcircle (n+1)
    have hlater : k + (n+1)*(m+1) = n + ((k + (n+1)*m) + 1) := by ring
    rw [hlater, homeAbove?_add, hn, Option.bind_some, h.homeAbove?_root hr] at hagain
    exact absurd hagain (by simp)
  · intro hcircle
    by_contra hn
    push Not at hn
    obtain ⟨n, b, m, hb, hm⟩ :=
      exists_circle fun n => h.exists_homeAbove? hid fun k _ r hr => hn k r hr
    exact hcircle n b m hb hm

end Graph

end ApiSurface
