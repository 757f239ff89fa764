import ApiSurface.Proofs.FreeNames
/-!
Every symbol of a graph has a name, and no two have the same. The invariant of a placement is that
all names in use are noted as taken and that no name is in use twice; giving a name that is not
taken keeps it, whichever rule proposed the name.
-/
namespace ApiSurface

namespace Placement

/-- All names in use are noted as taken, and none is in use twice. -/
structure Distinct (s : Placement) : Prop where
  keys_nodup : s.placed.keys.Nodup
  taken : ∀ id n, s.placed.get? id = some n → n ∈ s.taken
  injective : ∀ a b n, s.placed.get? a = some n → s.placed.get? b = some n → a = b

theorem distinct_empty : Distinct ⟨[], [], []⟩ :=
  ⟨by simp [Table.keys], by simp [Table.get?], by simp [Table.get?]⟩

theorem Distinct.place {s : Placement} (h : s.Distinct) {c : Candidate}
    (hc : c.name ∉ s.taken) : (s.place c).Distinct where
  keys_nodup := Table.keys_insert_nodup h.keys_nodup _ _
  taken id n hn := by
    by_cases hid : id = c.id
    · subst hid
      obtain rfl : c.name = n := by simpa [Placement.place] using hn
      exact List.mem_cons_self
    · simp only [Placement.place, Table.get?_insert_of_ne _ _ hid] at hn
      exact List.mem_cons_of_mem _ (h.taken id n hn)
  injective a b n ha hb := by
    simp only [Placement.place] at ha hb
    -- a name that was in use before is taken, so it is not the new one
    have hold (x : SymbolId) (hx : s.placed.get? x = some n) : n ≠ c.name :=
      fun he => hc (he ▸ h.taken x n hx)
    by_cases hac : a = c.id <;> by_cases hbc : b = c.id
    · exact hac.trans hbc.symm
    · subst hac
      rw [Table.get?_insert_self] at ha
      rw [Table.get?_insert_of_ne _ _ hbc] at hb
      exact absurd (Option.some.inj ha).symm (hold b hb)
    · subst hbc
      rw [Table.get?_insert_self] at hb
      rw [Table.get?_insert_of_ne _ _ hac] at ha
      exact absurd (Option.some.inj hb).symm (hold a ha)
    · rw [Table.get?_insert_of_ne _ _ hac] at ha
      rw [Table.get?_insert_of_ne _ _ hbc] at hb
      exact h.injective a b n ha hb

theorem Distinct.foldl_place {s : Placement} (h : s.Distinct) {cs : List Candidate}
    (hd : (cs.map (·.name)).Nodup) (hf : ∀ c ∈ cs, c.name ∉ s.taken) :
    (cs.foldl Placement.place s).Distinct := by
  induction cs generalizing s with
  | nil => exact h
  | cons c cs ih =>
    obtain ⟨hc, hd⟩ := List.nodup_cons.mp hd
    refine ih (h.place (hf c List.mem_cons_self)) hd fun a ha ht => ?_
    rcases List.mem_cons.mp ht with he | ht
    · exact hc (List.mem_map.mpr ⟨a, ha, he⟩)
    · exact hf a (List.mem_cons_of_mem _ ha) ht

theorem Distinct.placeAll {s : Placement} (h : s.Distinct) (cs : List Candidate) :
    (s.placeAll cs).Distinct :=
  h.foldl_place (distinctNames_distinct s.taken cs).1 (distinctNames_distinct s.taken cs).2

theorem nodup_foldl_place {s : Placement} (h : s.placed.keys.Nodup) (cs : List Candidate) :
    (cs.foldl place s).placed.keys.Nodup :=
  List.foldlRecOn cs place h fun _ h c _ => Table.keys_insert_nodup h c.id c.name

theorem mem_keys_foldl_place (cs : List Candidate) (s : Placement) (id : SymbolId) :
    id ∈ (cs.foldl place s).placed.keys ↔ id ∈ s.placed.keys ∨ ∃ c ∈ cs, c.id = id := by
  induction cs generalizing s with
  | nil => simp
  | cons c cs ih =>
    rw [List.foldl_cons, ih, place, Table.mem_keys_insert]
    simp only [List.mem_cons, exists_eq_or_imp, eq_comm (a := id)]
    tauto

/-- A symbol has the name that it had before or one that a candidate brought. -/
theorem get?_foldl_place {cs : List Candidate} {s : Placement} {id : SymbolId} {n : String}
    (h : (cs.foldl place s).placed.get? id = some n) :
    (s.placed.get? id = some n ∧ ∀ c ∈ cs, c.id ≠ id) ∨ ∃ c ∈ cs, c.id = id ∧ c.name = n := by
  induction cs generalizing s with
  | nil => exact Or.inl ⟨h, by simp⟩
  | cons c cs ih =>
    rcases ih h with ⟨hold, hne⟩ | ⟨a, ha, hid, hn⟩
    · by_cases hc : id = c.id
      · subst hc
        have hn : c.name = n := by simpa [place] using hold
        exact Or.inr ⟨c, List.mem_cons_self, rfl, hn⟩
      · rw [place, Table.get?_insert_of_ne _ _ hc] at hold
        exact Or.inl ⟨hold, List.forall_mem_cons.mpr ⟨Ne.symm hc, hne⟩⟩
    · exact Or.inr ⟨a, List.mem_cons_of_mem _ ha, hid, hn⟩

theorem get?_foldl_place_of_ne {cs : List Candidate} {s : Placement} {id : SymbolId}
    (h : ∀ c ∈ cs, c.id ≠ id) :
    (cs.foldl place s).placed.get? id = s.placed.get? id := by
  induction cs generalizing s with
  | nil => rfl
  | cons c cs ih =>
    obtain ⟨hc, hcs⟩ := List.forall_mem_cons.mp h
    rw [List.foldl_cons, ih hcs, place, Table.get?_insert_of_ne _ _ hc.symm]

theorem mem_keys_placeAll {s : Placement} {cs : List Candidate} {id : SymbolId} :
    id ∈ (s.placeAll cs).placed.keys ↔ id ∈ s.placed.keys ∨ ∃ c ∈ cs, c.id = id := by
  rw [placeAll, mem_keys_foldl_place]
  refine or_congr_right ⟨?_, ?_⟩
  · rintro ⟨given, hg, rfl⟩
    obtain ⟨c, hc, hn⟩ := exists_candidate_of_mem hg
    exact ⟨c, hc, hn.id_eq.symm⟩
  · rintro ⟨c, hc, rfl⟩
    obtain ⟨given, hg, hn⟩ := exists_namedAs_of_mem s.taken hc
    exact ⟨given, hg, hn.id_eq⟩

theorem get?_placeAll_of_ne {s : Placement} {cs : List Candidate} {id : SymbolId}
    (h : ∀ c ∈ cs, c.id ≠ id) : (s.placeAll cs).placed.get? id = s.placed.get? id := by
  refine get?_foldl_place_of_ne fun given hg => ?_
  obtain ⟨c, hc, hn⟩ := exists_candidate_of_mem hg
  exact hn.id_eq ▸ h c hc

end Placement

namespace Graph

variable {g : Graph} {locations : Table SymbolId ExportLocation}

theorem mem_unnamed {s : Placement} {id : SymbolId} :
    id ∈ g.unnamed s ↔ id ∈ g.symbols.keys ∧ id ∉ s.placed.keys := by
  simp only [unnamed, List.mem_filter, Bool.not_eq_true', ← Bool.not_eq_true, Table.has_iff]

/-- The candidates of a round. -/
def candidates (g : Graph) (locations : Table SymbolId ExportLocation) (s : Placement) :
    List Candidate := (g.unnamed s).filterMap (g.candidate? locations s.placed)

theorem candidate?_id {placed : Table SymbolId String} {id : SymbolId} {c : Candidate}
    (h : g.candidate? locations placed id = some c) : c.id = id := by
  unfold candidate? at h
  split at h
  · obtain ⟨_, _, rfl⟩ := Option.map_eq_some_iff.mp h
    rfl
  · split at h
    · obtain ⟨_, _, rfl⟩ := Option.map_eq_some_iff.mp h
      rfl
    · obtain ⟨_, _, h⟩ := Option.bind_eq_some_iff.mp h
      obtain ⟨_, _, h⟩ := Option.bind_eq_some_iff.mp h
      exact (Option.some.inj h) ▸ rfl

theorem mem_unnamed_of_mem_candidates {s : Placement} {c : Candidate}
    (h : c ∈ g.candidates locations s) : c.id ∈ g.unnamed s := by
  obtain ⟨id, hid, hc⟩ := List.mem_filterMap.mp h
  exact (candidate?_id hc).symm ▸ hid

/-- One round of naming. -/
def round (g : Graph) (locations : Table SymbolId ExportLocation) (s : Placement) : Placement :=
  s.placeAll (g.candidates locations s)

theorem round_of_candidates_nil {s : Placement} (h : g.candidates locations s = []) :
    g.round locations s = s := by
  simp [round, h, Placement.placeAll, distinctNames]

/-- To stop at a round that names nothing is to go through all rounds. -/
theorem placeRounds_eq_iterate (n : ℕ) (s : Placement) :
    g.placeRounds locations n s = (g.round locations)^[n] s := by
  induction n generalizing s with
  | zero => rfl
  | succ n ih =>
    unfold placeRounds
    split
    · next hstop => exact (Function.iterate_fixed (round_of_candidates_nil hstop) (n+1)).symm
    · rw [Function.iterate_succ_apply, ← ih]
      rfl

/-- What every round takes one step further holds `n` steps further after `n` rounds. -/
theorem placeRounds_counted {P : ℕ → Placement → Prop}
    (hround : ∀ j s, P j s → P (j+1) (s.placeAll (g.candidates locations s))) (n : ℕ) {j : ℕ}
    {s : Placement} (hs : P j s) : P (j+n) (g.placeRounds locations n s) := by
  rw [placeRounds_eq_iterate]
  induction n with
  | zero => exact hs
  | succ n ih =>
    rw [Function.iterate_succ_apply']
    exact hround (j+n) _ ih

/-- What every round keeps holds after all rounds. -/
theorem placeRounds_induction {P : Placement → Prop}
    (hround : ∀ s, P s → P (s.placeAll (g.candidates locations s))) (n : ℕ) {s : Placement}
    (hs : P s) : P (g.placeRounds locations n s) :=
  placeRounds_counted (P := fun _ => P) (j := 0) (fun _ => hround) n hs

/-- A name that is given stays. -/
theorem get?_placeAll_of_placed {s : Placement} {cs : List Candidate} {id : SymbolId} {n : String}
    (hcs : ∀ c ∈ cs, c.id ∈ g.unnamed s) (h : s.placed.get? id = some n) :
    (s.placeAll cs).placed.get? id = some n := by
  rw [Placement.get?_placeAll_of_ne, h]
  rintro c hc rfl
  exact (mem_unnamed.mp (hcs c hc)).2 (Table.mem_keys_of_get? h)

theorem get?_placeRounds_of_placed {s : Placement} {id : SymbolId} {n : String} (k : ℕ)
    (h : s.placed.get? id = some n) : (g.placeRounds locations k s).placed.get? id = some n :=
  placeRounds_induction (P := fun s => s.placed.get? id = some n)
    (fun _ hs => get?_placeAll_of_placed (fun _ => mem_unnamed_of_mem_candidates) hs) k h

/-- A root under its specifier. -/
def rootCandidate (r : RootModule) : Candidate := ⟨r.id, r.specifier, none⟩

theorem rootPlacement_eq (g : Graph) :
    g.rootPlacement = (g.roots.map rootCandidate).foldl Placement.place ⟨[], [], []⟩ := by
  rw [List.foldl_map]
  rfl

theorem rootPlacement_distinct (hs : (g.roots.map (·.specifier)).Nodup) :
    g.rootPlacement.Distinct := by
  rw [rootPlacement_eq]
  refine Placement.distinct_empty.foldl_place ?_ (by simp)
  rwa [List.map_map]

theorem mem_keys_rootPlacement {id : SymbolId} :
    id ∈ g.rootPlacement.placed.keys ↔ ∃ r ∈ g.roots, r.id = id := by
  rw [rootPlacement_eq, Placement.mem_keys_foldl_place]
  simp [rootCandidate, Table.keys]

theorem exists_root_of_rootPlacement {id : SymbolId} {n : String}
    (h : g.rootPlacement.placed.get? id = some n) : ∃ r ∈ g.roots, r.id = id ∧ r.specifier = n := by
  rw [rootPlacement_eq] at h
  rcases Placement.get?_foldl_place h with ⟨h, -⟩ | ⟨c, hc, hid, hn⟩
  · simp [Table.get?] at h
  · obtain ⟨r, hr, rfl⟩ := List.mem_map.mp hc
    exact ⟨r, hr, hid, hn⟩

theorem rootPlacement_get? (hids : (g.roots.map (·.id)).Nodup) {r : RootModule} (hr : r ∈ g.roots) :
    g.rootPlacement.placed.get? r.id = some r.specifier := by
  obtain ⟨n, hn⟩ := Table.mem_keys_iff.mp (mem_keys_rootPlacement.mpr ⟨r, hr, rfl⟩)
  obtain ⟨a, ha, hid, rfl⟩ := exists_root_of_rootPlacement hn
  obtain rfl := List.inj_on_of_nodup_map hids ha hr hid
  exact hn

/-- The placement after the rounds, before what is left gets its bare name. -/
def settled (g : Graph) (locations : Table SymbolId ExportLocation) : Placement :=
  g.placeRounds locations placementRounds g.rootPlacement

/-- What is left, under bare names. -/
def leftovers (g : Graph) (s : Placement) : List Candidate :=
  (g.unnamed s).map fun id => ⟨id, g.nameOf id, none⟩

theorem mem_unnamed_of_mem_leftovers {s : Placement} {c : Candidate} (h : c ∈ g.leftovers s) :
    c.id ∈ g.unnamed s := by
  obtain ⟨id, hid, rfl⟩ := List.mem_map.mp h
  exact hid

/-- The placement of all symbols. -/
def placement (g : Graph) (locations : Table SymbolId ExportLocation) : Placement :=
  (g.settled locations).placeAll (g.leftovers (g.settled locations))

theorem identifiers_eq (g : Graph) (locations : Table SymbolId ExportLocation) :
    (g.identifiers locations).identifiers = (g.placement locations).placed.sorted := rfl

theorem placement_distinct (hs : (g.roots.map (·.specifier)).Nodup) :
    (g.placement locations).Distinct :=
  (placeRounds_induction (P := Placement.Distinct) (fun _ h => h.placeAll _) _
    (rootPlacement_distinct hs)).placeAll _

/-- Every symbol has at most one name, also if specifiers are given twice. -/
theorem placement_nodup (g : Graph) (locations : Table SymbolId ExportLocation) :
    (g.placement locations).placed.keys.Nodup := by
  have hroot : g.rootPlacement.placed.keys.Nodup := by
    rw [rootPlacement_eq]
    exact Placement.nodup_foldl_place Placement.distinct_empty.keys_nodup _
  have hsettled : (g.settled locations).placed.keys.Nodup :=
    placeRounds_induction (P := fun s => s.placed.keys.Nodup)
      (fun _ hs => Placement.nodup_foldl_place hs _) _ hroot
  exact Placement.nodup_foldl_place hsettled _

/-- The names that are given in the end are those of the placement. -/
theorem identifiers_get? (g : Graph) (locations : Table SymbolId ExportLocation) (id : SymbolId) :
    (g.identifiers locations).identifiers.get? id = (g.placement locations).placed.get? id :=
  Table.get?_sorted (placement_nodup g locations) id

theorem mem_keys_settled (hroots : ∀ r ∈ g.roots, r.id ∈ g.symbols.keys) {id : SymbolId}
    (h : id ∈ (g.settled locations).placed.keys) : id ∈ g.symbols.keys := by
  revert id
  refine placeRounds_induction (P := fun s => ∀ {id}, id ∈ s.placed.keys → id ∈ g.symbols.keys)
    (fun s hs id h => ?_) placementRounds fun {id} h => ?_
  · rcases Placement.mem_keys_placeAll.mp h with h | ⟨c, hc, rfl⟩
    · exact hs h
    · exact (mem_unnamed.mp (mem_unnamed_of_mem_candidates hc)).1
  · obtain ⟨r, hr, rfl⟩ := mem_keys_rootPlacement.mp h
    exact hroots r hr

theorem mem_keys_placement (hroots : ∀ r ∈ g.roots, r.id ∈ g.symbols.keys) {id : SymbolId} :
    id ∈ (g.placement locations).placed.keys ↔ id ∈ g.symbols.keys := by
  rw [placement, Placement.mem_keys_placeAll]
  constructor
  · rintro (h | ⟨c, hc, rfl⟩)
    · exact mem_keys_settled hroots h
    · exact (mem_unnamed.mp (mem_unnamed_of_mem_leftovers hc)).1
  · intro h
    by_cases hp : id ∈ (g.settled locations).placed.keys
    · exact Or.inl hp
    · exact Or.inr ⟨_, List.mem_map.mpr ⟨id, mem_unnamed.mpr ⟨h, hp⟩, rfl⟩, rfl⟩

theorem placement_get?_of_settled {id : SymbolId} {n : String}
    (h : (g.settled locations).placed.get? id = some n) :
    (g.placement locations).placed.get? id = some n :=
  get?_placeAll_of_placed (fun _ => mem_unnamed_of_mem_leftovers) h

/-- Naming ends with a name for every symbol and for nothing else; the roots keep their specifiers
and no two symbols share a name. The search for a number ends at the least free one, however many
names with numbers are taken. -/
theorem identifiers_total_injective (g : Graph) (locations : Table SymbolId ExportLocation)
    (hids : (g.roots.map (·.id)).Nodup) (hspecifiers : (g.roots.map (·.specifier)).Nodup)
    (hroots : ∀ r ∈ g.roots, r.id ∈ g.symbols.keys) :
    (∀ id, id ∈ (g.identifiers locations).identifiers.keys ↔ id ∈ g.symbols.keys) ∧
      (g.identifiers locations).identifiers.keys.Nodup ∧
      (∀ r ∈ g.roots, (g.identifiers locations).identifiers.get? r.id = some r.specifier) ∧
      (∀ a b n, (g.identifiers locations).identifiers.get? a = some n →
        (g.identifiers locations).identifiers.get? b = some n → a = b) ∧
      ∀ taken name, ∃ k, freeName taken name = numbered name k ∧ 1 ≤ k ∧ k ≤ taken.length+1 ∧
        numbered name k ∉ taken ∧ ∀ j, 1 ≤ j → j < k → numbered name j ∈ taken := by
  have hd : (g.placement locations).Distinct := placement_distinct hspecifiers
  refine ⟨fun id => ?_, Table.keys_sorted_nodup (placement_nodup g locations), fun r hr => ?_,
    fun a b n ha hb => ?_, freeName_eq_numbered⟩
  · rw [identifiers_eq, Table.mem_keys_sorted, mem_keys_placement hroots]
  · rw [identifiers_get?]
    exact placement_get?_of_settled (get?_placeRounds_of_placed _ (rootPlacement_get? hids hr))
  · rw [identifiers_get?] at ha hb
    exact hd.injective a b n ha hb

/-- Three symbols are exported under names of which one looks like a numbered form of another. -/
def lookalikes : Graph where
  roots := [⟨"pkg", "index.ts:0"⟩]
  symbols := [("index.ts:0", ⟨"index", none, .module []⟩), ("c.ts:9", ⟨"Old", none, .function []⟩),
    ("b.ts:9", ⟨"New", none, .function []⟩), ("a.ts:9", ⟨"Options", none, .function []⟩)]
  handles := []
  references := [("c.ts:9", ["index.ts:0"])]
  externals := []

theorem lookalikes_names_distinct :
    let locations : Table SymbolId ExportLocation := [("a.ts:9", ⟨"Options", "index.ts:0"⟩),
      ("b.ts:9", ⟨"Options", "index.ts:0"⟩), ("c.ts:9", ⟨"Options-1", "index.ts:0"⟩)]
    let names := (lookalikes.identifiers locations).identifiers
    (lookalikes.roots.map (·.id)).Nodup ∧ (lookalikes.roots.map (·.specifier)).Nodup ∧
      (∀ r ∈ lookalikes.roots, r.id ∈ lookalikes.symbols.keys) ∧
      (∀ id, id ∈ names.keys ↔ id ∈ lookalikes.symbols.keys) ∧
      ∀ a b n, names.get? a = some n → names.get? b = some n → a = b := by
  intro locations names
  have hids : (lookalikes.roots.map (·.id)).Nodup := by decide
  have hspecifiers : (lookalikes.roots.map (·.specifier)).Nodup := by decide
  have hroots : ∀ r ∈ lookalikes.roots, r.id ∈ lookalikes.symbols.keys := by decide
  obtain ⟨hkeys, -, -, hinjective, -⟩ :=
    identifiers_total_injective lookalikes locations hids hspecifiers hroots
  exact ⟨hids, hspecifiers, hroots, hkeys, hinjective⟩

end Graph

end ApiSurface
