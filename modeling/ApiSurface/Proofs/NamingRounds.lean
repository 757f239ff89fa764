import ApiSurface.Proofs.GroundedNames
/-!
The rounds of naming. Going on after a round that names nothing changes nothing, so the placement
after `n` rounds is the `n`-th iterate of one round, and a symbol without a name in one round that
has one in the next was named by a candidate of that round.
-/
namespace ApiSurface

namespace Table

variable {κ α : Type} [BEq κ] [LawfulBEq κ]

/-- A member added behind those of a key is added to all members. -/
theorem flatMap_insert_append_perm (t : Table κ (List α)) (key : κ) (x : α) :
    ((t.insert key ((t.get? key).getD [] ++ [x])).flatMap (·.2)).Perm (x :: t.flatMap (·.2)) := by
  induction t with
  | nil => simp [insert, get?]
  | cons entry rest ih =>
    obtain ⟨k, members⟩ := entry
    by_cases hk : key = k
    · subst hk
      simp [insert, get?]
    · have hget : Table.get? ((k, members) :: rest) key = Table.get? rest key := by
        rw [get?, List.lookup_cons, beq_false_of_ne hk, get?]
      have htail := ih.append_left members
      rw [hget]
      simpa [insert, hk] using htail.trans List.perm_middle

end Table

namespace Naming

/-- The first pass drops no candidate and adds none. -/
theorem foldl_keep_perm (cs : List Candidate) (s : Naming) :
    ((cs.foldl keep s).named ++ (cs.foldl keep s).waiting).Perm (s.named ++ s.waiting ++ cs) := by
  induction cs generalizing s with
  | nil => simp
  | cons c cs ih =>
    have hstep : ((s.keep c).named ++ (s.keep c).waiting).Perm (s.named ++ s.waiting ++ [c]) := by
      unfold keep
      split
      · simp
      · have hlast := (List.perm_append_singleton c s.waiting).symm
        simpa using hlast.append_left s.named
    have hall := (ih (s.keep c)).trans (hstep.append_right cs)
    simpa using hall

theorem foldl_number_ids (ws : List Candidate) (s : Naming) :
    (ws.foldl number s).named.map (·.id) = s.named.map (·.id) ++ ws.map (·.id) := by
  induction ws generalizing s with
  | nil => simp
  | cons w ws ih => simp [ih, number]

end Naming

/-- The candidates that get names are those that there are. -/
theorem distinctNames_ids_perm (taken : List String) (cs : List Candidate) :
    ((distinctNames taken cs).map (·.id)).Perm (cs.map (·.id)) := by
  have hkept := Naming.foldl_keep_perm (cs.mergeSort Candidate.le) ⟨taken, [], []⟩
  simp only [List.append_nil, List.nil_append] at hkept
  rw [distinctNames, Naming.foldl_number_ids, ← List.map_append]
  exact (hkept.trans (List.mergeSort_perm cs _)).map _

namespace Placement

/-- The symbols that are shown as part of another one. -/
def shown (s : Placement) (owner : SymbolId) : List SymbolId := (s.inner.get? owner).getD []

theorem mem_shown_place {s : Placement} {c : Candidate} {owner id : SymbolId} :
    id ∈ (s.place c).shown owner ↔ id ∈ s.shown owner ∨ c.owner = some owner ∧ c.id = id := by
  cases hc : c.owner with
  | none => simp [shown, place, hc]
  | some o =>
    by_cases ho : owner = o
    · subst ho
      simp [shown, place, hc, eq_comm]
    · simp [shown, place, hc, Table.get?_insert_of_ne _ _ ho, Ne.symm ho]

theorem mem_shown_foldl_place (cs : List Candidate) {s : Placement} {owner id : SymbolId} :
    id ∈ (cs.foldl place s).shown owner ↔
      id ∈ s.shown owner ∨ ∃ c ∈ cs, c.owner = some owner ∧ c.id = id := by
  induction cs generalizing s with
  | nil => simp
  | cons c cs ih =>
    rw [List.foldl_cons, ih, mem_shown_place]
    simp only [List.mem_cons, exists_eq_or_imp]
    tauto

theorem mem_shown_placeAll {s : Placement} {cs : List Candidate} {owner id : SymbolId} :
    id ∈ (s.placeAll cs).shown owner ↔
      id ∈ s.shown owner ∨ ∃ c ∈ cs, c.owner = some owner ∧ c.id = id := by
  rw [placeAll, mem_shown_foldl_place]
  refine or_congr_right ⟨?_, ?_⟩
  · rintro ⟨given, hg, ho, rfl⟩
    obtain ⟨c, hc, hn⟩ := exists_candidate_of_mem hg
    exact ⟨c, hc, hn.owner_eq ▸ ho, hn.id_eq.symm⟩
  · rintro ⟨c, hc, ho, rfl⟩
    obtain ⟨given, hg, hn⟩ := exists_namedAs_of_mem s.taken hc
    exact ⟨given, hg, hn.owner_eq ▸ ho, hn.id_eq⟩

/-- Nothing is shown twice, or without a name. -/
structure ShownOnce (s : Placement) : Prop where
  owners : s.inner.keys.Nodup
  nodup : (s.inner.flatMap (·.2)).Nodup
  named : ∀ id ∈ s.inner.flatMap (·.2), id ∈ s.placed.keys

theorem ShownOnce.place {s : Placement} (h : s.ShownOnce) {c : Candidate}
    (hc : c.id ∉ s.placed.keys) : (s.place c).ShownOnce := by
  have hplaced {id : SymbolId} (hid : id = c.id ∨ id ∈ s.placed.keys) :
      id ∈ (s.place c).placed.keys :=
    Table.mem_keys_insert.mpr hid
  cases ho : c.owner with
  | none =>
    have hinner : (s.place c).inner = s.inner := by simp [Placement.place, ho]
    refine ⟨hinner ▸ h.owners, hinner ▸ h.nodup, fun id hid => hplaced (Or.inr ?_)⟩
    exact h.named id (hinner ▸ hid)
  | some owner =>
    have hinner : (s.place c).inner =
        s.inner.insert owner ((s.inner.get? owner).getD [] ++ [c.id]) := by
      simp [Placement.place, ho]
    have hperm := Table.flatMap_insert_append_perm s.inner owner c.id
    rw [← hinner] at hperm
    refine ⟨hinner ▸ Table.keys_insert_nodup h.owners _ _, ?_, fun id hid => hplaced ?_⟩
    · exact hperm.nodup_iff.mpr (List.nodup_cons.mpr ⟨fun hm => hc (h.named _ hm), h.nodup⟩)
    · exact (List.mem_cons.mp (hperm.mem_iff.mp hid)).imp_right (h.named id)

theorem ShownOnce.foldl_place {s : Placement} (h : s.ShownOnce) {cs : List Candidate}
    (hd : (cs.map (·.id)).Nodup) (hf : ∀ c ∈ cs, c.id ∉ s.placed.keys) :
    (cs.foldl Placement.place s).ShownOnce := by
  induction cs generalizing s with
  | nil => exact h
  | cons c cs ih =>
    obtain ⟨hc, hd⟩ := List.nodup_cons.mp hd
    refine ih (h.place (hf c List.mem_cons_self)) hd fun a ha hm => ?_
    rcases Table.mem_keys_insert.mp hm with heq | hm
    · exact hc (List.mem_map.mpr ⟨a, ha, heq⟩)
    · exact hf a (List.mem_cons_of_mem _ ha) hm

theorem ShownOnce.placeAll {s : Placement} (h : s.ShownOnce) {cs : List Candidate}
    (hd : (cs.map (·.id)).Nodup) (hf : ∀ c ∈ cs, c.id ∉ s.placed.keys) :
    (s.placeAll cs).ShownOnce := by
  refine h.foldl_place ((distinctNames_ids_perm s.taken cs).nodup_iff.mpr hd) fun given hg => ?_
  obtain ⟨c, hc, hn⟩ := exists_candidate_of_mem hg
  exact hn.id_eq ▸ hf c hc

end Placement

namespace Graph

variable {g : Graph} {t : Table SymbolId ExportLocation} {id : SymbolId}

/-- What a rule that names a symbol has found, one case a rule. -/
theorem candidate?_cases {placed : Table SymbolId String} {c : Candidate}
    (h : g.candidate? t placed id = some c) :
    (∃ l parent, t.get? id = some l ∧ placed.get? l.parent = some parent ∧
      c = ⟨id, s!"{parent}.{l.exportName}", none⟩) ∨
    (t.get? id = none ∧ ∃ owner parent, g.enumOf? id = some owner ∧
      placed.get? owner = some parent ∧ c = ⟨id, s!"{parent}.{g.nameOf id}", none⟩) ∨
    (t.get? id = none ∧ g.enumOf? id = none ∧ ∃ owner parent,
      ((g.references.get? id).getD []).find? placed.has = some owner ∧
      placed.get? owner = some parent ∧ c = ⟨id, s!"{parent}~{g.nameOf id}", some owner⟩) := by
  unfold candidate? at h
  split at h
  · next l hl =>
    obtain ⟨parent, hparent, rfl⟩ := Option.map_eq_some_iff.mp h
    exact Or.inl ⟨l, parent, hl, hparent, rfl⟩
  · next hl =>
    split at h
    · next owner hm =>
      obtain ⟨parent, hparent, rfl⟩ := Option.map_eq_some_iff.mp h
      exact Or.inr (Or.inl ⟨hl, owner, parent, hm, hparent, rfl⟩)
    · next hm =>
      obtain ⟨owner, ho, h⟩ := Option.bind_eq_some_iff.mp h
      obtain ⟨parent, hparent, h⟩ := Option.bind_eq_some_iff.mp h
      exact Or.inr (Or.inr ⟨hl, hm, owner, parent, ho, hparent, (Option.some.inj h).symm⟩)

/-- What no rule can name needs something that has no name. -/
theorem candidate?_eq_none {placed : Table SymbolId String}
    (h : g.candidate? t placed id = none) :
    (∀ l, t.get? id = some l → l.parent ∉ placed.keys) ∧
    (t.get? id = none → ∀ owner, g.enumOf? id = some owner → owner ∉ placed.keys) ∧
    (t.get? id = none → g.enumOf? id = none →
      ∀ r ∈ (g.references.get? id).getD [], r ∉ placed.keys) := by
  refine ⟨fun l hl hm => ?_, fun hl owner ho hm => ?_, fun hl ho r hr hm => ?_⟩
  · obtain ⟨parent, hparent⟩ := Table.mem_keys_iff.mp hm
    simp [candidate?, hl, hparent] at h
  · obtain ⟨parent, hparent⟩ := Table.mem_keys_iff.mp hm
    simp [candidate?, hl, ho, hparent] at h
  · obtain ⟨owner, howner⟩ : ∃ owner,
        ((g.references.get? id).getD []).find? placed.has = some owner :=
      Option.isSome_iff_exists.mp (List.find?_isSome.mpr ⟨r, hr, Table.has_iff.mpr hm⟩)
    obtain ⟨parent, hparent⟩ := Table.mem_keys_iff.mp (Table.has_iff.mp (List.find?_some howner))
    simp [candidate?, hl, ho, howner, hparent] at h

theorem candidates_ids_sublist (s : Placement) :
    ((g.candidates t s).map (·.id)).Sublist (g.unnamed s) := by
  rw [candidates]
  induction g.unnamed s with
  | nil => exact List.Sublist.slnil
  | cons id rest ih =>
    cases hc : g.candidate? t s.placed id with
    | none => simpa [hc] using ih.cons id
    | some c => simpa [hc, candidate?_id hc] using ih

theorem unnamed_nodup (hkeys : g.symbols.keys.Nodup) (s : Placement) : (g.unnamed s).Nodup :=
  hkeys.filter _

/-- The placement after `n` rounds. -/
def after (g : Graph) (t : Table SymbolId ExportLocation) (n : ℕ) : Placement :=
  g.placeRounds t n g.rootPlacement

theorem after_succ (n : ℕ) : g.after t (n+1) = g.round t (g.after t n) := by
  simp only [after, placeRounds_eq_iterate, Function.iterate_succ_apply']

theorem name_after_mono {n m : ℕ} (hnm : n ≤ m) {name : String}
    (h : (g.after t n).placed.get? id = some name) :
    (g.after t m).placed.get? id = some name := by
  induction m, hnm using Nat.le_induction with
  | base => exact h
  | succ m _ ih =>
    rw [after_succ]
    exact get?_placeAll_of_placed (fun _ => mem_unnamed_of_mem_candidates) ih

theorem mem_after_mono {n m : ℕ} (hnm : n ≤ m) (h : id ∈ (g.after t n).placed.keys) :
    id ∈ (g.after t m).placed.keys := by
  obtain ⟨name, hname⟩ := Table.mem_keys_iff.mp h
  exact Table.mem_keys_of_get? (name_after_mono hnm hname)

/-- A symbol gets its name in the round after `n` others. -/
def PlacedIn (g : Graph) (t : Table SymbolId ExportLocation) (id : SymbolId) (n : ℕ) : Prop :=
  id ∉ (g.after t n).placed.keys ∧ id ∈ (g.after t (n+1)).placed.keys

theorem exists_placedIn (hroot : id ∉ g.roots.map (·.id)) {n : ℕ}
    (h : id ∈ (g.after t n).placed.keys) : ∃ m < n, g.PlacedIn t id m := by
  induction n with
  | zero =>
    obtain ⟨r, hr, hid⟩ := mem_keys_rootPlacement.mp h
    exact absurd (List.mem_map.mpr ⟨r, hr, hid⟩) hroot
  | succ n ih =>
    by_cases hn : id ∈ (g.after t n).placed.keys
    · obtain ⟨m, hm, hplaced⟩ := ih hn
      exact ⟨m, by omega, hplaced⟩
    · exact ⟨n, by omega, hn, h⟩

/-- The name of a symbol that is no root is the one proposed in its round, perhaps with a number. -/
theorem PlacedIn.exists_candidate {n : ℕ} (h : g.PlacedIn t id n) :
    ∃ c name, g.candidate? t (g.after t n).placed id = some c ∧
      (g.after t (n+1)).placed.get? id = some name ∧ NumberedFrom c.name name := by
  obtain ⟨hbefore, hafter⟩ := h
  obtain ⟨name, hname⟩ := Table.mem_keys_iff.mp hafter
  have hround := hname
  rw [after_succ] at hround
  rcases Placement.get?_foldl_place hround with ⟨hold, -⟩ | ⟨given, hgiven, hid, rfl⟩
  · exact absurd (Table.mem_keys_of_get? hold) hbefore
  · obtain ⟨c, hc, hnamed⟩ := exists_candidate_of_mem hgiven
    obtain ⟨other, -, hc⟩ := List.mem_filterMap.mp hc
    obtain rfl : other = id := (candidate?_id hc).symm.trans (hnamed.id_eq.symm.trans hid)
    exact ⟨c, given.name, hc, hname, hnamed.name_eq⟩

theorem rootPlacement_inner (g : Graph) : g.rootPlacement.inner = [] := by
  rw [rootPlacement_eq]
  refine List.foldlRecOn (motive := fun s : Placement => s.inner = []) _ _ rfl fun s hs c hc => ?_
  obtain ⟨r, -, rfl⟩ := List.mem_map.mp hc
  exact hs

/-- What is shown as part of a symbol, and in which round it came there. -/
theorem mem_shown_after {n : ℕ} {owner : SymbolId} :
    id ∈ (g.after t n).shown owner ↔ ∃ m < n, id ∈ g.unnamed (g.after t m) ∧
      ∃ c, g.candidate? t (g.after t m).placed id = some c ∧ c.owner = some owner := by
  induction n with
  | zero => simp [after, placeRounds, Placement.shown, rootPlacement_inner, Table.get?]
  | succ n ih =>
    have hround : (∃ c ∈ g.candidates t (g.after t n), c.owner = some owner ∧ c.id = id) ↔
        id ∈ g.unnamed (g.after t n) ∧
          ∃ c, g.candidate? t (g.after t n).placed id = some c ∧ c.owner = some owner := by
      constructor
      · rintro ⟨c, hc, ho, rfl⟩
        obtain ⟨other, hother, hc⟩ := List.mem_filterMap.mp hc
        obtain rfl := candidate?_id hc
        exact ⟨hother, c, hc, ho⟩
      · rintro ⟨hid, c, hc, ho⟩
        exact ⟨c, List.mem_filterMap.mpr ⟨id, hid, hc⟩, ho, candidate?_id hc⟩
    rw [after_succ, round, Placement.mem_shown_placeAll, ih, hround]
    simp only [Nat.lt_succ_iff_lt_or_eq, or_and_right, exists_or, exists_eq_left]

theorem shownOnce_after (hkeys : g.symbols.keys.Nodup) (n : ℕ) : (g.after t n).ShownOnce := by
  induction n with
  | zero =>
    have hinner : (g.after t 0).inner = [] := g.rootPlacement_inner
    exact ⟨by simp [hinner, Table.keys], by simp [hinner], by simp [hinner]⟩
  | succ n ih =>
    rw [after_succ]
    refine ih.placeAll ((candidates_ids_sublist _).nodup (unnamed_nodup hkeys _)) fun c hc => ?_
    exact (mem_unnamed.mp (mem_unnamed_of_mem_candidates hc)).2

/-- The rounds end before their limit: after one of them everything has a name, or the next one has
nothing to name. -/
def RoundsEnd (g : Graph) (t : Table SymbolId ExportLocation) : Prop :=
  ∃ n ≤ placementRounds, g.unnamed (g.after t n) = [] ∨
    n < placementRounds ∧ g.candidates t (g.after t n) = []

/-- When the rounds end before their limit, no further round would name anything. -/
theorem RoundsEnd.candidates_settled (h : g.RoundsEnd t) : g.candidates t (g.settled t) = [] := by
  obtain ⟨n, hn, hend⟩ := h
  have hstop : g.candidates t (g.after t n) = [] := by
    rcases hend with hall | ⟨-, hnone⟩
    · simp [candidates, hall]
    · exact hnone
  obtain ⟨k, hk⟩ := Nat.exists_eq_add_of_le' hn
  have hstay : g.settled t = g.after t n := by
    rw [settled, hk, placeRounds_eq_iterate, Function.iterate_add_apply,
      ← placeRounds_eq_iterate n]
    exact Function.iterate_fixed (round_of_candidates_nil hstop) k
  rw [hstay, hstop]

/-- A round that names something leaves fewer symbols without names. -/
theorem unnamed_round_lt {s : Placement} (h : g.candidates t s ≠ []) :
    (g.unnamed (g.round t s)).length < (g.unnamed s).length := by
  obtain ⟨c, hc⟩ := List.exists_mem_of_ne_nil _ h
  have hleft : (g.unnamed (g.round t s)).Sublist (g.unnamed s) := by
    refine List.monotone_filter_right _ fun id hid => ?_
    rw [Bool.not_eq_true', ← Bool.not_eq_true, Table.has_iff] at hid ⊢
    exact fun hm => hid (Placement.mem_keys_placeAll.mpr (Or.inl hm))
  refine lt_of_le_of_ne hleft.length_le fun heq => ?_
  have hmem := mem_unnamed_of_mem_candidates hc
  rw [← hleft.eq_of_length heq] at hmem
  exact (mem_unnamed.mp hmem).2 (Placement.mem_keys_placeAll.mpr (Or.inr ⟨c, hc, rfl⟩))

/-- The rounds of a graph with no more symbols than there are rounds end before their limit. -/
theorem roundsEnd_of_length_le (h : g.symbols.length ≤ placementRounds) : g.RoundsEnd t := by
  by_contra hn
  have hgoes (n : ℕ) (hlt : n < placementRounds) : g.candidates t (g.after t n) ≠ [] :=
    fun hnil => hn ⟨n, hlt.le, Or.inr ⟨hlt, hnil⟩⟩
  have hleft (n : ℕ) (hle : n ≤ placementRounds) :
      (g.unnamed (g.after t n)).length + n ≤ g.symbols.length := by
    induction n with
    | zero => simpa [unnamed, Table.keys] using List.length_filter_le _ g.symbols.keys
    | succ n ih =>
      have hround := unnamed_round_lt (hgoes n (by omega))
      rw [after_succ]
      have hprev := ih (by omega)
      omega
  have hnone : g.unnamed (g.after t placementRounds) = [] :=
    List.length_eq_zero_iff.mp (by have := hleft placementRounds le_rfl; omega)
  exact hn ⟨placementRounds, le_rfl, Or.inl hnone⟩

end Graph

end ApiSurface
