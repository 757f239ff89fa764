import ApiSurface.Proofs.NameShapes
/-!
The order in which symbols are discovered does not show in their names. Names are given to the
candidates of a round in the order of the names and the symbols, so a round comes to the same
however its candidates are listed, and which candidates there are depends on what is known of each
symbol alone.
-/
namespace ApiSurface

namespace Candidate

theorem le_iff {a b : Candidate} :
    a.le b = true ↔ a.name < b.name ∨ a.name = b.name ∧ a.id ≤ b.id := by
  simp [le]

theorem le_of_le_of_le (a b c : Candidate) (hab : a.le b = true) (hbc : b.le c = true) :
    a.le c = true := by
  rw [le_iff] at *
  rcases hab with hab | ⟨hab, hids⟩ <;> rcases hbc with hbc | ⟨hbc, hids'⟩
  · exact Or.inl (hab.trans hbc)
  · exact Or.inl (hbc ▸ hab)
  · exact Or.inl (hab ▸ hbc)
  · exact Or.inr ⟨hab.trans hbc, hids.trans hids'⟩

theorem le_or_le (a b : Candidate) : (a.le b || b.le a) = true := by
  rw [Bool.or_eq_true, le_iff, le_iff]
  rcases lt_trichotomy a.name b.name with hlt | heq | hgt
  · exact Or.inl (Or.inl hlt)
  · exact (le_total a.id b.id).imp (fun h => Or.inr ⟨heq, h⟩) fun h => Or.inr ⟨heq.symm, h⟩
  · exact Or.inr (Or.inl hgt)

/-- Two candidates that come before each other are for the same symbol and the same name. -/
theorem eq_of_le {a b : Candidate} (hab : a.le b = true) (hba : b.le a = true) :
    a.id = b.id ∧ a.name = b.name := by
  rw [le_iff] at hab hba
  rcases hab with hab | ⟨hname, hids⟩
  · rcases hba with hba | ⟨hname, -⟩
    · exact absurd (hab.trans hba) (lt_irrefl _)
    · exact absurd hab (hname ▸ lt_irrefl _)
  · rcases hba with hba | ⟨-, hids'⟩
    · exact absurd hba (hname ▸ lt_irrefl _)
    · exact ⟨le_antisymm hids hids', hname⟩

/-- A candidate as the allocation of names sees it: for a symbol, and a name. -/
def unowned (c : Candidate) : Candidate := { c with owner := none }

theorem unowned_inj {a b : Candidate} (hid : a.id = b.id) (hname : a.name = b.name) :
    a.unowned = b.unowned := by
  simp [unowned, hid, hname]

end Candidate

/-- Sorted lists of the same candidates are the same list, if those for one symbol and one name
are. -/
theorem eq_of_sorted_perm {cs cs' : List Candidate} (hp : cs.Perm cs')
    (hs : cs.Pairwise fun a b => a.le b = true) (hs' : cs'.Pairwise fun a b => a.le b = true)
    (hone : ∀ a ∈ cs, ∀ b ∈ cs, a.id = b.id → a.name = b.name → a = b) : cs = cs' := by
  refine hp.eq_of_pairwise (fun a b ha hb hab hba => ?_) hs hs'
  obtain ⟨hid, hname⟩ := Candidate.eq_of_le hab hba
  exact hone a ha b (hp.mem_iff.mpr hb) hid hname

theorem sorted_mergeSort (cs : List Candidate) :
    (cs.mergeSort Candidate.le).Pairwise fun a b => a.le b = true :=
  List.pairwise_mergeSort Candidate.le_of_le_of_le Candidate.le_or_le cs

theorem mergeSort_eq_of_perm {cs cs' : List Candidate} (hp : cs.Perm cs')
    (hone : ∀ a ∈ cs, ∀ b ∈ cs, a.id = b.id → a.name = b.name → a = b) :
    cs.mergeSort Candidate.le = cs'.mergeSort Candidate.le := by
  have hall := ((List.mergeSort_perm cs Candidate.le).trans hp).trans
    (List.mergeSort_perm cs' Candidate.le).symm
  refine eq_of_sorted_perm hall (sorted_mergeSort cs) (sorted_mergeSort cs') fun a ha b hb => ?_
  exact hone a (List.mem_mergeSort.mp ha) b (List.mem_mergeSort.mp hb)

/-- Candidates for different symbols get the same names in the same order however they are
listed. -/
theorem distinctNames_eq_of_perm (taken : List String) {cs cs' : List Candidate}
    (hp : cs.Perm cs') (hd : (cs.map (·.id)).Nodup) :
    distinctNames taken cs = distinctNames taken cs' := by
  have hsort := mergeSort_eq_of_perm hp fun a ha b hb hid _ =>
    List.inj_on_of_nodup_map hd ha hb hid
  rw [distinctNames, distinctNames, hsort]

/-! ### Names without regard to owners -/

namespace Naming

/-- Names while they are given out, without the owners of those that they are given to. -/
def unowned (s : Naming) : Naming :=
  ⟨s.taken, s.named.map Candidate.unowned, s.waiting.map Candidate.unowned⟩

theorem keep_unowned (s : Naming) (c : Candidate) :
    (s.keep c).unowned = s.unowned.keep c.unowned := by
  have htaken : s.unowned.taken.contains c.unowned.name = s.taken.contains c.name := rfl
  unfold keep
  rw [htaken]
  split <;> simp [unowned, Candidate.unowned]

theorem number_unowned (s : Naming) (c : Candidate) :
    (s.number c).unowned = s.unowned.number c.unowned := by
  simp [number, unowned, Candidate.unowned]

theorem foldl_keep_unowned (cs : List Candidate) (s : Naming) :
    (cs.foldl keep s).unowned = (cs.map Candidate.unowned).foldl keep s.unowned := by
  induction cs generalizing s with
  | nil => rfl
  | cons c cs ih => rw [List.foldl_cons, ih, keep_unowned, List.map_cons, List.foldl_cons]

theorem foldl_number_unowned (ws : List Candidate) (s : Naming) :
    (ws.foldl number s).unowned = (ws.map Candidate.unowned).foldl number s.unowned := by
  induction ws generalizing s with
  | nil => rfl
  | cons w ws ih => rw [List.foldl_cons, ih, number_unowned, List.map_cons, List.foldl_cons]

end Naming

/-- Which names are given does not depend on owners. -/
theorem distinctNames_unowned (taken : List String) (cs : List Candidate) :
    (distinctNames taken cs).map Candidate.unowned =
      distinctNames taken (cs.map Candidate.unowned) := by
  have hsort : (cs.mergeSort Candidate.le).map Candidate.unowned =
      (cs.map Candidate.unowned).mergeSort Candidate.le := by
    have hp := ((List.mergeSort_perm cs Candidate.le).map Candidate.unowned).trans
      (List.mergeSort_perm (cs.map Candidate.unowned) Candidate.le).symm
    refine eq_of_sorted_perm hp ?_ (sorted_mergeSort _) fun a ha b hb hid hname => ?_
    · exact List.pairwise_map.mpr (sorted_mergeSort cs)
    · obtain ⟨x, -, rfl⟩ := List.mem_map.mp ha
      obtain ⟨y, -, rfl⟩ := List.mem_map.mp hb
      exact Candidate.unowned_inj hid hname
  have hkept := Naming.foldl_keep_unowned (cs.mergeSort Candidate.le) ⟨taken, [], []⟩
  have hnamed := Naming.foldl_number_unowned
    ((cs.mergeSort Candidate.le).foldl Naming.keep ⟨taken, [], []⟩).waiting
    ((cs.mergeSort Candidate.le).foldl Naming.keep ⟨taken, [], []⟩)
  rw [hsort] at hkept
  rw [hkept] at hnamed
  have hwaiting := congrArg Naming.waiting hkept
  change List.map Candidate.unowned _ = _ at hwaiting
  rw [hwaiting] at hnamed
  exact congrArg Naming.named hnamed

/-- Every candidate gets the same name, at the same turn, however the candidates are listed. -/
theorem distinctNames_pairs_of_perm (taken : List String) {cs cs' : List Candidate}
    (hp : cs.Perm cs') :
    (distinctNames taken cs).map (fun c => (c.id, c.name)) =
      (distinctNames taken cs').map fun c => (c.id, c.name) := by
  have hpairs (cs : List Candidate) : (distinctNames taken cs).map (fun c => (c.id, c.name)) =
      (distinctNames taken (cs.map Candidate.unowned)).map fun c => (c.id, c.name) := by
    rw [← distinctNames_unowned, List.map_map]
    rfl
  have hsort := mergeSort_eq_of_perm (hp.map Candidate.unowned) fun a ha b hb hid hname => by
    obtain ⟨x, -, rfl⟩ := List.mem_map.mp ha
    obtain ⟨y, -, rfl⟩ := List.mem_map.mp hb
    exact Candidate.unowned_inj hid hname
  rw [hpairs cs, hpairs cs', distinctNames, distinctNames, hsort]

/-! ### Graphs with the same symbols -/

namespace Table

variable {κ α : Type} [BEq κ] [LawfulBEq κ]

/-- Tables with the same entries say the same. -/
theorem get?_of_perm {t t' : Table κ α} (hd : t.keys.Nodup) (hp : t'.Perm t) (key : κ) :
    t'.get? key = t.get? key := by
  have hd' : t'.keys.Nodup := (hp.map _).nodup_iff.mpr hd
  refine Option.ext fun value => ?_
  rw [get?_eq_some_iff hd', get?_eq_some_iff hd, hp.mem_iff]

end Table

namespace Graph

variable {g g' : Graph} {t : Table SymbolId ExportLocation}

/-- No two enums list one symbol. -/
def ListedOnce (g : Graph) : Prop := ∀ id o o', g.Lists o id → g.Lists o' id → o = o'

/-- The same graph, but for the order in which its symbols were discovered. -/
structure Reordered (g g' : Graph) : Prop where
  roots : g'.roots = g.roots
  symbols : g'.symbols.Perm g.symbols
  references : ∀ id, g'.references.get? id = g.references.get? id

theorem Reordered.lists_iff (h : g.Reordered g') {owner id : SymbolId} :
    g'.Lists owner id ↔ g.Lists owner id := by
  simp only [Lists, h.symbols.mem_iff]

theorem Reordered.enumOf? (h : g.Reordered g') (honce : g.ListedOnce) (id : SymbolId) :
    g'.enumOf? id = g.enumOf? id := by
  cases hnew : g'.enumOf? id with
  | none =>
    refine (enumOf?_eq_none_iff.mpr fun owner hlists => ?_).symm
    exact enumOf?_eq_none_iff.mp hnew owner (h.lists_iff.mpr hlists)
  | some owner =>
    have howner := h.lists_iff.mp (lists_of_enumOf? hnew)
    cases hold : g.enumOf? id with
    | none => exact absurd howner (enumOf?_eq_none_iff.mp hold owner)
    | some owner' => rw [honce id owner owner' howner (lists_of_enumOf? hold)]

theorem Reordered.nameOf (h : g.Reordered g') (hkeys : g.symbols.keys.Nodup) (id : SymbolId) :
    g'.nameOf id = g.nameOf id := by
  rw [Graph.nameOf, Graph.nameOf, Table.get?_of_perm hkeys h.symbols]

/-- What a symbol could be called depends on what is known of it alone. -/
theorem Reordered.candidate? (h : g.Reordered g') (hkeys : g.symbols.keys.Nodup)
    (honce : g.ListedOnce) (placed : Table SymbolId String) (id : SymbolId) :
    g'.candidate? t placed id = g.candidate? t placed id := by
  unfold Graph.candidate?
  rw [h.enumOf? honce, h.nameOf hkeys, h.references]

theorem Reordered.unnamed (h : g.Reordered g') (s : Placement) :
    (g'.unnamed s).Perm (g.unnamed s) :=
  (h.symbols.map _).filter _

theorem Reordered.candidates (h : g.Reordered g') (hkeys : g.symbols.keys.Nodup)
    (honce : g.ListedOnce) (s : Placement) : (g'.candidates t s).Perm (g.candidates t s) := by
  have hfun : g'.candidate? t s.placed = g.candidate? t s.placed :=
    funext (h.candidate? hkeys honce s.placed)
  rw [Graph.candidates, Graph.candidates, hfun]
  exact (h.unnamed s).filterMap _

theorem Reordered.round (h : g.Reordered g') (hkeys : g.symbols.keys.Nodup)
    (honce : g.ListedOnce) : g'.round t = g.round t := by
  funext s
  have hids : ((g.candidates t s).map (·.id)).Nodup :=
    (candidates_ids_sublist s).nodup (unnamed_nodup hkeys s)
  rw [Graph.round, Graph.round, Placement.placeAll, Placement.placeAll,
    ← distinctNames_eq_of_perm s.taken (h.candidates hkeys honce s).symm hids]

theorem Reordered.settled (h : g.Reordered g') (hkeys : g.symbols.keys.Nodup)
    (honce : g.ListedOnce) : g'.settled t = g.settled t := by
  have hroots : g'.rootPlacement = g.rootPlacement := by
    rw [rootPlacement, rootPlacement, h.roots]
  rw [Graph.settled, Graph.settled, placeRounds_eq_iterate, placeRounds_eq_iterate,
    h.round hkeys honce, hroots]

theorem Reordered.placement (h : g.Reordered g') (hkeys : g.symbols.keys.Nodup)
    (honce : g.ListedOnce) : g'.placement t = g.placement t := by
  have hleft (s : Placement) : (g.leftovers s).Perm (g'.leftovers s) := by
    have hname : g'.nameOf = g.nameOf := funext (h.nameOf hkeys)
    rw [leftovers, leftovers, hname]
    exact (h.unnamed s).symm.map _
  have hids (s : Placement) : ((g.leftovers s).map (·.id)).Nodup := by
    rw [leftovers, List.map_map]
    exact (unnamed_nodup hkeys s).map_on fun _ _ _ _ heq => heq
  rw [Graph.placement, Graph.placement, h.settled hkeys honce, Placement.placeAll,
    Placement.placeAll, ← distinctNames_eq_of_perm _ (hleft _) (hids _)]

/-- In which order the symbols of a graph were discovered shows neither in their names nor in what
is shown as part of them, as long as no two enums list one symbol. In one round, every candidate
gets the same name, and gets it at the same turn, however the candidates are listed. -/
theorem names_independent_of_order (g g' : Graph) (t : Table SymbolId ExportLocation)
    (hkeys : g.symbols.keys.Nodup) (honce : g.ListedOnce) (h : g.Reordered g') :
    g'.identifiers t = g.identifiers t ∧
      ∀ (taken : List String) (cs cs' : List Candidate), cs.Perm cs' →
        (distinctNames taken cs').map (fun c => (c.id, c.name)) =
          (distinctNames taken cs).map fun c => (c.id, c.name) := by
  refine ⟨?_, fun taken cs cs' hp => distinctNames_pairs_of_perm taken hp.symm⟩
  show (⟨(g'.placement t).placed.sorted, (g'.placement t).inner.sorted⟩ : Identifiers) = _
  rw [h.placement hkeys honce]
  rfl

/-- Two interfaces of one name are shown inside one function, and so is an enum with its member. -/
def crowded : Graph where
  roots := [⟨"pkg", "index.ts:0"⟩]
  symbols := [("index.ts:0", ⟨"index", none, .module []⟩), ("index.ts:9", ⟨"run", none, .function []⟩),
    ("b.ts:9", ⟨"Retry", none, .interface [] [] []⟩),
    ("a.ts:9", ⟨"Retry", none, .interface [] [] []⟩),
    ("a.ts:40", ⟨"Level", none, .enum false ["a.ts:48"]⟩),
    ("a.ts:48", ⟨"Low", none, .enumMember none⟩)]
  handles := []
  references := [("index.ts:9", ["index.ts:0"]), ("b.ts:9", ["index.ts:9"]),
    ("a.ts:9", ["index.ts:9"]), ("a.ts:40", ["index.ts:9"]), ("a.ts:48", ["a.ts:40"])]
  externals := []

/-- The names are the same when the symbols were discovered the other way round. -/
theorem crowded_names_reversed :
    let reversed : Graph := { crowded with symbols := crowded.symbols.reverse }
    let homes : Table SymbolId ExportLocation := [("index.ts:9", ⟨"run", "index.ts:0"⟩)]
    crowded.symbols.keys.Nodup ∧ crowded.ListedOnce ∧ crowded.Reordered reversed ∧
      reversed.identifiers homes = crowded.identifiers homes := by
  intro reversed homes
  have hkeys : crowded.symbols.keys.Nodup := by decide
  have honly {owner id : SymbolId} (h : crowded.Lists owner id) : owner = "a.ts:40" := by
    obtain ⟨s, isConst, members, hs, hshape, -⟩ := h
    simp only [crowded, List.mem_cons, Prod.mk.injEq, List.not_mem_nil, or_false] at hs
    rcases hs with ⟨-, rfl⟩ | ⟨-, rfl⟩ | ⟨-, rfl⟩ | ⟨-, rfl⟩ | ⟨rfl, -⟩ | ⟨-, rfl⟩
    on_goal 5 => rfl
    all_goals cases hshape
  have honce : crowded.ListedOnce := fun id o o' ho ho' => (honly ho).trans (honly ho').symm
  have hreordered : crowded.Reordered reversed :=
    ⟨rfl, List.reverse_perm _, fun _ => rfl⟩
  exact ⟨hkeys, honce, hreordered, (names_independent_of_order _ _ homes hkeys honce hreordered).1⟩

end Graph

end ApiSurface
