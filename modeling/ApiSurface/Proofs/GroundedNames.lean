import ApiSurface.Extraction
import ApiSurface.Proofs.Homes
import ApiSurface.Proofs.UniqueNames
/-!
The names of exported symbols. Each round names the symbols one home further away from the
entrypoints, so a symbol is called below its home exactly when the homes above it lead to an
entrypoint in as many steps as there are rounds; any other exported symbol keeps its bare name.
-/
namespace ApiSurface

/-- A name is another one or the other one with a number behind it. -/
def NumberedFrom (name given : String) : Prop :=
  given = name ∨ ∃ k, 1 ≤ k ∧ given = numbered name k

theorem NumberedFrom.exists_append {name given : String} (h : NumberedFrom name given) :
    ∃ rest, given = name ++ rest := by
  rcases h with rfl | ⟨k, -, rfl⟩
  · exact ⟨"", by simp⟩
  · exact ⟨"-" ++ toString k, String.append_assoc ..⟩

namespace Graph

variable {g : Graph} {p : Program} {t : Table SymbolId ExportLocation}

/-- The name of a symbol that has one is the name of its home, its name there and perhaps a
number. -/
def Formed (t : Table SymbolId ExportLocation) (s : Placement) : Prop :=
  ∀ id l name, t.get? id = some l → s.placed.get? id = some name →
    ∃ parent, s.placed.get? l.parent = some parent ∧
      NumberedFrom s!"{parent}.{l.exportName}" name

theorem candidate?_of_location {placed : Table SymbolId String} {id : SymbolId}
    {l : ExportLocation} (hl : t.get? id = some l) {c : Candidate}
    (hc : g.candidate? t placed id = some c) :
    ∃ parent, placed.get? l.parent = some parent ∧ c = ⟨id, s!"{parent}.{l.exportName}", none⟩ := by
  simp only [candidate?, hl] at hc
  obtain ⟨parent, hparent, rfl⟩ := Option.map_eq_some_iff.mp hc
  exact ⟨parent, hparent, rfl⟩

/-- A symbol that is named in a round was named before, or its home was. -/
theorem placed_or_home {s : Placement} {id : SymbolId} {l : ExportLocation}
    (hl : t.get? id = some l) {name : String}
    (hname : (s.placeAll (g.candidates t s)).placed.get? id = some name) :
    s.placed.get? id = some name ∨ ∃ parent, s.placed.get? l.parent = some parent ∧
      NumberedFrom s!"{parent}.{l.exportName}" name := by
  rcases Placement.get?_foldl_place hname with ⟨hold, -⟩ | ⟨given, hgiven, rfl, rfl⟩
  · exact Or.inl hold
  · obtain ⟨c, hc, hnamed⟩ := exists_candidate_of_mem hgiven
    obtain ⟨id, hid, hc⟩ := List.mem_filterMap.mp hc
    obtain rfl : given.id = id := hnamed.id_eq.trans (candidate?_id hc)
    obtain ⟨parent, hparent, rfl⟩ := candidate?_of_location hl hc
    exact Or.inr ⟨parent, hparent, hnamed.name_eq⟩

theorem Formed.round {s : Placement} (h : Formed t s) :
    Formed t (s.placeAll (g.candidates t s)) := by
  intro id l name hl hname
  have hstay {id : SymbolId} {n : String} (hn : s.placed.get? id = some n) :
      (s.placeAll (g.candidates t s)).placed.get? id = some n :=
    get?_placeAll_of_placed (fun _ => mem_unnamed_of_mem_candidates) hn
  rcases placed_or_home hl hname with hold | ⟨parent, hparent, hform⟩
  · obtain ⟨parent, hparent, hform⟩ := h id l name hl hold
    exact ⟨parent, hstay hparent, hform⟩
  · exact ⟨parent, hstay hparent, hform⟩

/-- At first only the entrypoints have names, and they have no homes. -/
theorem Homes.formed_rootPlacement (h : g.Homes t) : Formed t g.rootPlacement := by
  intro id l name hl hname
  obtain ⟨r, hr, rfl, -⟩ := exists_root_of_rootPlacement hname
  have hmem : r.id ∈ g.roots.map (·.id) := List.mem_map.mpr ⟨r, hr, rfl⟩
  exact absurd hmem (h.notRoot _ (Table.mem_keys_of_get? hl))

/-- Whatever lies at most `j` homes below an entrypoint has a name. -/
def NamedTo (g : Graph) (t : Table SymbolId ExportLocation) (j : ℕ) (s : Placement) : Prop :=
  ∀ id k, k ≤ j → (∃ r ∈ g.roots.map (·.id), homeAbove? t k id = some r) → id ∈ s.placed.keys

/-- Whatever has a name and a home lies at most `j` homes below an entrypoint. -/
def NamedOnlyTo (g : Graph) (t : Table SymbolId ExportLocation) (j : ℕ) (s : Placement) : Prop :=
  ∀ id ∈ t.keys, id ∈ s.placed.keys →
    ∃ k ≤ j, ∃ r ∈ g.roots.map (·.id), homeAbove? t k id = some r

theorem NamedTo.round {j : ℕ} {s : Placement} (h : g.NamedTo t j s)
    (hknown : ∀ id ∈ t.keys, id ∈ g.symbols.keys) :
    g.NamedTo t (j+1) (s.placeAll (g.candidates t s)) := by
  rintro id k hk ⟨r, hr, hchain⟩
  apply Placement.mem_keys_placeAll.mpr
  by_cases hid : id ∈ s.placed.keys
  · exact Or.inl hid
  refine Or.inr ?_
  -- its home is one step closer to the entrypoint, so it has a name, and this one is a candidate
  cases k with
  | zero => exact absurd (h id 0 (Nat.zero_le j) ⟨r, hr, hchain⟩) hid
  | succ k =>
    obtain ⟨l, hl, hparent⟩ := Option.bind_eq_some_iff.mp hchain
    have hmem : l.parent ∈ s.placed.keys := h l.parent k (by omega) ⟨r, hr, hparent⟩
    obtain ⟨parent, hname⟩ := Table.mem_keys_iff.mp hmem
    have hunnamed : id ∈ g.unnamed s :=
      mem_unnamed.mpr ⟨hknown id (Table.mem_keys_of_get? hl), hid⟩
    have hc : g.candidate? t s.placed id = some ⟨id, s!"{parent}.{l.exportName}", none⟩ := by
      simp only [candidate?, hl, hname, Option.map_some]
    exact ⟨_, List.mem_filterMap.mpr ⟨id, hunnamed, hc⟩, rfl⟩

theorem NamedOnlyTo.round {j : ℕ} {s : Placement} (h : g.NamedOnlyTo t j s) (hhomes : g.Homes t) :
    g.NamedOnlyTo t (j+1) (s.placeAll (g.candidates t s)) := by
  intro id hid hplaced
  obtain ⟨l, hl⟩ := Table.mem_keys_iff.mp hid
  obtain ⟨name, hname⟩ := Table.mem_keys_iff.mp hplaced
  rcases placed_or_home hl hname with hold | ⟨parent, hparent, -⟩
  · obtain ⟨k, hk, hchain⟩ := h id hid (Table.mem_keys_of_get? hold)
    exact ⟨k, by omega, hchain⟩
  · have hup {k : ℕ} {r : SymbolId} (hr : homeAbove? t k l.parent = some r) :
        homeAbove? t (k+1) id = some r := by
      rw [homeAbove?, hl, Option.bind_some, hr]
    rcases hhomes.parent id l hl with hroot | hlocated
    · exact ⟨1, by omega, l.parent, hroot, hup rfl⟩
    · obtain ⟨k, hk, r, hr, hchain⟩ := h l.parent hlocated (Table.mem_keys_of_get? hparent)
      exact ⟨k+1, by omega, r, hr, hup hchain⟩

/-- After the rounds exactly those exported symbols have names that lie below an entrypoint in as
many steps as there are rounds. -/
theorem Homes.mem_settled_iff (h : g.Homes t) (hknown : ∀ id ∈ t.keys, id ∈ g.symbols.keys)
    {id : SymbolId} (hid : id ∈ t.keys) :
    id ∈ (g.settled t).placed.keys ↔
      ∃ k ≤ placementRounds, ∃ r ∈ g.roots.map (·.id), homeAbove? t k id = some r := by
  have hroot {id : SymbolId} :
      id ∈ g.rootPlacement.placed.keys ↔ id ∈ g.roots.map (·.id) := by
    rw [mem_keys_rootPlacement, List.mem_map]
  have hto : g.NamedTo t 0 g.rootPlacement := by
    rintro id k hk ⟨r, hr, hchain⟩
    obtain rfl : k = 0 := Nat.le_zero.mp hk
    obtain rfl : id = r := Option.some.inj hchain
    exact hroot.mpr hr
  have honly : g.NamedOnlyTo t 0 g.rootPlacement :=
    fun id hid hplaced => absurd (hroot.mp hplaced) (h.notRoot id hid)
  constructor
  · intro hplaced
    have hall := placeRounds_counted (fun _ _ hs => hs.round h) placementRounds honly
    rw [Nat.zero_add] at hall
    exact hall id hid hplaced
  · rintro ⟨k, hk, hchain⟩
    have hall := placeRounds_counted (fun _ _ hs => hs.round hknown) placementRounds hto
    rw [Nat.zero_add] at hall
    exact hall id k hk hchain

/-- A symbol whose homes lead to an entrypoint is called after that entrypoint. -/
theorem Homes.exists_specifier (h : g.Homes t) (hids : (g.roots.map (·.id)).Nodup)
    (hknown : ∀ id ∈ t.keys, id ∈ g.symbols.keys) {k : ℕ} (hk : k ≤ placementRounds)
    {id : SymbolId} {r : RootModule} (hr : r ∈ g.roots) (hchain : homeAbove? t k id = some r.id) :
    ∃ rest, (g.settled t).placed.get? id = some (r.specifier ++ rest) := by
  have hformed : Formed t (g.settled t) :=
    placeRounds_induction (fun _ hs => hs.round) placementRounds h.formed_rootPlacement
  -- down the homes, from the entrypoint
  induction k generalizing id with
  | zero =>
    obtain rfl : id = r.id := Option.some.inj hchain
    refine ⟨"", ?_⟩
    rw [String.append_empty]
    exact get?_placeRounds_of_placed _ (rootPlacement_get? hids hr)
  | succ k ih =>
    obtain ⟨l, hl, hparent⟩ := Option.bind_eq_some_iff.mp hchain
    obtain ⟨rest, hrest⟩ := ih (by omega) hparent
    have hmem : id ∈ (g.settled t).placed.keys :=
      (h.mem_settled_iff hknown (Table.mem_keys_of_get? hl)).mpr
        ⟨k+1, hk, r.id, List.mem_map.mpr ⟨r, hr, rfl⟩, hchain⟩
    obtain ⟨name, hname⟩ := Table.mem_keys_iff.mp hmem
    obtain ⟨parent, hparent, hform⟩ := hformed id l name hl hname
    obtain rfl : parent = r.specifier ++ rest := Option.some.inj (hparent.symm.trans hrest)
    obtain ⟨more, rfl⟩ := hform.exists_append
    refine ⟨rest ++ ("." ++ (l.exportName ++ more)), ?_⟩
    have hbelow : s!"{r.specifier ++ rest}.{l.exportName}" =
        r.specifier ++ rest ++ "." ++ l.exportName := rfl
    rw [hname, hbelow]
    simp only [String.append_assoc]

/-- A symbol whose homes lead to an entrypoint is called below its home. -/
theorem Homes.exists_name_below (h : g.Homes t) (hids : (g.roots.map (·.id)).Nodup)
    (hknown : ∀ id ∈ t.keys, id ∈ g.symbols.keys) {k : ℕ} (hk : k ≤ placementRounds)
    {id : SymbolId} {l : ExportLocation} (hl : t.get? id = some l) {r : RootModule}
    (hr : r ∈ g.roots) (hchain : homeAbove? t k id = some r.id) :
    ∃ parent name, (g.placement t).placed.get? l.parent = some parent ∧
      (g.placement t).placed.get? id = some name ∧
      NumberedFrom s!"{parent}.{l.exportName}" name ∧ ∃ rest, name = r.specifier ++ rest := by
  have hformed : Formed t (g.settled t) :=
    placeRounds_induction (fun _ hs => hs.round) placementRounds h.formed_rootPlacement
  obtain ⟨rest, hname⟩ := h.exists_specifier hids hknown hk hr hchain
  obtain ⟨parent, hparent, hform⟩ := hformed id l _ hl hname
  exact ⟨parent, _, placement_get?_of_settled hparent, placement_get?_of_settled hname, hform,
    rest, rfl⟩

/-- What is left after the rounds keeps its bare name, perhaps with a number. -/
theorem exists_bare_name {id : SymbolId} (hid : id ∈ g.symbols.keys)
    (hleft : id ∉ (g.settled t).placed.keys) :
    ∃ name, (g.placement t).placed.get? id = some name ∧ NumberedFrom (g.nameOf id) name := by
  have hunnamed : id ∈ g.unnamed (g.settled t) := mem_unnamed.mpr ⟨hid, hleft⟩
  have hmem : id ∈ (g.placement t).placed.keys :=
    Placement.mem_keys_placeAll.mpr (Or.inr ⟨_, List.mem_map.mpr ⟨id, hunnamed, rfl⟩, rfl⟩)
  obtain ⟨name, hname⟩ := Table.mem_keys_iff.mp hmem
  refine ⟨name, hname, ?_⟩
  rcases Placement.get?_foldl_place hname with ⟨hold, -⟩ | ⟨given, hgiven, rfl, rfl⟩
  · exact absurd (Table.mem_keys_of_get? hold) hleft
  · obtain ⟨c, hc, hnamed⟩ := exists_candidate_of_mem hgiven
    obtain ⟨id, -, rfl⟩ := List.mem_map.mp hc
    obtain rfl : given.id = id := hnamed.id_eq
    exact hnamed.name_eq

end Graph

namespace Config

variable {c : Config} {fs : FileSystem} {d : Document}

/-- What the surface of a program is made of. -/
theorem surface_ok {p : Program} {s : Surface} (h : c.surface p = .ok s) : ∃ memory,
    p.walk c.maxTypeDepth (c.entrypoints.keys.zip p.entrypoints) [] = (.ok s.graph, memory) ∧
      s.locations = (s.graph.locations p memory).1 ∧
      s.names = s.graph.identifiers s.locations := by
  have hrun {x : ExceptT ExtractError Program.Query Surface} (hx : (x.run.run []).1 = .ok s) :
      ∃ memory, x.run.run [] = (.ok s, memory) := ⟨_, Prod.ext hx rfl⟩
  obtain ⟨last, hlast⟩ := hrun h
  obtain ⟨g, memory, hwalk, hlast⟩ := Walk.exists_of_bind_run hlast
  obtain ⟨locations, next, hlocations, hlast⟩ := Walk.exists_of_bind_run hlast
  have heq : (⟨g, locations, g.identifiers locations⟩ : Surface) = s :=
    Except.ok.inj (congrArg Prod.fst hlast)
  have hfound : (g.locations p memory).1 = locations :=
    Except.ok.inj (congrArg Prod.fst hlocations)
  subst heq
  exact ⟨memory, hwalk, hfound.symm, rfl⟩

theorem exists_of_bind_ok {ε α β : Type} {x : Except ε α} {f : α → Except ε β} {b : β}
    (h : x >>= f = .ok b) : ∃ a, x = .ok a ∧ f a = .ok b := by
  cases x with
  | ok a => exact ⟨a, rfl, h⟩
  | error e =>
    have herr : (.error e : Except ε β) = .ok b := h
    exact absurd herr (by simp)

/-- What a document is made of. -/
theorem extract_ok (h : c.extract fs = .ok d) : ∃ p g memory,
    c.load fs = .ok p ∧
      p.walk c.maxTypeDepth (c.entrypoints.keys.zip p.entrypoints) [] = (.ok g, memory) ∧
      d.roots = g.roots.map (·.id) ∧ d.symbols = g.symbols.sorted ∧
      d.locations = (g.locations p memory).1 ∧
      d.identifiers = (g.identifiers d.locations).identifiers := by
  unfold extract at h
  split at h
  · obtain ⟨_, hthrow, -⟩ := exists_of_bind_ok h
    exact absurd hthrow (by simp [throw, throwThe, MonadExceptOf.throw])
  · obtain ⟨p, hp, h⟩ := exists_of_bind_ok h
    obtain ⟨s, hs, h⟩ := exists_of_bind_ok h
    obtain rfl : c.document fs p s = d := Except.ok.inj h
    obtain ⟨memory, hwalk, hlocations, hnames⟩ := surface_ok hs
    exact ⟨p, s.graph, memory, hp, hwalk, rfl, rfl, hlocations, congrArg (·.identifiers) hnames⟩

/-- The homes above an exported symbol lead to an entrypoint exactly when no symbol on the way lies
above itself. When they do so in as many steps as there are rounds of naming, the symbol is called
below its home, after an entrypoint; otherwise it keeps its bare name. -/
theorem exported_names_grounded (h : c.extract fs = .ok d) {id : SymbolId} {l : ExportLocation}
    (hl : d.locations.get? id = some l) :
    ((∃ n, ∃ r ∈ d.roots, homeAbove? d.locations n id = some r) ↔
      ∀ n b m, homeAbove? d.locations n id = some b → homeAbove? d.locations (m+1) b ≠ some b) ∧
    (∀ n ≤ placementRounds, ∀ r ∈ d.roots, homeAbove? d.locations n id = some r →
      ∃ parent name, d.identifiers.get? l.parent = some parent ∧
        d.identifiers.get? id = some name ∧ NumberedFrom s!"{parent}.{l.exportName}" name ∧
        ∃ specifier ∈ c.entrypoints.keys, ∃ rest, name = specifier ++ rest) ∧
    ((∀ n ≤ placementRounds, ∀ r ∈ d.roots, homeAbove? d.locations n id ≠ some r) →
      ∃ symbol name, d.symbols.get? id = some symbol ∧ d.identifiers.get? id = some name ∧
        NumberedFrom symbol.name name) := by
  obtain ⟨p, g, memory, -, hwalk, hroots, hsymbols, hlocations, hnames⟩ := extract_ok h
  have hok : (p.walk c.maxTypeDepth (c.entrypoints.keys.zip p.entrypoints) []).1 = .ok g :=
    congrArg Prod.fst hwalk
  have hrooted : g.Rooted p := Program.walk_rooted hok
  have hhomes : g.Homes d.locations := hlocations ▸ Graph.locations_homes g p memory
  have hknown : ∀ id ∈ d.locations.keys, id ∈ g.symbols.keys := fun id hid =>
    hrooted.handles ▸ hhomes.handle id hid
  have hid : id ∈ d.locations.keys := Table.mem_keys_of_get? hl
  have hname (id : SymbolId) :
      d.identifiers.get? id = (g.placement d.locations).placed.get? id := by
    rw [hnames]
    exact Graph.identifiers_get? g d.locations id
  rw [hroots]
  refine ⟨hhomes.grounded_iff hid, ?_, ?_⟩
  · intro n hn r hr hchain
    obtain ⟨root, hroot, rfl⟩ := List.mem_map.mp hr
    obtain ⟨parent, name, hparent, hget, hform, rest, hrest⟩ :=
      hhomes.exists_name_below hrooted.rootIds hknown hn hl hroot hchain
    have hspecifier : root.specifier ∈ (c.entrypoints.keys.zip p.entrypoints).map (·.1) :=
      (Program.walk_specifiers hok).subset (List.mem_map.mpr ⟨root, hroot, rfl⟩)
    obtain ⟨entry, hentry, heq⟩ := List.mem_map.mp hspecifier
    have hkey : root.specifier ∈ c.entrypoints.keys := heq ▸ (List.of_mem_zip hentry).1
    exact ⟨parent, name, (hname _).trans hparent, (hname _).trans hget, hform, root.specifier,
      hkey, rest, hrest⟩
  · intro hfar
    have hleft : id ∉ (g.settled d.locations).placed.keys := by
      intro hplaced
      obtain ⟨k, hk, r, hr, hchain⟩ := (hhomes.mem_settled_iff hknown hid).mp hplaced
      exact hfar k hk r hr hchain
    obtain ⟨name, hget, hbare⟩ := Graph.exists_bare_name (hknown id hid) hleft
    obtain ⟨symbol, hsymbol⟩ := Table.mem_keys_iff.mp (hknown id hid)
    refine ⟨symbol, name, ?_, (hname id).trans hget, ?_⟩
    · rw [hsymbols, Table.get?_sorted hrooted.distinct, hsymbol]
    · simpa only [Graph.nameOf, hsymbol, Option.map_some, Option.getD_some] using hbare

/-- A package with one entrypoint. -/
def single : Config :=
  { (default : Config) with
    root := .ofText "/p", entrypoints := [("pkg", "index.ts")], maxTypeDepth := 8 }

/-- An entrypoint that exports another file as a module. -/
def innerModule : FileSystem := (FileTree.ofList
  [("/p/index.ts", "export * as m from \"./m\";"), ("/p/m.ts", "export \x7b\x7d;")]).fileSystem

/-- An entrypoint that exports another file as a module, which exports itself as a module. -/
def selfExporting : FileSystem := (FileTree.ofList
  [("/p/index.ts", "export * as m from \"./m\";"),
    ("/p/m.ts", "export * as m from \"./m\";")]).fileSystem

/-- A file that only the entrypoint exports is called below the entrypoint. -/
theorem inner_module_grounded : ∃ d l, single.extract innerModule = .ok d ∧
    l = ⟨"m", "index.ts:0"⟩ ∧ d.locations.get? "m.ts:0" = some l ∧
    homeAbove? d.locations 1 "m.ts:0" = some "index.ts:0" ∧ "index.ts:0" ∈ d.roots ∧
    ∃ parent name, d.identifiers.get? "index.ts:0" = some parent ∧
      d.identifiers.get? "m.ts:0" = some name ∧ NumberedFrom s!"{parent}.{l.exportName}" name ∧
      ∃ specifier ∈ single.entrypoints.keys, ∃ rest, name = specifier ++ rest := by
  have hrun : (single.extract innerModule).toOption.map (fun d => (d.locations, d.roots)) =
      some ([("m.ts:0", ⟨"m", "index.ts:0"⟩)], ["index.ts:0"]) := by
    decide +kernel
  obtain ⟨d, h, heq⟩ := Walk.exists_of_toOption_map hrun
  obtain ⟨hlocations, hroots⟩ := (Prod.mk.injEq ..).mp heq
  have hl : d.locations.get? "m.ts:0" = some ⟨"m", "index.ts:0"⟩ := by
    rw [hlocations]
    rfl
  have hchain : homeAbove? d.locations 1 "m.ts:0" = some "index.ts:0" := by
    rw [homeAbove?, hl]
    rfl
  have hroot : "index.ts:0" ∈ d.roots := by
    rw [hroots]
    exact List.mem_cons_self
  obtain ⟨-, hbelow, -⟩ := exported_names_grounded h hl
  exact ⟨d, _, h, rfl, hl, hchain, hroot, hbelow 1 (by decide) "index.ts:0" hroot hchain⟩

/-- A file that exports itself is its own home, as its path is shorter than that of the entrypoint:
the homes above it do not lead to an entrypoint. -/
theorem home_above_itself :
    ¬ ∀ (c : Config) (fs : FileSystem) (d : Document), c.extract fs = .ok d →
      ∀ id l, d.locations.get? id = some l →
        (∃ n, ∃ r ∈ d.roots, homeAbove? d.locations n id = some r) ∧
        ∃ parent name, d.identifiers.get? l.parent = some parent ∧
          d.identifiers.get? id = some name ∧ NumberedFrom s!"{parent}.{l.exportName}" name ∧
          ∃ specifier ∈ c.entrypoints.keys, ∃ rest, name = specifier ++ rest := by
  intro hclaim
  have hrun : (single.extract selfExporting).toOption.map (fun d => (d.locations, d.roots)) =
      some ([("m.ts:0", ⟨"m", "m.ts:0"⟩)], ["index.ts:0"]) := by
    decide +kernel
  obtain ⟨d, h, heq⟩ := Walk.exists_of_toOption_map hrun
  obtain ⟨hlocations, hroots⟩ := (Prod.mk.injEq ..).mp heq
  have hl : d.locations.get? "m.ts:0" = some ⟨"m", "m.ts:0"⟩ := by
    rw [hlocations]
    rfl
  obtain ⟨⟨n, r, hr, hn⟩, -⟩ := hclaim single selfExporting d h _ _ hl
  have hself (n : ℕ) : homeAbove? d.locations n "m.ts:0" = some "m.ts:0" := by
    induction n with
    | zero => rfl
    | succ n ih => rw [homeAbove?, hl, Option.bind_some, ih]
  rw [hself n] at hn
  rw [hroots, ← Option.some.inj hn] at hr
  exact absurd hr (by decide)

end Config

end ApiSurface
