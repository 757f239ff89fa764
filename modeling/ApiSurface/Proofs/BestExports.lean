import ApiSurface.Proofs.BreadthFirst
import ApiSurface.Proofs.ExportSites
import ApiSurface.Proofs.Homes
/-!
The place at which a symbol is shown is the best of all places at which modules below the
entrypoints export it. The scan meets the modules in breadth-first order, and at each point of it
the best place of a symbol is the best among the exports that are passed.
-/
namespace ApiSurface

/-- What makes a place better than another one, the lower the better: first that it is in a file or
in a module declared by name, then a short path, then an early export. -/
def ExportSite.rank (s : ExportSite) : Bool ×ₗ ℕ ×ₗ ℕ :=
  toLex (!s.moduleLevel, toLex (s.pathLength, s.order))

theorem ExportSite.beats_eq_rank_lt (a b : ExportSite) : a.beats b = decide (a.rank < b.rank) := by
  cases ha : a.moduleLevel <;> cases hb : b.moduleLevel <;>
    by_cases hp : a.pathLength = b.pathLength <;>
    simp [beats, rank, ha, hb, hp, Prod.Lex.toLex_lt_toLex]

namespace Graph

variable {g : Graph} {p : Program} {exports : SymbolId → Table String SymbolId}

/-- The modules that a module exports. -/
def modulesIn (g : Graph) (p : Program) (exports : SymbolId → Table String SymbolId)
    (id : SymbolId) : List SymbolId :=
  ((exports id).map (·.2)).filter (g.isModule p)

theorem sites_append (passed : List ModuleExport) (e : ModuleExport) :
    g.sites p (passed ++ [e]) = g.sites p passed ++
      if g.isShown e.target then [(e.target, g.siteOf p e (g.sites p passed).length)] else [] := by
  by_cases he : g.isShown e.target = true <;>
    simp [sites, List.filter_append, List.zipIdx_append, he]

/-- A place is the best of those that are known for a symbol. -/
def IsBest (places : List (SymbolId × ExportSite)) (id : SymbolId) (site : ExportSite) : Prop :=
  (id, site) ∈ places ∧ ∀ other, (id, other) ∈ places → site.rank ≤ other.rank

/-- A table of the best of all places for each symbol. -/
structure Best (places : List (SymbolId × ExportSite)) (best : Table SymbolId ExportSite) :
    Prop where
  distinct : best.keys.Nodup
  met : ∀ id site, (id, site) ∈ places → id ∈ best.keys
  best : ∀ id site, best.get? id = some site → IsBest places id site

theorem IsBest.append {places : List (SymbolId × ExportSite)} {id other : SymbolId}
    {site new : ExportSite} (h : IsBest places id site) (hnew : other = id → site.rank ≤ new.rank) :
    IsBest (places ++ [(other, new)]) id site := by
  refine ⟨List.mem_append_left _ h.1, fun place hplace => ?_⟩
  rcases List.mem_append.mp hplace with hold | hlast
  · exact h.2 place hold
  · obtain ⟨rfl, rfl⟩ := (Prod.mk.injEq ..).mp (List.mem_singleton.mp hlast)
    exact hnew rfl

/-- One more place takes the place of the best so far if it beats it. -/
theorem Best.add {places : List (SymbolId × ExportSite)} {best : Table SymbolId ExportSite}
    (h : Best places best) (id : SymbolId) (site : ExportSite) :
    Best (places ++ [(id, site)]) (if (match best.get? id with
      | some current => site.beats current
      | none => true) then best.insert id site else best) := by
  -- the new place is the best if it beats the one that was the best
  have hinsert (hbest : ∀ current, best.get? id = some current → site.rank ≤ current.rank) :
      Best (places ++ [(id, site)]) (best.insert id site) := by
    constructor
    case distinct => exact Table.keys_insert_nodup h.distinct id site
    case met =>
      intro other place hplace
      rcases List.mem_append.mp hplace with hold | hlast
      · exact Table.mem_keys_insert.mpr (Or.inr (h.met other place hold))
      · obtain ⟨rfl, -⟩ := (Prod.mk.injEq ..).mp (List.mem_singleton.mp hlast)
        exact Table.mem_keys_insert.mpr (Or.inl rfl)
    case best =>
      intro other place hget
      by_cases hother : other = id
      · subst hother
        rw [Table.get?_insert_self] at hget
        obtain rfl := Option.some.inj hget
        refine ⟨List.mem_append_right _ (List.mem_singleton_self _), fun place hplace => ?_⟩
        rcases List.mem_append.mp hplace with hold | hlast
        · obtain ⟨current, hcurrent⟩ := Table.mem_keys_iff.mp (h.met _ place hold)
          exact (hbest current hcurrent).trans ((h.best _ current hcurrent).2 place hold)
        · exact le_of_eq (congrArg _ ((Prod.mk.injEq ..).mp (List.mem_singleton.mp hlast)).2.symm)
      · rw [Table.get?_insert_of_ne _ _ hother] at hget
        exact (h.best other place hget).append fun heq => absurd heq.symm hother
  cases hcurrent : best.get? id with
  | none =>
    rw [if_pos rfl]
    exact hinsert fun current hsome => absurd hsome (by rw [hcurrent]; simp)
  | some current =>
    by_cases hbeats : site.beats current = true
    · rw [if_pos hbeats]
      rw [ExportSite.beats_eq_rank_lt, decide_eq_true_iff] at hbeats
      refine hinsert fun other hother => ?_
      obtain rfl := Option.some.inj (hcurrent.symm.trans hother)
      exact hbeats.le
    · rw [if_neg hbeats]
      rw [ExportSite.beats_eq_rank_lt, decide_eq_true_iff, not_lt] at hbeats
      constructor
      case distinct => exact h.distinct
      case met =>
        intro other place hplace
        rcases List.mem_append.mp hplace with hold | hlast
        · exact h.met other place hold
        · obtain ⟨rfl, -⟩ := (Prod.mk.injEq ..).mp (List.mem_singleton.mp hlast)
          exact Table.mem_keys_of_get? hcurrent
      case best =>
        intro other place hget
        refine (h.best other place hget).append fun heq => ?_
        subst heq
        obtain rfl := Option.some.inj (hcurrent.symm.trans hget)
        exact hbeats

/-- What is known when some exports are passed. -/
structure Passed (g : Graph) (p : Program) (passed : List ModuleExport) (scan : ExportScan) :
    Prop extends Best (g.sites p passed) scan.best where
  queue : scan.queue.toList =
    (g.roots.map (·.id) ++ (passed.map (·.target)).filter (g.isModule p)).eraseDups
  order : scan.order = (g.sites p passed).length

/-- An export of something that is not to be shown changes nothing. -/
theorem Passed.skip {passed : List ModuleExport} {scan : ExportScan} (h : g.Passed p passed scan)
    {e : ModuleExport} (hshown : g.isShown e.target = false)
    (hqueue : g.isModule p e.target = true → e.target ∈ g.roots.map (·.id)) :
    g.Passed p (passed ++ [e]) scan := by
  have hsites : g.sites p (passed ++ [e]) = g.sites p passed := by
    rw [sites_append, hshown]
    simp
  refine ⟨hsites ▸ h.toBest, ?_, by rw [h.order, hsites]⟩
  · rw [h.queue, List.map_append, List.filter_append, ← List.append_assoc]
    by_cases hmodule : g.isModule p e.target = true
    · have hroot := List.mem_append_left
        ((passed.map (·.target)).filter (g.isModule p)) (hqueue hmodule)
      rw [List.map_singleton, List.filter_singleton, hmodule, cond_true,
        eraseDups_append_singleton, if_pos hroot]
    · simp [hmodule]

/-- The scan passes one more export. -/
theorem Passed.scanExport {passed : List ModuleExport} {scan : ExportScan}
    (h : g.Passed p passed scan) (e : ModuleExport) :
    g.Passed p (passed ++ [e]) (g.scanExport p e.parent (g.isModuleLevel p e.parent)
      (g.declaringPath p e.parent).length scan (e.name, e.target)) := by
  unfold Graph.scanExport
  dsimp only
  cases hs : g.handles.get? e.target with
  | none =>
    have hmodule : g.isModule p e.target = false := by rw [isModule, hs]; rfl
    have hshown : g.isShown e.target = false := by rw [isShown, hs]; rfl
    exact h.skip hshown fun hm => absurd hm (by rw [hmodule]; simp)
  | some s =>
    dsimp only
    by_cases hroot : g.roots.any (·.id == e.target) = true
    · rw [if_pos hroot]
      have hshown : g.isShown e.target = false := by
        rw [isShown, hroot, Bool.not_true, Bool.and_false]
      refine h.skip hshown fun _ => ?_
      obtain ⟨r, hr, heq⟩ := List.any_eq_true.mp hroot
      exact List.mem_map.mpr ⟨r, hr, beq_iff_eq.mp heq⟩
    · rw [if_neg hroot]
      have hshown : g.isShown e.target = true := by
        rw [isShown, hs, Option.isSome_some, Bool.true_and, Bool.not_eq_true']
        exact Bool.eq_false_of_not_eq_true hroot
      have hmodule : g.isModule p e.target = (p.symbol s).isModuleLike := by rw [isModule, hs]; rfl
      have hsites : g.sites p (passed ++ [e]) =
          g.sites p passed ++ [(e.target, g.siteOf p e scan.order)] := by
        rw [sites_append, if_pos hshown, h.order]
      refine ⟨hsites ▸ h.toBest.add e.target _, ?_, ?_⟩
      · rw [List.map_append, List.filter_append, ← List.append_assoc, List.map_singleton,
          List.filter_singleton, hmodule]
        cases (p.symbol s).isModuleLike with
        | false => simpa using h.queue
        | true =>
          -- the module comes to the queue unless it is there
          have hmem : scan.queue.contains e.target = true ↔ e.target ∈ g.roots.map (·.id) ++
              (passed.map (·.target)).filter (g.isModule p) := by
            rw [← List.mem_eraseDups, ← h.queue]
            simp
          rw [Bool.true_and, cond_true, eraseDups_append_singleton, ← h.queue]
          by_cases hqueued : scan.queue.contains e.target = true
          · rw [if_neg (by rw [hqueued]; simp), if_pos (hmem.mp hqueued)]
          · rw [if_pos (by simpa using hqueued), if_neg fun hin => hqueued (hmem.mpr hin),
              Array.toList_push]
      · rw [hsites, List.length_append, h.order]
        rfl

/-- The scan passes all exports of a module. -/
theorem Passed.foldl_scanExport {passed : List ModuleExport} {scan : ExportScan}
    (h : g.Passed p passed scan) (parent : SymbolId) (more : Table String SymbolId) :
    g.Passed p (passed ++ more.map fun (name, target) => ⟨parent, name, target⟩)
      (more.foldl (g.scanExport p parent (g.isModuleLevel p parent)
        (g.declaringPath p parent).length) scan) := by
  induction more generalizing passed scan with
  | nil => simpa using h
  | cons entry more ih =>
    have hnext := ih (h.scanExport ⟨parent, entry.1, entry.2⟩)
    rwa [List.append_assoc] at hnext

theorem Passed.queue_prefix {passed more : List ModuleExport} {scan scan' : ExportScan}
    (h : g.Passed p passed scan) (h' : g.Passed p (passed ++ more) scan') :
    scan.queue.toList <+: scan'.queue.toList := by
  rw [h.queue, h'.queue, List.map_append, List.filter_append, ← List.append_assoc]
  exact eraseDups_prefix _ _

/-- The queue has no more modules than there are entrypoints and symbols. -/
theorem Passed.queue_size_le {passed : List ModuleExport} {scan : ExportScan}
    (h : g.Passed p passed scan) : scan.queue.size ≤ g.roots.length + g.handles.length := by
  have hd : scan.queue.toList.Nodup := h.queue ▸ eraseDups_nodup _
  have hsub : scan.queue.toList ⊆ g.roots.map (·.id) ++ g.handles.keys := by
    intro id hid
    rw [h.queue, List.mem_eraseDups] at hid
    rcases List.mem_append.mp hid with hroot | hmodule
    · exact List.mem_append_left _ hroot
    · have hmodule := (List.mem_filter.mp hmodule).2
      unfold isModule at hmodule
      cases hs : g.handles.get? id with
      | none =>
        rw [hs] at hmodule
        cases hmodule
      | some s => exact List.mem_append_right _ (Table.mem_keys_of_get? hs)
  have hle := (hd.subperm hsub).length_le
  simpa [Table.keys] using hle

/-- The modules that the scan meets are reached from the entrypoints. -/
def Met (g : Graph) (p : Program) (exports : SymbolId → Table String SymbolId) (scan : ExportScan) :
    Prop :=
  ∀ id ∈ scan.queue.toList, ∃ r ∈ g.roots.map (·.id),
    Relation.ReflTransGen (fun a b => b ∈ g.modulesIn p exports a) r id

theorem modulesIn_eq (parent : SymbolId) :
    (((exports parent).map fun (name, target) =>
      (⟨parent, name, target⟩ : ModuleExport)).map (·.target)).filter (g.isModule p) =
      g.modulesIn p exports parent := by
  rw [modulesIn, List.map_map]
  rfl

theorem modulesIn_exportsOfAll (modules : List SymbolId) :
    ((exportsOfAll exports modules).map (·.target)).filter (g.isModule p) =
      modules.flatMap (g.modulesIn p exports) := by
  induction modules with
  | nil => rfl
  | cons parent modules ih =>
    rw [exportsOfAll, List.flatMap_cons, List.map_append, List.filter_append, modulesIn_eq,
      List.flatMap_cons]
    exact congrArg _ ih

/-- What is met after the exports of some reached modules are passed is reached. -/
theorem Passed.met_of_subset {modules : List SymbolId} {scan scan' : ExportScan}
    (h : g.Passed p (exportsOfAll exports modules) scan') (hmet : g.Met p exports scan)
    (hsub : modules ⊆ scan.queue.toList) : g.Met p exports scan' := by
  intro id hid
  rw [h.queue, List.mem_eraseDups, modulesIn_exportsOfAll] at hid
  rcases List.mem_append.mp hid with hroot | hstep
  · exact ⟨id, hroot, .refl⟩
  · obtain ⟨parent, hparent, hstep⟩ := List.mem_flatMap.mp hstep
    obtain ⟨r, hr, hpath⟩ := hmet parent (hsub hparent)
    exact ⟨r, hr, hpath.tail hstep⟩

theorem Passed.all {scan : ExportScan} {i : ℕ}
    (h : g.Passed p (exportsOfAll exports (scan.queue.toList.take i)) scan)
    (hall : scan.queue.size ≤ i) : g.Passed p (exportsOfAll exports scan.queue.toList) scan := by
  rwa [List.take_of_length_le (by simpa using hall)] at h

/-- When the scan ends, the exports of all modules of its queue are passed. -/
theorem scanKnown_passed {n i : ℕ} {scan : ExportScan} (hi : i ≤ scan.queue.size)
    (hn : g.roots.length + g.handles.length ≤ n+i)
    (h : g.Passed p (exportsOfAll exports (scan.queue.toList.take i)) scan)
    (hmet : g.Met p exports scan) :
    g.Passed p (exportsOfAll exports (g.scanKnown p exports n i scan).queue.toList)
      (g.scanKnown p exports n i scan) ∧ g.Met p exports (g.scanKnown p exports n i scan) := by
  induction n generalizing i scan with
  | zero => exact ⟨h.all (h.queue_size_le.trans (by omega)), hmet⟩
  | succ n ih =>
    unfold scanKnown
    cases hparent : scan.queue[i]? with
    | none => exact ⟨h.all (Array.getElem?_eq_none_iff.mp hparent), hmet⟩
    | some parent =>
      dsimp only
      have hnext := h.foldl_scanExport parent (exports parent)
      have hprefix := h.queue_prefix hnext
      have hlt : i < scan.queue.size := by
        by_contra hle
        rw [Array.getElem?_eq_none (Nat.le_of_not_lt hle)] at hparent
        exact absurd hparent (by simp)
      have htake : scan.queue.toList.take (i+1) = scan.queue.toList.take i ++ [parent] := by
        rw [List.take_add_one, Array.getElem?_toList, hparent]
        rfl
      have hpassed : exportsOfAll exports (scan.queue.toList.take i) ++
          (exports parent).map (fun (name, target) => ⟨parent, name, target⟩) =
          exportsOfAll exports (scan.queue.toList.take (i+1)) := by
        rw [htake, exportsOfAll, exportsOfAll, List.flatMap_append, List.flatMap_singleton]
      rw [hpassed] at hnext
      have hmet' := hnext.met_of_subset hmet (List.take_subset _ _)
      -- the modules that were passed are the first of the longer queue too
      have hlonger := hprefix.length_le
      rw [Array.length_toList, Array.length_toList] at hlonger
      obtain ⟨rest, hrest⟩ := hprefix
      have hsame : scan.queue.toList.take (i+1) = (scan.queue.toList ++ rest).take (i+1) :=
        (List.take_append_of_le_length (by simpa using hlt)).symm
      rw [hsame, hrest] at hnext
      exact ih (hlt.trans_le hlonger) (by omega) hnext hmet'

/-- The whole scan: the modules below the entrypoints in breadth-first order, and the best of all
places at which they show symbols. -/
theorem scanKnown_best (hroots : (g.roots.map (·.id)).Nodup) {n : ℕ}
    (hn : g.roots.length + g.handles.length ≤ n) :
    let scan := g.scanKnown p exports n 0 ⟨(g.roots.map (·.id)).toArray, [], 0⟩
    BreadthFirst (g.roots.map (·.id)) (g.modulesIn p exports) scan.queue.toList ∧
      Best (g.sites p (exportsOfAll exports scan.queue.toList)) scan.best := by
  intro scan
  have hstart : g.Passed p (exportsOfAll exports []) ⟨(g.roots.map (·.id)).toArray, [], 0⟩ := by
    refine ⟨⟨List.nodup_nil, fun id site hsite => ?_, fun id site hsite => ?_⟩, ?_, rfl⟩
    · exact absurd hsite List.not_mem_nil
    · exact absurd hsite (by simp [Table.get?])
    · simpa [exportsOfAll] using (eraseDups_eq_self hroots).symm
  have hmet : g.Met p exports ⟨(g.roots.map (·.id)).toArray, [], 0⟩ :=
    fun id hid => ⟨id, hid, .refl⟩
  obtain ⟨hpassed, hreached⟩ := scanKnown_passed (Nat.zero_le _) hn hstart hmet
  refine ⟨.of_firstSeen ?_ hreached, hpassed.toBest⟩
  have hqueue := hpassed.queue
  rwa [modulesIn_exportsOfAll] at hqueue

end Graph

namespace Program

variable {p : Program} {limit : ℕ} {entries : List (String × FileIndex)} {start : Memory}
variable {g : Graph}

/-- Where symbols are shown after a walk, by the exports that the program gives in the end. Shown are
the described symbols that are no entrypoints and that a module exports which is an entrypoint or is
reached from one over modules that export modules. Each is shown where such a module exports it, and
in the best of these places: in a file or a module declared by name rather than in a namespace, then
in the shorter path, then at the earlier export in the only order that scans the modules breadth
first. -/
theorem walk_locations_best (h : (p.walk limit entries start).1 = .ok g) (memory : Memory) :
    let shown := (g.locations p memory).1
    let exports := g.exportsAt p (g.locations p memory).2
    ∃ modules, BreadthFirst (g.roots.map (·.id)) (g.modulesIn p exports) modules ∧
      (∀ order, BreadthFirst (g.roots.map (·.id)) (g.modulesIn p exports) order →
        order = modules) ∧
      (∀ id, id ∈ shown.keys ↔ id ∈ g.symbols.keys ∧ id ∉ g.roots.map (·.id) ∧
        ∃ parent ∈ modules, ∃ name, (name, id) ∈ exports parent) ∧
      ∀ id location, shown.get? id = some location →
        location.parent ∈ modules ∧ (location.exportName, id) ∈ exports location.parent ∧
        ∃ site, site.location = location ∧
          Graph.IsBest (g.sites p (Graph.exportsOfAll exports modules)) id site := by
  intro shown exports
  have hrooted := walk_rooted h
  let roots := (g.roots.map (·.id)).toArray
  let n := roots.size + g.handles.length
  let scan := g.scanKnown p exports n 0 ⟨roots, [], 0⟩
  -- the program answers in the scan as it would in the end
  have hscan : (g.scanFrom p n 0 ⟨roots, [], 0⟩ memory).1 = scan :=
    (Graph.scanFrom_answering (fun id d s hd hs => walk_isModuleLike h hd hs) n 0 ⟨roots, [], 0⟩
      memory).2 (.refl _)
  obtain ⟨hfirst, hbest⟩ : BreadthFirst (g.roots.map (·.id)) (g.modulesIn p exports)
        scan.queue.toList ∧
      Graph.Best (g.sites p (Graph.exportsOfAll exports scan.queue.toList)) scan.best :=
    Graph.scanKnown_best hrooted.rootIds (by simp [n, roots])
  have hget (id : SymbolId) : shown.get? id = (scan.best.get? id).map (·.location) := by
    rw [← Graph.get?_sorted_location hbest.distinct, ← hscan]
    rfl
  refine ⟨scan.queue.toList, hfirst, fun order horder => horder.unique hfirst,
    fun id => ⟨fun hid => ?_, ?_⟩, fun id location hl => ?_⟩
  · obtain ⟨location, hl⟩ := Table.mem_keys_iff.mp hid
    rw [hget] at hl
    obtain ⟨site, hsite, -⟩ := Option.map_eq_some_iff.mp hl
    obtain ⟨e, he, hshown, rfl, -⟩ := Graph.exists_export_of_mem_sites (hbest.best id site hsite).1
    obtain ⟨hparent, hentry⟩ := Graph.mem_exportsOfAll.mp he
    obtain ⟨hhandle, hroot⟩ := Graph.isShown_iff.mp hshown
    exact ⟨hrooted.handles ▸ hhandle, hroot, e.parent, hparent, e.name, hentry⟩
  · rintro ⟨hid, hroot, parent, hparent, name, hentry⟩
    have he : ⟨parent, name, id⟩ ∈ Graph.exportsOfAll exports scan.queue.toList :=
      Graph.mem_exportsOfAll.mpr ⟨hparent, hentry⟩
    have hshown : g.isShown id = true := Graph.isShown_iff.mpr ⟨hrooted.handles ▸ hid, hroot⟩
    obtain ⟨site, hsite⟩ := Graph.exists_site_of_mem (p := p) he hshown
    obtain ⟨best, hb⟩ := Table.mem_keys_iff.mp (hbest.met id site hsite)
    exact Table.mem_keys_of_get? (by rw [hget, hb]; rfl)
  · rw [hget] at hl
    obtain ⟨site, hsite, rfl⟩ := Option.map_eq_some_iff.mp hl
    have hsite := hbest.best id site hsite
    obtain ⟨e, he, -, rfl, hlocation⟩ := Graph.exists_export_of_mem_sites hsite.1
    obtain ⟨hparent, hentry⟩ := Graph.mem_exportsOfAll.mp he
    rw [hlocation]
    exact ⟨hparent, hentry, site, hlocation, hsite⟩

/-- A package with two entrypoints. The first one exports a variable under two names that the second
one declares. -/
def threeWays : Program :=
  (load (FileTree.ofList
    [("/p/index.ts", "export \x7b x, x as y \x7d from \"./m\";"),
      ("/p/m.ts", "export const x = 1;")]).fileSystem (.ofText "/p")
    ["index.ts", "m.ts"]).toOption.getD default

/-- The last of three exports is the best, as its module has the shorter path. -/
theorem threeWays_locations_best :
    ∃ g, (threeWays.walk 8 [("pkg", 0), ("pkg/m", 1)] []).1 = .ok g ∧
      (g.locations threeWays []).1.get? "m.ts:13" = some ⟨"x", "m.ts:0"⟩ ∧
      ∃ modules, BreadthFirst ["index.ts:0", "m.ts:0"]
          (g.modulesIn threeWays (g.exportsAt threeWays (g.locations threeWays []).2)) modules ∧
        ∃ site, site.location = ⟨"x", "m.ts:0"⟩ ∧ Graph.IsBest (g.sites threeWays
          (Graph.exportsOfAll (g.exportsAt threeWays (g.locations threeWays []).2) modules))
          "m.ts:13" site := by
  have hrun : (threeWays.walk 8 [("pkg", 0), ("pkg/m", 1)] []).1.toOption.map (fun g =>
      (g.roots.map (·.id), (g.locations threeWays []).1.get? "m.ts:13")) =
      some (["index.ts:0", "m.ts:0"], some ⟨"x", "m.ts:0"⟩) := by
    decide +kernel
  obtain ⟨g, hok, hrun⟩ := Walk.exists_of_toOption_map hrun
  obtain ⟨hroots, hlocation⟩ := (Prod.mk.injEq ..).mp hrun
  obtain ⟨modules, hfirst, -, -, hbest⟩ := walk_locations_best hok []
  rw [hroots] at hfirst
  obtain ⟨-, -, hsite⟩ := hbest _ _ hlocation
  exact ⟨g, hok, hlocation, modules, hfirst, hsite⟩

end Program

end ApiSurface
