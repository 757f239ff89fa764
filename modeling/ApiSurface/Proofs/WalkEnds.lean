import ApiSurface.Proofs.BoundSites
import ApiSurface.Proofs.ClosedGraph
/-!
Whether a walk comes to an end. Each symbol is described once, so it does, unless a mention is
followed over imports that lead to each other in a circle.
-/
namespace ApiSurface

namespace Walk

variable {p : Program} {w : Walk}

section

variable {ε σ α β : Type} {x : ExceptT ε (StateM σ) α} {f : α → ExceptT ε (StateM σ) β} {s s' : σ}

theorem bind_run_of_ok {a : α} (h : x.run.run s = (.ok a, s')) :
    (x >>= f).run.run s = (f a).run.run s' := by
  simp only [ExceptT.run_bind, StateT.run_bind, h]
  rfl

theorem bind_run_of_error {e : ε} (h : x.run.run s = (.error e, s')) :
    (x >>= f).run.run s = (.error e, s') := by
  simp only [ExceptT.run_bind, StateT.run_bind, h]
  rfl

end

/-- The modules of all entrypoints come to the queue. -/
theorem foldlM_addRoot_ok {entries : List (String × FileIndex)}
    (hmodules : ∀ e ∈ entries, ∃ s, p.modules.get? e.2 = some s) (roots : List RootModule)
    (hqueue : ∀ s ∈ w.queue.toList, ∃ file, p.modules.get? file = some s) :
    ∃ roots' w', (entries.foldlM (addRoot p) roots).run.run w = (.ok roots', w') ∧
      ∀ s ∈ w'.queue.toList, ∃ file, p.modules.get? file = some s := by
  induction entries generalizing roots w with
  | nil => exact ⟨roots, w, rfl, hqueue⟩
  | cons entry entries ih =>
    obtain ⟨specifier, file⟩ := entry
    obtain ⟨s, hs⟩ := hmodules (specifier, file) List.mem_cons_self
    have hrest := fun e he => hmodules e (List.mem_cons_of_mem _ he)
    have hrun := addRoot_run (p := p) roots specifier file w
    rw [hs] at hrun
    dsimp only at hrun
    rw [List.foldlM_cons]
    split at hrun
    · rw [bind_run_of_ok hrun]
      exact ih hrest roots hqueue
    · rw [bind_run_of_ok hrun]
      refine ih hrest _ fun t ht => ?_
      rcases mem_enqueue.mp ht with ht | rfl
      · exact hqueue t ht
      · exact ⟨file, hs⟩

variable {roots : List SymbolIndex} {i : ℕ} {done : Described}

theorem Progress.declared (h : Progress p roots i done w)
    (hroots : ∀ s ∈ roots, (p.symbol s).declarations ≠ []) {s : SymbolIndex}
    (hs : s ∈ w.queue.toList) : (p.symbol s).declarations ≠ [] := by
  rcases h.queued s hs with hs | hs
  · exact hroots s hs
  · intro hnone
    simp [Program.isInternal, hnone] at hs

/-- Describing what is in the queue fails only at imports in a circle. -/
theorem describeFrom_result (limit n : ℕ) (h : Progress p roots i done w)
    (hroots : ∀ s ∈ roots, (p.symbol s).declarations ≠ []) :
    (∃ done' w', (describeFrom p limit n i done).run.run w = (.ok done', w')) ∨
      ∃ w', (describeFrom p limit n i done).run.run w = (.error .endless, w') ∧
        p.Circular w'.memory := by
  induction n generalizing i done w with
  | zero => exact Or.inl ⟨done, w, rfl⟩
  | succ n ih =>
    rw [describeFrom_succ]
    cases hs : w.queue[i]? with
    | none => exact Or.inl ⟨done, w, rfl⟩
    | some s =>
      have hmem : s ∈ w.queue.toList := by
        rw [← Array.getElem?_toList] at hs
        exact List.mem_of_getElem? hs
      dsimp only
      by_cases hhas : done.symbols.has (p.symbolId s) = true
      · rw [if_pos hhas]
        exact ih (h.skip hs (Table.has_iff.mp hhas))
      rw [if_neg hhas]
      have hdeclared := h.declared hroots hmem
      rw [if_neg (by simpa using hdeclared)]
      have hnoting : Noting p [] (Walk.describe p limit s) DocSymbol.ids :=
        describe_noting limit s
      obtain ⟨hg, hids⟩ := hnoting { w with current := some (p.symbolId s) } (by simp)
      split
      · next he =>
        refine Or.inr ⟨_, rfl, ?_⟩
        rcases hg.endless he with he | hc
        · exact absurd (he.symm.trans h.calm) (by simp)
        · exact hc
      · next he =>
        have hid : p.symbolId s ∉ done.symbols.keys := fun hid => hhas (Table.has_iff.mpr hid)
        exact ih (h.describe hs hid hg (Bool.eq_false_of_not_eq_true he) hids)

end Walk

/-- No symbol is described under two names. -/
theorem Graph.Rooted.handles_nodup {p : Program} {g : Graph} (h : g.Rooted p) :
    (g.handles.map (·.2)).Nodup := by
  have hd : g.handles.keys.Nodup := h.handles ▸ h.distinct
  have hnames : (g.handles.map (·.2)).map p.symbolId = g.handles.keys := by
    rw [List.map_map]
    refine List.map_congr_left fun entry hentry => ?_
    exact h.symbolId entry.1 entry.2 ((Table.get?_eq_some_iff hd).mpr hentry)
  exact List.Nodup.of_map p.symbolId (hnames ▸ hd)

namespace Program

variable {fs : FileSystem} {root : Path} {names : List String} {p : Program}

/-- After the entrypoints are added, the walk is the description of what comes to the queue. -/
theorem walk_of_roots {entries : List (String × FileIndex)} (hentries : entries ≠ [])
    {memory : Memory} {roots : List RootModule} {w : Walk}
    (hroots : (entries.foldlM (Walk.addRoot p) []).run.run { Walk.start with memory := memory } =
      (.ok roots, w)) (limit : ℕ) :
    p.walk limit entries memory =
      let r := (Walk.describeFrom p limit (p.symbols.size+1) 0 default).run.run w
      (r.1.map fun done => ⟨roots, done.symbols, done.handles, r.2.references, r.2.externals⟩,
        r.2.memory) := by
  have hnonempty : entries.isEmpty = false := by simpa using hentries
  unfold walk
  simp only [hnonempty, Bool.false_eq_true, if_false]
  rw [Walk.bind_run_of_ok hroots]
  rcases hdone : (Walk.describeFrom p limit (p.symbols.size+1) 0 default).run.run w with ⟨r, w'⟩
  cases r with
  | ok done =>
    rw [Walk.bind_run_of_ok hdone]
    rfl
  | error e =>
    rw [Walk.bind_run_of_error hdone]
    rfl

/-- A walk from entrypoints that are modules comes to its end, with each symbol described once and
all that they name described or in another package, or else it follows imports that lead to each
other in a circle. It never fails in any other way. -/
theorem walk_ends (h : load fs root names = .ok p) {entries : List (String × FileIndex)}
    (hentries : entries ≠ [])
    (hmodules : ∀ e ∈ entries, ∃ f, p.files[e.2]? = some f ∧ f.source.isModule = true)
    (limit : ℕ) (memory : Memory) :
    (∃ g, (p.walk limit entries memory).1 = .ok g ∧ g.symbols.keys.Nodup ∧
      g.handles.keys = g.symbols.keys ∧ (g.handles.map (·.2)).Nodup ∧
      ∀ b d, g.symbols.get? b = some d → ∀ id ∈ d.ids,
        id ∈ g.symbols.keys ∨ id ∈ g.externals.keys) ∨
    (p.walk limit entries memory).1 = .error .endless ∧
      p.Circular (p.walk limit entries memory).2 := by
  have hbound := load_filesBound h
  have hentry : ∀ e ∈ entries, ∃ s, p.modules.get? e.2 = some s := by
    intro e he
    obtain ⟨f, hf, hmodule⟩ := hmodules e he
    exact hbound.exists_module e.2 f (by rwa [Array.getElem?_toList]) hmodule
  obtain ⟨roots, w, hroots, hqueue⟩ := Walk.foldlM_addRoot_ok hentry []
    (w := { Walk.start with memory := memory }) (fun s hs => absurd hs List.not_mem_nil)
  obtain ⟨hstarted, -⟩ := Walk.foldlM_addRoot (started_start p memory) hroots
  have hdeclared : ∀ s ∈ w.queue.toList, (p.symbol s).declarations ≠ [] := by
    intro s hs
    obtain ⟨file, hfile⟩ := hqueue s hs
    exact List.ne_nil_of_mem (hbound.declaredAt file s hfile)
  have hwalk := walk_of_roots hentries hroots limit
  rcases Walk.describeFrom_result limit (p.symbols.size+1) hstarted.progress hdeclared with
    ⟨done, w', hdone⟩ | ⟨w', hdone, hcircular⟩
  · rw [hdone] at hwalk
    have hok := congrArg Prod.fst hwalk
    have hrooted := walk_rooted hok
    obtain ⟨_, k, done', last, hp, hk, -, -, -, hg⟩ := walk_progress hok
    refine Or.inl ⟨_, hok, hrooted.distinct, hrooted.handles, hrooted.handles_nodup, ?_⟩
    rw [hg]
    intro b d hb id hid
    rcases hp.known b d hb id hid with ⟨s, hs, rfl⟩ | he
    · exact Or.inl (hp.described_of_mem hk hs)
    · exact Or.inr he
  · rw [hdone] at hwalk
    refine Or.inr ⟨congrArg Prod.fst hwalk, ?_⟩
    rw [hwalk]
    exact hcircular

/-- A package with an enum that is a namespace too, which exports two imports of each other. -/
def twoImports : FileSystem := (FileTree.ofList
  [("/p/index.ts", "export enum E \x7b\x7d\nexport namespace E \x7b " ++
    "export import A = E.B; export import B = E.A; \x7d")]).fileSystem

/-- The same with three imports, each of the next one. -/
def threeImports : FileSystem := (FileTree.ofList
  [("/p/index.ts", "export enum E \x7b\x7d\nexport namespace E \x7b " ++
    "export import A = E.B; export import B = E.C; export import C = E.A; \x7d")]).fileSystem

theorem exists_module_of_single {f : LoadedFile → Bool} (h : p.files.toList.map f = [true]) :
    ∀ e ∈ [("pkg", 0)], ∃ file, p.files[e.2]? = some file ∧ f file = true := by
  obtain ⟨file, hfile, hf⟩ := List.map_eq_singleton_iff.mp h
  intro e he
  obtain rfl := List.mem_singleton.mp he
  exact ⟨file, by rw [← Array.getElem?_toList, hfile]; rfl, hf⟩

/-- A row of imports that comes back to where it was just before is seen to lead nowhere. -/
theorem twoImports_walk_ends : ∃ p, load twoImports (.ofText "/p") ["index.ts"] = .ok p ∧
    ∃ g, (p.walk 8 [("pkg", 0)] []).1 = .ok g ∧ (g.handles.map (·.2)).Nodup ∧
      g.externals.keys = ["global:B", "global:A"] := by
  have hrun : (load twoImports (.ofText "/p") ["index.ts"]).toOption.map (fun p =>
      (p.files.toList.map (·.source.isModule),
        (p.walk 8 [("pkg", 0)] []).1.toOption.map (·.externals.keys))) =
      some ([true], some ["global:B", "global:A"]) := by
    decide +kernel
  obtain ⟨p, hload, hrun⟩ := Walk.exists_of_toOption_map hrun
  obtain ⟨hmodule, hkeys⟩ := (Prod.mk.injEq ..).mp hrun
  rcases walk_ends hload (by simp) (exists_module_of_single hmodule) 8 [] with
    ⟨g, hok, -, -, hd, -⟩ | ⟨hendless, -⟩
  · rw [hok] at hkeys
    exact ⟨p, hload, g, hok, hd, Option.some.inj hkeys⟩
  · rw [hendless] at hkeys
    cases hkeys

/-- Three imports of each other are followed without end. -/
theorem three_imports_endless :
    ¬ ∀ (fs : FileSystem) (root : Path) (names : List String) (p : Program),
      load fs root names = .ok p → ∀ entries : List (String × FileIndex), entries ≠ [] →
      (∀ e ∈ entries, ∃ f, p.files[e.2]? = some f ∧ f.source.isModule = true) →
      ∀ limit memory, ∃ g, (p.walk limit entries memory).1 = .ok g := by
  intro hclaim
  have hrun : (load threeImports (.ofText "/p") ["index.ts"]).toOption.map (fun p =>
      (p.files.toList.map (·.source.isModule), (p.walk 8 [("pkg", 0)] []).1.toOption.isNone)) =
      some ([true], true) := by
    decide +kernel
  obtain ⟨p, hload, hrun⟩ := Walk.exists_of_toOption_map hrun
  obtain ⟨hmodule, hnone⟩ := (Prod.mk.injEq ..).mp hrun
  obtain ⟨g, hok⟩ := hclaim _ _ _ p hload [("pkg", 0)] (by simp) (exists_module_of_single hmodule)
    8 []
  rw [hok] at hnone
  cases hnone

end Program

end ApiSurface
