import ApiSurface.Extraction.Externals
import ApiSurface.Proofs.BreadthFirst
import ApiSurface.Proofs.SymbolNames
/-!
Links to symbols of other packages. A link lists the places of a symbol in the order in which they
were bound, and names the symbol as its own package does only where that order is the order of the
places in that package.
-/
namespace ApiSurface

/-! ### Places in order -/

/-- The order of places: by path, and in one file by offset. -/
def PlaceBefore (a b : String × ℕ) : Prop := a.1 < b.1 ∨ a.1 = b.1 ∧ a.2 < b.2

instance (a b : String × ℕ) : Decidable (PlaceBefore a b) := inferInstanceAs (Decidable (_ ∨ _))

theorem placeBefore_iff {a b : String × ℕ} : PlaceBefore a b ↔ toLex a < toLex b :=
  Prod.Lex.lt_iff.symm

theorem placeLe_iff {a b : String × ℕ} : placeLe a b = true ↔ toLex a ≤ toLex b := by
  rw [Prod.Lex.le_iff, placeLe, Bool.or_eq_true, Bool.and_eq_true, decide_eq_true_eq,
    decide_eq_true_eq, beq_iff_eq]
  rfl

instance : Std.Irrefl PlaceBefore := ⟨fun _ h => absurd (placeBefore_iff.mp h) (lt_irrefl _)⟩

instance : Std.Antisymm PlaceBefore :=
  ⟨fun _ _ h h' => absurd (placeBefore_iff.mp h) (lt_asymm (placeBefore_iff.mp h'))⟩

variable {place : String × ℕ} {places : List (String × ℕ)}

theorem insertPlace_sorted (h : places.Pairwise (placeLe · ·)) :
    (insertPlace place places).Pairwise (placeLe · ·) := by
  induction places with
  | nil => exact List.pairwise_singleton _ _
  | cons first places ih =>
    obtain ⟨hfirst, hplaces⟩ := List.pairwise_cons.mp h
    unfold insertPlace
    split
    · next hle =>
      refine List.pairwise_cons.mpr ⟨fun other hother => ?_, h⟩
      rcases List.mem_cons.mp hother with rfl | hother
      · exact hle
      · exact placeLe_iff.mpr ((placeLe_iff.mp hle).trans (placeLe_iff.mp (hfirst other hother)))
    · next hnot =>
      refine List.pairwise_cons.mpr ⟨fun other hother => ?_, ih hplaces⟩
      rcases mem_insertPlace.mp hother with rfl | hother
      · rw [placeLe_iff, not_le] at hnot
        exact placeLe_iff.mpr hnot.le
      · exact hfirst other hother

theorem eraseDups_sublist {α : Type} [BEq α] [LawfulBEq α] (l : List α) :
    l.eraseDups.Sublist l := by
  -- by the length, since the rest is filtered before its duplicates are erased
  induction hn : l.length using Nat.strong_induction_on generalizing l with
  | h n ih =>
    cases l with
    | nil => exact .refl []
    | cons a l =>
      have hshorter : (l.filter fun b => !b == a).length < n := by
        have hle := List.length_filter_le (fun b => !b == a) l
        rw [List.length_cons] at hn
        omega
      rw [List.eraseDups_cons]
      exact ((ih _ hshorter _ rfl).trans List.filter_sublist).cons_cons a

namespace Program

variable {p : Program} {s : SymbolIndex}

/-- The places of a symbol are in order, each listed once. -/
theorem places_sorted (p : Program) (s : SymbolIndex) : (p.places s).Pairwise PlaceBefore := by
  have hsorted (places : List (String × ℕ)) :
      (places.foldr insertPlace []).Pairwise (placeLe · ·) := by
    induction places with
    | nil => exact .nil
    | cons place places ih => exact insertPlace_sorted ih
  have hordered : (p.places s).Pairwise (placeLe · ·) := (hsorted _).sublist (eraseDups_sublist _)
  have hdistinct : (p.places s).Nodup := eraseDups_nodup _
  refine (hordered.and hdistinct).imp fun {a b} ⟨hle, hne⟩ => placeBefore_iff.mpr ?_
  exact lt_of_le_of_ne (placeLe_iff.mp hle) fun heq => hne (toLex.injective heq)

/-- The places of a symbol of a loaded program are its sites, shown in the root of the program. -/
theorem mem_places_iff_sites {fs : FileSystem} {root : Path} {entries : List String}
    (h : load fs root entries = .ok p) {place : String × ℕ} :
    place ∈ p.places s ↔
      ∃ site ∈ (p.external s).sites, (site.1.display p.root, site.2) = place := by
  rw [mem_places, external]
  simp only [List.mem_map, exists_exists_and_eq_and]
  refine exists_congr fun site => and_congr_right fun hsite => ?_
  -- files are parsed under the names by which they are shown
  obtain ⟨f, hi, -⟩ := exists_file_of_declaredAt h hsite
  obtain ⟨text, -, hsource⟩ := (Loaded.load_filed (load_bind h).1).1.read f
    (Array.mem_toList_iff.mpr (Array.mem_of_getElem? hi))
  have hname : p.relativePath site = (p.file site.fileIndex).path.display p.root := by
    rw [relativePath, source_eq hi, hsource, file, Array.getD_eq_getD_getElem?, hi,
      Option.getD_some]
    rfl
  rw [hname]

end Program

/-! ### How files are shown -/

namespace FileSystem

/-- Sites in the order of their places in a package, each once, with files that are shown in links
to the package as it shows them itself. -/
structure Lists (root : Path) (sites : List (Path × ℕ)) : Prop where
  shown : ∀ site ∈ sites, shownIn root site.1 = site.1.display root
  sorted : (sites.map fun site => (shownIn root site.1, site.2)).Pairwise PlaceBefore

/-- A file as it is shown in a package and in links to it: the path is one from the root on without
detours, and no part of what is shown reads like a place. -/
structure Ordinary (root file : Path) : Prop where
  direct : file.normalize = file
  absolute : file.isAbsolute = true
  slash : '\\' ∉ file.chars
  plain : SymbolId.PlainName (file.display root)
  plain_link : SymbolId.PlainName (shownIn root file)

theorem shownIn_of_below {root file : Path} {steps : List Path.Component}
    (h : file.below? root = some steps) : shownIn root file = file.display root := by
  rw [shownIn, Path.display, h]
  rfl

variable {root file : Path}

/-- A program shows no ordinary file with two slashes in front. -/
theorem Ordinary.display_ne (h : Ordinary root file) (hroot : root.isAbsolute = true)
    (rest : List Char) : (file.display root).toList ≠ '/' :: '/' :: rest := by
  have hvalid := Path.place_valid file
  have hpath : file.place.path = file := h.direct
  have habsolute := Path.absolute_of_isAbsolute hvalid (hpath.symm ▸ h.absolute)
  rcases Path.display_path hvalid habsolute hroot (hpath.symm ▸ h.slash) with
    ⟨names, hnames, -, hshown⟩ | ⟨-, hshown⟩
  · rw [hpath] at hshown
    rw [hshown, String.toList_ofList]
    exact Path.intercalate_ne_slash hnames _
  · rw [hpath] at hshown
    rw [hshown, String.toList_ofList, ← hpath, Path.Place.path, habsolute]
    have hnames : ∀ n ∈ file.place.names.reverse, Path.IsName n :=
      fun n hn => hvalid n (List.mem_reverse.mp hn)
    exact fun heq => Path.intercalate_ne_slash hnames rest (List.cons.inj heq).2

/-- A link shows an ordinary file that lies elsewhere with two slashes in front, unless it shows it
as a program does. -/
theorem Ordinary.shown_of_ne (h : Ordinary root file)
    (hne : shownIn root file ≠ file.display root) :
    ∃ rest, (shownIn root file).toList = '/' :: '/' :: rest := by
  have hvalid := Path.place_valid file
  have hpath : file.place.path = file := h.direct
  have habsolute := Path.absolute_of_isAbsolute hvalid (hpath.symm ▸ h.absolute)
  cases hbelow : file.below? root with
  | some steps => exact absurd (shownIn_of_below hbelow) hne
  | none =>
    have hsteps : file.components = .root :: file.place.names.reverse.map .name := by
      rw [← hpath, Path.Place.components_path hvalid, Path.Place.components, hpath, habsolute]
      rfl
    have hshown : shownIn root file = Path.textOf file.components := by
      rw [shownIn, hbelow, Option.getD_none]
    have htext : file.place.path.chars = '/' :: ['/'].intercalate file.place.names.reverse := by
      rw [Path.Place.path, habsolute]
      rfl
    rw [hpath] at htext
    cases hnames : file.place.names.reverse with
    | nil =>
      refine absurd ?_ hne
      rw [hshown, Path.display, hbelow, hsteps, htext, hnames]
      rfl
    | cons n names =>
      rw [hshown, Path.textOf, hsteps, hnames, String.toList_ofList]
      exact ⟨_, by simp [List.intercalate_cons_cons, Path.Component.chars]; rfl⟩

end FileSystem

namespace Program

variable {fs fs' : FileSystem} {p q : Program} {s t : SymbolIndex} {root : Path}
  {entries : List String}

/-- Sites that are listed as a package lists them make the name that the symbol has there. -/
theorem ofSites_eq_symbolId (h : load fs root entries = .ok q) {sites : List (Path × ℕ)}
    (hsites : ∀ site, site ∈ (q.external t).sites ↔ site ∈ sites)
    (hlists : FileSystem.Lists q.root sites) :
    SymbolId.ofSites (sites.map fun site => (FileSystem.shownIn q.root site.1, site.2)) =
      q.symbolId t := by
  rw [symbolId]
  congr 1
  refine hlists.sorted.eq_of_mem_iff (q.places_sorted t) fun place => ?_
  rw [List.mem_map, mem_places_iff_sites h]
  refine exists_congr fun site => ?_
  rw [hsites]
  exact and_congr_right fun hsite => by rw [hlists.shown site hsite]

/-- If the name is that of the symbol, the sites of ordinary files are listed as the package lists
them. -/
theorem lists_of_ofSites_eq (h : load fs root entries = .ok q) {sites : List (Path × ℕ)}
    (hsites : ∀ site, site ∈ (q.external t).sites ↔ site ∈ sites) (hne : sites ≠ [])
    (hroot : q.root.isAbsolute = true)
    (hordinary : ∀ site ∈ sites, FileSystem.Ordinary q.root site.1)
    (heq : SymbolId.ofSites (sites.map fun site => (FileSystem.shownIn q.root site.1, site.2)) =
      q.symbolId t) : FileSystem.Lists q.root sites := by
  have hmem (place : String × ℕ) : place ∈ q.places t ↔
      ∃ site ∈ sites, (site.1.display q.root, site.2) = place := by
    rw [mem_places_iff_sites h]
    simp only [hsites]
  have hplaces : (sites.map fun site => (FileSystem.shownIn q.root site.1, site.2)) =
      q.places t := by
    refine SymbolId.ofSites_inj (List.map_eq_nil_iff.not.mpr hne) ?_ ?_ ?_ heq
    · obtain ⟨site, hsite⟩ := List.exists_mem_of_ne_nil _ hne
      exact List.ne_nil_of_mem ((hmem _).mpr ⟨site, hsite, rfl⟩)
    · rintro _ hplace
      obtain ⟨site, hsite, rfl⟩ := List.mem_map.mp hplace
      exact (hordinary site hsite).plain_link
    · intro place hplace
      obtain ⟨site, hsite, rfl⟩ := (hmem place).mp hplace
      exact (hordinary site hsite).plain
  refine ⟨fun site hsite => ?_, hplaces ▸ q.places_sorted t⟩
  by_contra hshown
  obtain ⟨rest, hrest⟩ := (hordinary site hsite).shown_of_ne hshown
  obtain ⟨other, hother, hplace⟩ := (hmem (FileSystem.shownIn q.root site.1, site.2)).mp
    (hplaces ▸ List.mem_map_of_mem hsite)
  exact (hordinary other hother).display_ne hroot rest ((Prod.mk.inj hplace).1 ▸ hrest)

/-- A symbol of another package whose first file lies in a package with a name and a version is
linked to that package. The name in the link is that of the symbol with the same sites in a program
with the package for its root, if the sites were bound in the order in which the package lists them,
and for ordinary files only then. -/
theorem link_names_symbol {first : Site} {dir : Path} {m : Manifest} {package version : String}
    (hload : load fs' root entries = .ok q)
    (hfirst : (p.symbol s).declarations.head? = some first)
    (hdir : (p.file first.fileIndex).path.parent? = some dir)
    (hpackage : fs.packageRoot? dir = some (q.root, m)) (hname : m.name = some package)
    (hversion : m.version = some version)
    (hsites : ∀ site, site ∈ (q.external t).sites ↔ site ∈ (p.external s).sites) :
    ∃ id, fs.link? (p.external s).sites = some ⟨package, version, id⟩ ∧
      (FileSystem.Lists q.root (p.external s).sites → id = q.symbolId t) ∧
      (q.root.isAbsolute = true →
        (∀ site ∈ (p.external s).sites, FileSystem.Ordinary q.root site.1) →
          id = q.symbolId t → FileSystem.Lists q.root (p.external s).sites) := by
  have hhead : (p.external s).sites.head? =
      some ((p.file first.fileIndex).path, p.offset first) := by
    rw [external, List.head?_map, hfirst]
    rfl
  have hne : (p.external s).sites ≠ [] := by
    intro hnil
    rw [hnil] at hhead
    cases hhead
  refine ⟨_, ?_, ofSites_eq_symbolId hload hsites, lists_of_ofSites_eq hload hsites hne⟩
  rw [FileSystem.link?, hhead]
  simp only [Option.bind_eq_bind, Option.bind_some, hdir, hpackage, hname, hversion]
  rfl

/-- A package that declares an interface in two files, which its entrypoint names, and a package
that mentions it. -/
def linkedFiles (entrypoint : String) : FileTree := .ofList
  [("/p/index.ts", "import \"dep\";\nexport let g: G;"),
    ("/p/node_modules/dep/package.json", "\x7b\"name\": \"dep\", \"version\": \"1.0.0\"\x7d"),
    ("/p/node_modules/dep/index.d.ts", entrypoint),
    ("/p/node_modules/dep/a.d.ts", "interface G \x7b a: 1 \x7d"),
    ("/p/node_modules/dep/b.d.ts", "interface G \x7b b: 1 \x7d")]

/-- The directory of the package that declares it. -/
def depRoot : Path := .ofText "/p/node_modules/dep"

/-- The files in which the interface is declared, with the offsets of its name. -/
def mergedSites : List (Path × ℕ) := [(depRoot.child "a.d.ts", 10), (depRoot.child "b.d.ts", 10)]

theorem mergedSites_lists : FileSystem.Lists depRoot mergedSites :=
  ⟨by decide +kernel, by decide +kernel⟩

theorem mergedSites_ordinary : ∀ site ∈ mergedSites, FileSystem.Ordinary depRoot site.1 := by
  have hplain : ∀ site ∈ mergedSites, site.1.normalize = site.1 ∧ site.1.isAbsolute = true ∧
      '\\' ∉ site.1.chars ∧ ':' ∉ (site.1.display depRoot).toList ∧
      ':' ∉ (FileSystem.shownIn depRoot site.1).toList := by decide +kernel
  intro site hsite
  obtain ⟨hdirect, habsolute, hslash, hdisplay, hlink⟩ := hplain site hsite
  exact ⟨hdirect, habsolute, hslash, SymbolId.plainName_of_not_mem hdisplay,
    SymbolId.plainName_of_not_mem hlink⟩

theorem merged_link_names_symbol :
    let fs := (linkedFiles "import \"./a\"; import \"./b\";").fileSystem
    ∃ p q id, load fs (.ofText "/p") ["index.ts"] = .ok p ∧
      load fs depRoot ["index.d.ts"] = .ok q ∧ (p.external 3).sites = mergedSites ∧
      fs.link? mergedSites = some ⟨"dep", "1.0.0", id⟩ ∧ id = q.symbolId 1 ∧
      (id = q.symbolId 1 ↔ FileSystem.Lists depRoot mergedSites) := by
  intro fs
  have hrun : (load fs (.ofText "/p") ["index.ts"]).toOption.map (fun p =>
      ((p.external 3).sites, (p.symbol 3).declarations.head?, (p.file 2).path.parent?)) =
      some (mergedSites, some (.declaration 2 0), some depRoot) := by decide +kernel
  have hrun' : (load fs depRoot ["index.d.ts"]).toOption.map (fun q =>
      ((q.external 1).sites, q.root)) = some (mergedSites, depRoot) := by decide +kernel
  have hdep : fs.packageRoot? depRoot =
      some (depRoot, ⟨some "dep", some "1.0.0", none, none, none⟩) := by decide +kernel
  obtain ⟨p, hload, hp⟩ := Walk.exists_of_toOption_map hrun
  obtain ⟨q, hload', hq⟩ := Walk.exists_of_toOption_map hrun'
  simp only [Prod.mk.injEq] at hp hq
  obtain ⟨hsites, hfirst, hdir⟩ := hp
  obtain ⟨hsites', hroot⟩ := hq
  have hpackage : fs.packageRoot? depRoot =
      some (q.root, ⟨some "dep", some "1.0.0", none, none, none⟩) := by rw [hdep, hroot]
  obtain ⟨id, hlink, hid, hlists⟩ := link_names_symbol (s := 3) (t := 1) hload' hfirst hdir
    hpackage rfl rfl fun site => by rw [hsites, hsites']
  rw [hsites] at hlink hid hlists
  rw [hroot] at hid hlists
  exact ⟨p, q, id, hload, hload', hsites, hlink, hid mergedSites_lists,
    hlists (by decide +kernel) mergedSites_ordinary, hid⟩

/-- Where the entrypoint names the files in another order, the interface goes by different names in
the link to it and in its package. -/
theorem merged_link_differs :
    let fs := (linkedFiles "import \"./b\"; import \"./a\";").fileSystem
    ∃ p g q, load fs (.ofText "/p") ["index.ts"] = .ok p ∧
      (p.walk 8 [("pkg", 0)] []).1 = .ok g ∧ load fs depRoot ["index.d.ts"] = .ok q ∧
      g.externals.map (·.2.sites) = [(q.external 1).sites] ∧
      (fs.link? (q.external 1).sites).map (·.id) = some "b.d.ts:10+a.d.ts:10" ∧
      q.symbolId 1 = "a.d.ts:10+b.d.ts:10" := by
  intro fs
  have hrun : (load fs (.ofText "/p") ["index.ts"]).toOption.map (fun p =>
      (p.walk 8 [("pkg", 0)] []).1.toOption.map fun g => g.externals.map (·.2.sites)) =
      some (some [mergedSites.reverse]) := by decide +kernel
  have hrun' : (load fs depRoot ["index.d.ts"]).toOption.map (fun q =>
      ((q.external 1).sites, q.symbolId 1)) =
      some (mergedSites.reverse, "a.d.ts:10+b.d.ts:10") := by decide +kernel
  have hlink : (fs.link? mergedSites.reverse).map (·.id) = some "b.d.ts:10+a.d.ts:10" := by
    decide +kernel
  obtain ⟨p, hload, hwalk⟩ := Walk.exists_of_toOption_map hrun
  obtain ⟨g, hg, hexternals⟩ := Walk.exists_of_toOption_map hwalk
  obtain ⟨q, hload', hq⟩ := Walk.exists_of_toOption_map hrun'
  simp only [Prod.mk.injEq] at hq
  obtain ⟨hsites, hid⟩ := hq
  exact ⟨p, g, q, hload, hg, hload', by rw [hexternals, hsites], by rw [hsites, hlink], hid⟩

end Program

end ApiSurface
