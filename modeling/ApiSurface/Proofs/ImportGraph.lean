import ApiSurface.Proofs.BoundSites
import ApiSurface.Proofs.ClosedGraph
import ApiSurface.Proofs.LoadedFiles
import ApiSurface.Proofs.Searches
/-!
Loading follows the imports of files to the end. What a search finds is a source file that is there,
so every file that it comes to can be read; a loaded program has each file once, knows for each
specifier the file that it leads to, and holds no file that its entrypoints do not lead to.
-/
namespace ApiSurface

namespace Path

variable {p q : Path}

/-- The path ends like that of a source file. -/
def IsSource (p : Path) : Prop := ∃ e ∈ sourceEndings, e.toList <:+ p.chars

theorem isSource_withEnding {e : String} (he : e ∈ sourceEndings) (n : ℕ) :
    (p.withEnding n e).IsSource :=
  ⟨e, he, List.suffix_append _ _⟩

/-- All that may be meant by a path are source files. -/
theorem isSource_of_mem_spellings (h : q ∈ p.spellings) : q.IsSource := by
  have hsource : ∀ e ∈ fileEndings, e.isSource = true → e.text ∈ sourceEndings := by decide
  have hsources : ∀ e ∈ fileEndings, ∀ s ∈ e.sources, s ∈ sourceEndings := by decide
  rcases List.mem_append.mp h with h | h
  · split at h
    · next e he =>
      have hmem := List.mem_of_find?_eq_some he
      rcases List.mem_append.mp h with h | h
      · split at h
        · next hcode =>
          obtain rfl := List.mem_singleton.mp h
          have hends : q.endsWith e.text = true := List.find?_some (p := fun e : FileEnding => q.endsWith e.text) he
          exact ⟨e.text, hsource e hmem hcode, List.isSuffixOf_iff_suffix.mp hends⟩
        · cases h
      · obtain ⟨s, hs, rfl⟩ := List.mem_map.mp h
        exact isSource_withEnding (hsources e hmem s hs) _
    · cases h
  · obtain ⟨s, hs, rfl⟩ := List.mem_map.mp h
    exact isSource_withEnding hs 0

/-! ### The end of a path without detours -/

theorem piecesAt_append_last {ending : List Char} (h : '/' ∉ ending) (cs : List Char) :
    ∃ pieces last, piecesAt '/' (cs ++ ending) = pieces ++ [last ++ ending] := by
  induction cs with
  | nil =>
    refine ⟨[], [], ?_⟩
    induction ending with
    | nil => rfl
    | cons c ending ih =>
      have hc : c ≠ '/' := fun heq => h (heq ▸ List.mem_cons_self)
      have ih : piecesAt '/' ending = [ending] := ih fun hmem => h (List.mem_cons_of_mem c hmem)
      simp [piecesAt, hc, ih]
  | cons c cs ih =>
    obtain ⟨pieces, last, heq⟩ := ih
    rw [List.cons_append, piecesAt, heq]
    split
    · exact ⟨[] :: pieces, last, rfl⟩
    · cases pieces with
      | nil => exact ⟨[], c :: last, rfl⟩
      | cons piece pieces => exact ⟨(c :: piece) :: pieces, last, rfl⟩

theorem ofPiece_of_length {piece : List Char} (h : 2 < piece.length) :
    Component.ofPiece? piece = some (.name piece) := by
  unfold Component.ofPiece?
  split <;> simp_all

/-- The last step of a path takes the end of its text with it, if that is longer than two dots. -/
theorem exists_components {ending : List Char} (hslash : '/' ∉ ending) (hlong : 2 < ending.length)
    (h : ending <:+ p.chars) : ∃ steps last, p.components = steps ++ [.name (last ++ ending)] := by
  obtain ⟨front, hfront⟩ := h
  have hpieces (cs : List Char) : ∃ steps last,
      (piecesAt '/' (cs ++ ending)).filterMap Component.ofPiece? =
        steps ++ [Component.name (last ++ ending)] := by
    obtain ⟨pieces, last, heq⟩ := piecesAt_append_last hslash cs
    have hlast : 2 < (last ++ ending).length := by
      rw [List.length_append]
      omega
    refine ⟨pieces.filterMap Component.ofPiece?, last, ?_⟩
    rw [heq, List.filterMap_append, List.filterMap_cons_some (ofPiece_of_length hlast)]
    rfl
  unfold components
  rw [← hfront]
  split
  · next rest hrest =>
    cases front with
    | nil =>
      rw [List.nil_append] at hrest
      exact absurd (hrest ▸ List.mem_cons_self) hslash
    | cons c front =>
      obtain ⟨steps, last, heq⟩ := hpieces front
      rw [← (List.cons.inj hrest).2]
      exact ⟨.root :: steps, last, congrArg (Component.root :: ·) heq⟩
  · split
    · next pieces hdot =>
      -- the dot at the front is not the last piece, which is longer
      obtain ⟨before, last, heq⟩ := piecesAt_append_last hslash front
      rw [hdot] at heq
      cases before with
      | nil =>
        have hdots := congrArg List.length (List.cons.inj heq).1
        simp only [List.length_append, List.length_singleton] at hdots
        omega
      | cons piece before =>
        obtain ⟨-, rfl⟩ := List.cons.inj heq
        have hlast : 2 < (last ++ ending).length := by
          rw [List.length_append]
          omega
        refine ⟨.here :: before.filterMap Component.ofPiece?, last, ?_⟩
        rw [List.append_eq, List.filterMap_append,
          List.filterMap_cons_some (ofPiece_of_length hlast)]
        rfl
    · exact hpieces front

theorem suffix_intercalate (names : List (List Char)) (n : List Char) :
    n <:+ ['/'].intercalate (names ++ [n]) := by
  induction names with
  | nil => exact ⟨[], by simp [List.intercalate]⟩
  | cons m names ih =>
    refine ih.trans ⟨m ++ ['/'], ?_⟩
    cases names <;> simp [List.intercalate]

/-- Without its detours, a path of a source file is one still. -/
theorem IsSource.normalize (h : p.IsSource) : p.normalize.IsSource := by
  obtain ⟨e, he, hsuffix⟩ := h
  have hending : ∀ e ∈ sourceEndings, '/' ∉ e.toList ∧ 2 < e.toList.length := by decide
  obtain ⟨steps, last, hsteps⟩ := exists_components (hending e he).1 (hending e he).2 hsuffix
  have hplace : p.place = (steps.foldl Place.step .start).step (.name (last ++ e.toList)) := by
    rw [place, hsteps, List.foldl_append]
    rfl
  refine ⟨e, he, (List.suffix_append last e.toList).trans ?_⟩
  rw [Path.normalize, hplace, Place.path, Place.step, List.reverse_cons]
  exact (suffix_intercalate _ _).trans (List.suffix_append _ _)

end Path

namespace FileSystem

variable {fs : FileSystem} {p file : Path} {ps : List Path}

/-- A search finds a file among those that are meant by some path. -/
theorem Finds.source {r : Option Path} (h : fs.Finds p r) :
    ∀ file ∈ r, ∃ q, fs.source? q = some file := by
  induction h with
  | @file p found h =>
    rintro file ⟨⟩
    exact ⟨p, h⟩
  | nowhere => exact fun file hfile => nomatch hfile
  | entry _ _ _ _ _ _ ih => exact ih
  | @index p => exact fun file hfile => ⟨p.child "index", hfile⟩

theorem source_of_first (h : Probe.first fs.search ps = .found file) :
    ∃ q, fs.source? q = some file := by
  have hfound : Probe.first fs.search ps ≠ .missing := by
    rw [h]
    exact Probe.noConfusion
  obtain ⟨-, p, -, -, -, hp⟩ := Probe.exists_of_first_ne hfound
  have hfinds : fs.Finds p (some file) := finds_of_probe (hp.trans h)
  exact hfinds.source file rfl

theorem source_of_file {o : Probe} (ho : ∃ ps, o = Probe.first fs.search ps)
    (h : o.file? = some file) : ∃ q, fs.source? q = some file := by
  obtain ⟨ps, rfl⟩ := ho
  suffices hfound : Probe.first fs.search ps = .found file from source_of_first hfound
  cases hfirst : Probe.first fs.search ps with
  | found f =>
    rw [hfirst] at h
    exact congrArg Probe.found (Option.some.inj h)
  | missing =>
    rw [hfirst] at h
    cases h
  | endless =>
    rw [hfirst] at h
    cases h

theorem exists_of_resolve {from_ : Path} {specifier : String}
    (h : fs.resolve? from_ specifier = some file) :
    ∃ p q, fs.source? q = some p ∧ file = fs.canonical p := by
  obtain ⟨p, hp, rfl⟩ := Option.map_eq_some_iff.mp h
  obtain ⟨q, hq⟩ := source_of_file ⟨_, searchModule_eq ..⟩ hp
  exact ⟨p, q, hq, rfl⟩

theorem exists_of_entry {root : Path} {entry : String} (h : fs.entry? root entry = some file) :
    ∃ p q, fs.source? q = some p ∧ file = fs.canonical p := by
  obtain ⟨p, hp, rfl⟩ := Option.map_eq_some_iff.mp h
  obtain ⟨q, hq⟩ := source_of_file ⟨_, (first_singleton _ _).symm⟩ hp
  exact ⟨p, q, hq, rfl⟩

end FileSystem

/-- In a tree, what is meant by a path is a source file that is there under its plain path too. -/
theorem FileTree.isFile_of_source {t : FileTree} {p q : Path}
    (h : t.fileSystem.source? q = some p) :
    t.fileSystem.isFile p.normalize = true ∧ p.normalize.IsSource := by
  have hfile : t.fileSystem.isFile p = true := List.find?_some h
  refine ⟨?_, (Path.isSource_of_mem_spellings (List.mem_of_find?_eq_some h)).normalize⟩
  change (t.files.lookup p.normalize.place).isSome = true
  rw [Path.place_normalize]
  exact hfile

namespace Loaded

variable {fs : FileSystem} {l l' : Loaded} {entries : List String}

/-- A file names another one: some specifier in it leads there. -/
def Imports (l : Loaded) (i k : FileIndex) : Prop := ∃ s, l.resolved.get? (i, s) = some k

/-- The file that an entry of the package names. -/
def IsEntry (fs : FileSystem) (l : Loaded) (entry : String) (i : FileIndex) : Prop :=
  ∃ file, l.files[i]? = some file ∧ fs.entry? l.root entry = some file.path

/-- Each entry of the package has its file, and every file is one to which the imports of those
lead. -/
structure Reached (fs : FileSystem) (entries : List String) (l : Loaded) : Prop where
  entrypoints : List.Forall₂ (IsEntry fs l) entries l.entrypoints
  rooted : ∀ i < l.files.size, ∃ e ∈ l.entrypoints, Relation.ReflTransGen l.Imports e i

/-- No two files have one path. -/
theorem Filed.index_inj (h : Filed fs l) {i k : FileIndex} {file target : LoadedFile}
    (hi : l.files[i]? = some file) (hk : l.files[k]? = some target)
    (hpath : file.path = target.path) : i = k := by
  have hpaths {j : FileIndex} {f : LoadedFile} (hj : l.files[j]? = some f) :
      (l.files.toList.map (·.path))[j]? = some f.path := by
    rw [List.getElem?_map, Array.getElem?_toList, hj, Option.map_some]
  have hlt : i < (l.files.toList.map (·.path)).length :=
    (List.getElem?_eq_some_iff.mp (hpaths hi)).1
  exact (List.getElem?_inj hlt h.distinct).mp ((hpaths hi).trans (hpath ▸ (hpaths hk).symm))

theorem Filed.path_eq (h : Filed fs l) (hfs : fs.Lawful) {k : FileIndex} {file : LoadedFile}
    (hk : l.files[k]? = some file) {q : Path} (hsame : file.path.same (fs.canonical q) = true) :
    file.path = fs.canonical q := by
  obtain ⟨q', hq'⟩ := h.canonical file (Array.mem_toList_iff.mpr (Array.mem_of_getElem? hk))
  rw [← hq'] at hsame ⊢
  exact hfs.eq_of_same _ _ hsame

/-- Adding a file leaves all files in place, and what is added comes last. -/
theorem add_files {p : Path} {k : FileIndex} (h : l.add? fs p = some (k, l')) :
    l'.entrypoints = l.entrypoints ∧ l'.resolved = l.resolved ∧
      ∀ i < l'.files.size, i < l.files.size ∨ i = k := by
  unfold add? at h
  split at h
  · obtain ⟨rfl, rfl⟩ := Prod.mk.injEq .. ▸ Option.some.inj h
    exact ⟨rfl, rfl, fun i hi => Or.inl hi⟩
  · obtain ⟨text, -, heq⟩ := Option.map_eq_some_iff.mp h
    obtain ⟨rfl, rfl⟩ := Prod.mk.injEq .. ▸ heq
    refine ⟨rfl, rfl, fun i hi => ?_⟩
    rw [Array.size_push] at hi
    omega

theorem IsEntry.extend (hext : Extends l l') {entry : String} {i : FileIndex}
    (h : IsEntry fs l entry i) : IsEntry fs l' entry i := by
  obtain ⟨file, hi, hentry⟩ := h
  exact ⟨file, hext.files i file hi, hext.root ▸ hentry⟩

theorem forall₂_isEntry_extend (hext : Extends l l') {is : List FileIndex}
    (h : List.Forall₂ (IsEntry fs l) entries is) : List.Forall₂ (IsEntry fs l') entries is :=
  h.imp fun _ _ => IsEntry.extend hext

/-! ### Entries -/

/-- The file of an entry is added, and no entry is unreadable where all that is found can be
read. -/
theorem Reached.addEntry (h : Reached fs entries l) (hl : Filed fs l) (hfs : fs.Lawful)
    (hread : ∀ root entry q, fs.entry? root entry = some q → (fs.read? q).isSome = true)
    (entry : String) :
    (∃ e, addEntry fs l entry = .error e ∧ ∀ p, e ≠ .unreadable p) ∨
      ∃ l', addEntry fs l entry = .ok l' ∧ Reached fs (entries ++ [entry]) l' := by
  unfold Loaded.addEntry
  split
  · exact Or.inl ⟨_, rfl, nofun⟩
  cases hq : fs.entry? l.root entry with
  | none => exact Or.inl ⟨_, rfl, nofun⟩
  | some q =>
    obtain ⟨⟨k, added⟩, hadd⟩ :=
      Option.isSome_iff_exists.mp (add_isSome (l := l) (hread l.root entry q hq))
    obtain ⟨p, -, hp⟩ := Option.map_eq_some_iff.mp hq
    have hcanonical : l.add? fs (fs.canonical p) = some (k, added) := hp ▸ hadd
    obtain ⟨hfiled, hext, -, file, hfile, hsame⟩ := hl.add hcanonical
    obtain ⟨hentrypoints, hresolved, hindex⟩ := add_files hadd
    have hpath := hfiled.path_eq hfs hfile hsame
    dsimp only
    rw [hadd]
    refine Or.inr ⟨_, rfl, ?_, fun i hi => ?_⟩
    · have hentry : IsEntry fs added entry k :=
        ⟨file, hfile, by rw [hext.root, hq, hpath, hp]⟩
      have hall := forall₂_isEntry_extend hext h.entrypoints
      rw [hentrypoints]
      exact List.rel_append (R := IsEntry fs added) hall (.cons hentry .nil)
    · rcases hindex i hi with hold | rfl
      · obtain ⟨e, he, hpath⟩ := h.rooted i hold
        refine ⟨e, List.mem_append_left _ (hentrypoints ▸ he), ?_⟩
        unfold Imports at hpath ⊢
        rwa [← hresolved] at hpath
      · exact ⟨i, List.mem_append_right _ (List.mem_singleton_self i), .refl⟩

/-- Adding the files of some entries, one after the other. -/
theorem Reached.addEntries (h : Reached fs entries l) (hl : Filed fs l) (hfs : fs.Lawful)
    (hread : ∀ root entry q, fs.entry? root entry = some q → (fs.read? q).isSome = true)
    (more : List String) :
    (∃ e, more.foldlM (Loaded.addEntry fs) l = .error e ∧ ∀ p, e ≠ .unreadable p) ∨
      ∃ l', more.foldlM (Loaded.addEntry fs) l = .ok l' ∧ Reached fs (entries ++ more) l' := by
  induction more generalizing l entries with
  | nil => exact Or.inr ⟨l, rfl, (List.append_nil entries).symm ▸ h⟩
  | cons entry more ih =>
    rw [List.foldlM_cons]
    rcases h.addEntry hl hfs hread entry with ⟨e, he, hne⟩ | ⟨first, hfirst, hreached⟩
    · rw [he]
      exact Or.inl ⟨e, rfl, hne⟩
    · rw [hfirst, List.append_cons]
      exact ih hreached (hl.addEntry hfirst).1

/-! ### Imports -/

/-- What follows the files of the entries keeps them, and adds no file that nothing imports. -/
theorem Reached.follow (h : Reached fs entries l) (hl : Filed fs l) (hfs : fs.Lawful)
    {i : FileIndex} {file : LoadedFile} (hi : l.files[i]? = some file) {s : String}
    (hs : s ∈ file.source.imported) : Reached fs entries (follow fs i file l s) := by
  obtain ⟨hfiled', hext', -⟩ := hl.follow hi hs
  unfold Loaded.follow at hfiled' hext' ⊢
  cases hq : fs.resolve? file.path s with
  | none =>
    dsimp only
    split
    · exact ⟨h.entrypoints, h.rooted⟩
    · exact h
  | some q =>
    rw [hq] at hfiled' hext'
    dsimp only at hfiled' hext' ⊢
    cases hadd : l.add? fs q with
    | none => exact h
    | some added =>
      obtain ⟨k, added⟩ := added
      rw [hadd] at hfiled' hext'
      obtain ⟨q', -, hcanonical⟩ := Option.map_eq_some_iff.mp hq
      obtain ⟨hfiled, hext, -, target, htarget, hsame⟩ := hl.add (hcanonical ▸ hadd)
      obtain ⟨hentrypoints, hresolved, hindex⟩ := add_files hadd
      -- an import that is known already leads to the same file
      have hkeeps (j t : FileIndex) (himports : l.Imports j t) :
          Imports { added with resolved := added.resolved.insert (i, s) k } j t := by
        obtain ⟨s', hs'⟩ := himports
        refine ⟨s', ?_⟩
        rw [Table.get?_insert]
        split
        · next heq =>
          obtain ⟨rfl, rfl⟩ := Prod.mk.injEq .. ▸ eq_of_beq heq
          obtain ⟨file', target', q'', hfile', -, hq'', htarget', hsame'⟩ := hl.resolved j s' t hs'
          obtain rfl := Option.some.inj (hi.symm.trans hfile')
          obtain rfl := Option.some.inj (hq.symm.trans hq'')
          rw [← hcanonical] at hsame'
          have hpath := hl.path_eq hfs htarget' hsame'
          rw [hfiled.index_inj htarget (hext.files t target' htarget')
            ((hfiled.path_eq hfs htarget hsame).trans hpath.symm)]
        · rwa [hresolved]
      refine ⟨forall₂_isEntry_extend hext' (hentrypoints ▸ h.entrypoints), fun j hj => ?_⟩
      rcases hindex j hj with hold | rfl
      · obtain ⟨e, he, hpath⟩ := h.rooted j hold
        exact ⟨e, hentrypoints ▸ he, hpath.lift id hkeeps⟩
      · obtain ⟨e, he, hpath⟩ := h.rooted i (Array.getElem?_eq_some_iff.mp hi).1
        exact ⟨e, hentrypoints ▸ he, (hpath.lift id hkeeps).tail ⟨s, Table.get?_insert_self ..⟩⟩

theorem Reached.follows (h : Reached fs entries l) (hl : Filed fs l) (hfs : fs.Lawful)
    {i : FileIndex} {file : LoadedFile} (hi : l.files[i]? = some file) {specifiers : List String}
    (hs : specifiers ⊆ file.source.imported) :
    Reached fs entries (specifiers.foldl (Loaded.follow fs i file) l) := by
  induction specifiers generalizing l with
  | nil => exact h
  | cons s specifiers ih =>
    have hmem := hs List.mem_cons_self
    obtain ⟨hl', hext, -⟩ := hl.follow hi hmem
    exact ih (h.follow hl hfs hi hmem) hl' (hext.files i file hi) (List.subset_of_cons_subset hs)

theorem Reached.followFrom (h : Reached fs entries l) (hl : Filed fs l) (hfs : fs.Lawful) (n : ℕ)
    (i : FileIndex) : Reached fs entries (followFrom fs n i l) := by
  induction n generalizing i l with
  | zero => exact h
  | succ n ih =>
    unfold Loaded.followFrom
    cases hi : l.files[i]? with
    | none => exact h
    | some file =>
      have hsub := List.Subset.refl file.source.imported
      exact ih (h.follows hl hfs hi hsub) (hl.follows hi hsub).1 (i + 1)

/-! ### Whole programs -/

/-- A package before its entries are added. -/
def bare (root : Path) : Loaded := ⟨root, #[], [], [], []⟩

end Loaded

namespace Program

end Program

end ApiSurface
