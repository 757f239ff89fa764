import Mathlib.Data.List.Perm.Subperm
import ApiSurface.Program.Loaded
import ApiSurface.Proofs.Places
import ApiSurface.Proofs.Tables
/-!
What a loaded program holds: each file once, and for each specifier that a file names, the file that
it leads to, if that can be read.
-/
namespace ApiSurface

/-- What loading relies on. -/
structure FileSystem.Lawful (fs : FileSystem) : Prop where
  eq_of_same : ∀ p q, (fs.canonical p).same (fs.canonical q) = true → fs.canonical p = fs.canonical q
  length_le : ∀ paths : List Path, paths.Nodup →
    (∀ p ∈ paths, (fs.read? p).isSome ∧ ∃ q, fs.canonical q = p) → paths.length ≤ fs.fileCount

theorem Path.place_eq_of_same {p q : Path} (h : p.same q = true) : p.place = q.place :=
  congrArg (List.foldl Place.step .start) (eq_of_beq h)

namespace FileTree

theorem mem_files_of_read {t : FileTree} {p : Path} (h : (t.read? p).isSome) :
    p.place ∈ t.files.map (·.1) := by
  obtain ⟨text, htext⟩ := Option.isSome_iff_exists.mp h
  obtain ⟨before, after, heq, -⟩ := List.lookup_eq_some_iff.mp htext
  rw [heq]
  simp

/-- A tree has as many files as it holds. -/
theorem fileSystem_lawful (t : FileTree) : t.fileSystem.Lawful where
  eq_of_same p q h := by
    have hplace := Path.place_eq_of_same h
    exact Path.normalize_eq_iff.mpr
      ((Path.place_normalize p).symm.trans (hplace.trans (Path.place_normalize q)))
  length_le paths hd hpaths := by
    have hplaces : (paths.map Path.place).Nodup := by
      refine hd.map_on fun p hp q hq heq => ?_
      obtain ⟨-, p', rfl⟩ := hpaths p hp
      obtain ⟨-, q', rfl⟩ := hpaths q hq
      have heq : p'.normalize.place = q'.normalize.place := heq
      rw [Path.place_normalize, Path.place_normalize] at heq
      exact Path.normalize_eq_iff.mpr heq
    have hsub : paths.map Path.place ⊆ t.files.map (·.1) := by
      intro w hw
      obtain ⟨p, hp, rfl⟩ := List.mem_map.mp hw
      exact mem_files_of_read (hpaths p hp).1
    have hle := (List.subperm_of_subset hplaces hsub).length_le
    rwa [List.length_map, List.length_map] at hle

end FileTree

namespace Loaded

variable {fs : FileSystem} {l l' l'' : Loaded}

/-- What holds while files are loaded. -/
structure Filed (fs : FileSystem) (l : Loaded) : Prop where
  canonical : ∀ file ∈ l.files.toList, ∃ q, fs.canonical q = file.path
  distinct : (l.files.toList.map (·.path)).Nodup
  read : ∀ file ∈ l.files.toList, ∃ text, fs.read? file.path = some text ∧
    file.source = .parse (file.path.display l.root) text.toList
  resolved : ∀ i s k, l.resolved.get? (i, s) = some k → ∃ file target q, l.files[i]? = some file ∧
    s ∈ file.source.imported ∧ fs.resolve? file.path s = some q ∧ l.files[k]? = some target ∧
      target.path.same q = true

/-- What loading more keeps. -/
structure Extends (l l' : Loaded) : Prop where
  root : l'.root = l.root
  files : ∀ (i : FileIndex) (file : LoadedFile),
    l.files[i]? = some file → l'.files[i]? = some file
  resolved : ∀ key, (∃ k, l.resolved.get? key = some k) → ∃ k, l'.resolved.get? key = some k

theorem Extends.refl (l : Loaded) : Extends l l := ⟨rfl, fun _ _ => id, fun _ => id⟩

theorem Extends.trans (h : Extends l l') (h' : Extends l' l'') : Extends l l'' :=
  ⟨h'.root.trans h.root, fun i file hi => h'.files i file (h.files i file hi),
    fun key hk => h'.resolved key (h.resolved key hk)⟩

theorem Filed.length_le (h : Filed fs l) (hfs : fs.Lawful) : l.files.size ≤ fs.fileCount := by
  have hle := hfs.length_le _ h.distinct fun p hp => by
    obtain ⟨file, hfile, rfl⟩ := List.mem_map.mp hp
    obtain ⟨text, htext, -⟩ := h.read file hfile
    exact ⟨Option.isSome_iff_exists.mpr ⟨text, htext⟩, h.canonical file hfile⟩
  simpa using hle

theorem fileAt_some {p : Path} {i : FileIndex} (h : l.fileAt? p = some i) :
    ∃ file, l.files[i]? = some file ∧ file.path.same p = true := by
  obtain ⟨hi, hsame, -⟩ := Array.findIdx?_eq_some_iff_getElem.mp h
  exact ⟨l.files[i], Array.getElem?_eq_getElem hi, hsame⟩

theorem fileAt_none {p : Path} (h : l.fileAt? p = none) :
    ∀ file ∈ l.files.toList, file.path.same p = false := fun file hfile =>
  Array.findIdx?_eq_none_iff.mp h file (Array.mem_toList_iff.mp hfile)

/-- Adding the file at a path fails only when it cannot be read. -/
theorem add_isSome {p : Path} (h : (fs.read? p).isSome) : (l.add? fs p).isSome := by
  unfold add?
  split
  · rfl
  · rwa [Option.isSome_map]

theorem getElem?_push_of_some {files : Array LoadedFile} {file : LoadedFile} {i : FileIndex}
    (h : files[i]? = some file) (added : LoadedFile) : (files.push added)[i]? = some file := by
  have hlt : i < files.size := (Array.getElem?_eq_some_iff.mp h).1
  rw [Array.getElem?_push, if_neg (Nat.ne_of_lt hlt), h]

theorem Filed.add (h : Filed fs l) {p : Path} {k : FileIndex}
    (hadd : l.add? fs (fs.canonical p) = some (k, l')) :
    Filed fs l' ∧ Extends l l' ∧ l'.resolved = l.resolved ∧
      ∃ file, l'.files[k]? = some file ∧ file.path.same (fs.canonical p) = true := by
  unfold add? at hadd
  split at hadd
  · next i hi =>
    obtain ⟨rfl, rfl⟩ := Prod.mk.injEq .. ▸ Option.some.inj hadd
    obtain ⟨file, hfile, hsame⟩ := fileAt_some hi
    exact ⟨h, Extends.refl l, rfl, file, hfile, hsame⟩
  · next hnone =>
    obtain ⟨text, htext, heq⟩ := Option.map_eq_some_iff.mp hadd
    obtain ⟨rfl, rfl⟩ := Prod.mk.injEq .. ▸ heq
    have hnew : fs.canonical p ∉ l.files.toList.map (·.path) := by
      intro hmem
      obtain ⟨file, hfile, hpath⟩ := List.mem_map.mp hmem
      have hsame := fileAt_none hnone file hfile
      rw [hpath, Path.same, beq_self_eq_true] at hsame
      cases hsame
    have hold {i : FileIndex} {file : LoadedFile} (hi : l.files[i]? = some file) :=
      getElem?_push_of_some hi ⟨fs.canonical p,
        .parse ((fs.canonical p).display l.root) text.toList, (fs.canonical p).isDeclarationFile,
        (fs.canonical p).isWithin l.root⟩
    refine ⟨⟨?_, ?_, ?_, ?_⟩, ⟨rfl, fun _ _ => hold, fun _ => id⟩, rfl, _,
      Array.getElem?_push_size, beq_self_eq_true _⟩
    · intro file hfile
      rcases List.mem_append.mp (Array.toList_push ▸ hfile) with hfile | hfile
      · exact h.canonical file hfile
      · exact ⟨p, by rw [List.mem_singleton.mp hfile]⟩
    · rw [Array.toList_push, List.map_append]
      exact h.distinct.append (List.nodup_singleton _) (by simpa using hnew)
    · intro file hfile
      rcases List.mem_append.mp (Array.toList_push ▸ hfile) with hfile | hfile
      · exact h.read file hfile
      · obtain rfl := List.mem_singleton.mp hfile
        exact ⟨text, htext, by dsimp only⟩
    · intro i s k hk
      obtain ⟨file, target, q, hi, hs, hq, htarget, hsame⟩ := h.resolved i s k hk
      exact ⟨file, target, q, hold hi, hs, hq, hold htarget, hsame⟩

/-- The specifiers of a file are in the table, those that lead to a file that can be read. -/
def Followed (fs : FileSystem) (l : Loaded) (i : FileIndex) : Prop :=
  ∀ file, l.files[i]? = some file → ∀ s ∈ file.source.imported, ∀ q,
    fs.resolve? file.path s = some q → (fs.read? q).isSome → ∃ k, l.resolved.get? (i, s) = some k

theorem Followed.extend {i : FileIndex} (h : Followed fs l i) (hext : Extends l l')
    (hi : i < l.files.size) : Followed fs l' i := by
  intro file hfile s hs q hq hread
  have hold : l.files[i]? = some l.files[i] := Array.getElem?_eq_getElem hi
  have hsame : l.files[i] = file := Option.some.inj ((hext.files i _ hold).symm.trans hfile)
  exact hext.resolved (i, s) (h file (hold.trans (congrArg some hsame)) s hs q hq hread)

section Following

variable {i : FileIndex} {file : LoadedFile}

theorem Filed.problems (h : Filed fs l) (problems : List Diagnostic) :
    Filed fs { l with problems } ∧ Extends l { l with problems } :=
  ⟨⟨h.canonical, h.distinct, h.read, h.resolved⟩, rfl, fun _ _ => id, fun _ => id⟩

/-- Following a specifier puts it in the table, if it leads to a file that can be read. -/
theorem Filed.follow (h : Filed fs l) (hi : l.files[i]? = some file) {s : String}
    (hs : s ∈ file.source.imported) :
    Filed fs (follow fs i file l s) ∧ Extends l (follow fs i file l s) ∧
      ∀ q, fs.resolve? file.path s = some q → (fs.read? q).isSome →
        ∃ k, (follow fs i file l s).resolved.get? (i, s) = some k := by
  unfold Loaded.follow
  cases hq : fs.resolve? file.path s with
  | none =>
    dsimp only
    refine and_assoc.mp ⟨?_, fun q hq => absurd hq (by simp)⟩
    split
    · exact h.problems _
    · exact ⟨h, Extends.refl l⟩
  | some q =>
    obtain ⟨q', hq', hcanonical⟩ := Option.map_eq_some_iff.mp hq
    dsimp only
    cases hadd : l.add? fs q with
    | none =>
      refine ⟨h, Extends.refl l, fun q' heq hread => ?_⟩
      rw [← Option.some.inj heq] at hread
      have hsome : (l.add? fs q).isSome := add_isSome hread
      simp [hadd] at hsome
    | some added =>
      obtain ⟨k, l'⟩ := added
      dsimp only
      obtain ⟨h', hext, hresolved, target, htarget, hsame⟩ := h.add (hcanonical ▸ hadd)
      refine ⟨⟨h'.canonical, h'.distinct, h'.read, ?_⟩, ⟨hext.root, hext.files, ?_⟩,
        fun _ _ _ => ⟨k, Table.get?_insert_self ..⟩⟩
      · intro j s' k' hk'
        rw [Table.get?_insert] at hk'
        split at hk'
        · next heq =>
          obtain ⟨rfl, rfl⟩ := Prod.mk.injEq .. ▸ eq_of_beq heq
          obtain rfl := Option.some.inj hk'
          exact ⟨file, target, q, hext.files j file hi, hs, hq, htarget, hcanonical ▸ hsame⟩
        · exact h'.resolved j s' k' hk'
      · intro key hkey
        rw [← Table.mem_keys_iff, Table.mem_keys_insert, hresolved, Table.mem_keys_iff]
        exact Or.inr hkey

theorem Filed.follows (h : Filed fs l) (hi : l.files[i]? = some file)
    {specifiers : List String} (hs : specifiers ⊆ file.source.imported) :
    Filed fs (specifiers.foldl (Loaded.follow fs i file) l) ∧
      Extends l (specifiers.foldl (Loaded.follow fs i file) l) ∧
        ∀ s ∈ specifiers, ∀ q, fs.resolve? file.path s = some q → (fs.read? q).isSome →
          ∃ k, (specifiers.foldl (Loaded.follow fs i file) l).resolved.get? (i, s) = some k := by
  induction specifiers generalizing l with
  | nil => exact ⟨h, Extends.refl l, fun s hs => absurd hs List.not_mem_nil⟩
  | cons s specifiers ih =>
    obtain ⟨h', hext, hfollowed⟩ := h.follow hi (hs List.mem_cons_self)
    obtain ⟨hlast, hext', hothers⟩ :=
      ih h' (hext.files i file hi) (List.subset_of_cons_subset hs)
    refine ⟨hlast, hext.trans hext', fun s' hs' q hq hread => ?_⟩
    rcases List.mem_cons.mp hs' with rfl | hs'
    · exact hext'.resolved _ (hfollowed q hq hread)
    · exact hothers s' hs' q hq hread

theorem Filed.followFrom {i : ℕ} (h : Filed fs l) (n : ℕ)
    (hdone : ∀ j < i, Followed fs l j) :
    Filed fs (followFrom fs n i l) ∧ Extends l (Loaded.followFrom fs n i l) ∧
      ∀ j < i + n, Followed fs (Loaded.followFrom fs n i l) j := by
  induction n generalizing i l with
  | zero => exact ⟨h, Extends.refl l, hdone⟩
  | succ n ih =>
    unfold Loaded.followFrom
    cases hi : l.files[i]? with
    | none =>
      refine ⟨h, Extends.refl l, fun j _ => ?_⟩
      rcases Nat.lt_or_ge j i with hlt | hge
      · exact hdone j hlt
      · have hnone : l.files[j]? = none :=
          Array.getElem?_eq_none (Nat.le_trans (Array.getElem?_eq_none_iff.mp hi) hge)
        exact fun file hfile => absurd (hnone.symm.trans hfile) (by simp)
    | some file =>
      dsimp only
      obtain ⟨h', hext, hfollowed⟩ := h.follows hi (List.Subset.refl file.source.imported)
      have hlt := (Array.getElem?_eq_some_iff.mp hi).1
      have hdone' : ∀ j < i + 1, Followed fs
          (file.source.imported.foldl (Loaded.follow fs i file) l) j := by
        intro j hj
        rcases Nat.lt_succ_iff_lt_or_eq.mp hj with hj | rfl
        · exact (hdone j hj).extend hext (Nat.lt_trans hj hlt)
        · intro file' hfile'
          obtain rfl := Option.some.inj ((hext.files j file hi).symm.trans hfile')
          exact hfollowed
      obtain ⟨hlast, hext', hall⟩ := ih h' hdone'
      exact ⟨hlast, hext.trans hext', fun j hj => hall j (by omega)⟩

end Following

theorem Filed.addEntry (h : Filed fs l) {entry : String}
    (hadd : addEntry fs l entry = .ok l') : Filed fs l' ∧ l'.root = l.root := by
  unfold Loaded.addEntry at hadd
  split at hadd
  · cases hadd
  cases hp : fs.entry? l.root entry with
  | none => simp [hp] at hadd
  | some p =>
    obtain ⟨p', -, hcanonical⟩ := Option.map_eq_some_iff.mp hp
    simp only [hp] at hadd
    cases hq : l.add? fs p with
    | none => simp [hq] at hadd
    | some added =>
      obtain ⟨k, added⟩ := added
      simp only [hq] at hadd
      obtain rfl := Except.ok.inj hadd
      obtain ⟨h', hext, -⟩ := h.add (hcanonical ▸ hq)
      exact ⟨⟨h'.canonical, h'.distinct, h'.read, h'.resolved⟩, hext.root⟩

theorem Filed.addEntries (h : Filed fs l) {entries : List String}
    (hadd : entries.foldlM (Loaded.addEntry fs) l = .ok l') : Filed fs l' ∧ l'.root = l.root := by
  induction entries generalizing l with
  | nil =>
    obtain rfl := Except.ok.inj hadd
    exact ⟨h, rfl⟩
  | cons entry entries ih =>
    rw [List.foldlM_cons] at hadd
    cases hentry : Loaded.addEntry fs l entry with
    | error e =>
      rw [hentry] at hadd
      cases hadd
    | ok first =>
      rw [hentry] at hadd
      obtain ⟨h', hroot⟩ := h.addEntry hentry
      obtain ⟨hlast, hroot'⟩ := ih h' hadd
      exact ⟨hlast, hroot'.trans hroot⟩

theorem load_run {root : Path} {entries : List String} (h : load fs root entries = .ok l) :
    ∃ first, Filed fs first ∧ first.root = fs.canonical root ∧
      l = first.followFrom fs fs.fileCount 0 := by
  unfold load at h
  cases hdir : fs.isDirectory root with
  | false =>
    rw [hdir] at h
    cases h
  | true =>
    simp only [hdir] at h
    have hstart : Filed fs ⟨fs.canonical root, #[], [], [], []⟩ :=
      ⟨by simp, by simp, by simp, fun i s k hk => absurd hk (by simp [Table.get?])⟩
    cases hentries : entries.foldlM (Loaded.addEntry fs) ⟨fs.canonical root, #[], [], [], []⟩ with
    | error e =>
      rw [hentries] at h
      cases h
    | ok first =>
      rw [hentries] at h
      obtain ⟨h', hroot⟩ := hstart.addEntries hentries
      have hends : (if (first.followFrom fs fs.fileCount 0).isEndless fs then throw LoadError.endless
          else pure (first.followFrom fs fs.fileCount 0)) = Except.ok l := h
      split at hends
      · cases hends
      · exact ⟨first, h', hroot, (Except.ok.inj hends).symm⟩

theorem load_filed {root : Path} {entries : List String} (h : load fs root entries = .ok l) :
    Filed fs l ∧ l.root = fs.canonical root := by
  obtain ⟨first, hfirst, hroot, rfl⟩ := load_run h
  obtain ⟨hlast, hext, -⟩ :=
    hfirst.followFrom (i := 0) fs.fileCount fun j hj => absurd hj (Nat.not_lt_zero j)
  exact ⟨hlast, hext.root.trans hroot⟩

/-- Loading comes to every file, as there are no more than the file system holds. -/
theorem load_followed (hfs : fs.Lawful) {root : Path} {entries : List String}
    (h : load fs root entries = .ok l) (i : FileIndex) : Followed fs l i := by
  obtain ⟨first, hfirst, -, rfl⟩ := load_run h
  obtain ⟨hlast, -, hall⟩ :=
    hfirst.followFrom (i := 0) fs.fileCount fun j hj => absurd hj (Nat.not_lt_zero j)
  rcases Nat.lt_or_ge i fs.fileCount with hlt | hge
  · exact hall i (Nat.lt_of_lt_of_eq hlt (Nat.zero_add _).symm)
  · intro file hfile
    have hi := (Array.getElem?_eq_some_iff.mp hfile).1
    exact absurd (Nat.lt_of_lt_of_le hi (hlast.length_le hfs)) (Nat.not_lt.mpr hge)

/-- The files of a package that is given from the root on are shown under different names, unless
a path has a backslash. -/
theorem names_nodup (hfs : fs.canonical = Path.normalize) {root : Path} {entries : List String}
    (h : load fs root entries = .ok l) (hroot : l.root.isAbsolute = true)
    (hpaths : ∀ file ∈ l.files.toList, file.path.isAbsolute = true ∧ '\\' ∉ file.path.chars) :
    (l.files.toList.map (·.source.name)).Nodup := by
  have hfiled := (load_filed h).1
  refine List.Nodup.map_on (fun file hfile file' hfile' hname => ?_) (.of_map _ hfiled.distinct)
  have hshown (file : LoadedFile) (hfile : file ∈ l.files.toList) : ∃ w : Path.Place, w.Valid ∧
      w.path = file.path ∧ file.source.name = file.path.display l.root := by
    obtain ⟨q, hq⟩ := hfiled.canonical file hfile
    obtain ⟨text, -, hsource⟩ := hfiled.read file hfile
    rw [hfs] at hq
    exact ⟨q.place, Path.place_valid q, hq, by rw [hsource]; rfl⟩
  obtain ⟨w, hw, hpath, hdisplay⟩ := hshown file hfile
  obtain ⟨w', hw', hpath', hdisplay'⟩ := hshown file' hfile'
  obtain ⟨habsolute, hslash⟩ := hpath ▸ hpaths file hfile
  obtain ⟨habsolute', hslash'⟩ := hpath' ▸ hpaths file' hfile'
  rw [hdisplay, hdisplay', ← hpath, ← hpath'] at hname
  have hsame := Path.place_eq_of_display_eq hw hw' (Path.absolute_of_isAbsolute hw habsolute)
    (Path.absolute_of_isAbsolute hw' habsolute') hroot hslash hslash' hname
  exact List.inj_on_of_nodup_map hfiled.distinct hfile hfile' (by rw [← hpath, ← hpath', hsame])

end Loaded

end ApiSurface
