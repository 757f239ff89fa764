import Mathlib.Data.Set.List
import ApiSurface.Proofs.ImportGraph
/-!
Normal paths and joined ones. Where a joined path leads depends on its first part only through the
place to which that leads, so it makes no difference whether paths are made normal on the way or
once at the end: they lead to the same file, and resolution goes on from them alike.
-/
namespace ApiSurface

theorem piecesAt_append (sep : Char) (xs ys : List Char) :
    piecesAt sep (xs ++ sep :: ys) = piecesAt sep xs ++ piecesAt sep ys := by
  induction xs with
  | nil => simp [piecesAt]
  | cons x xs ih =>
    rw [List.cons_append, piecesAt, piecesAt, ih]
    split
    · rfl
    · cases hxs : piecesAt sep xs with
      | nil => exact absurd hxs (piecesAt_ne_nil sep xs)
      | cons piece pieces => rfl

namespace Path

variable {p q : Path}

/-! ### Places along a text -/

/-- A piece of a text leads up or down, or nowhere. -/
theorem ofPiece_cases {piece : List Char} {c : Component}
    (h : Component.ofPiece? piece = some c) : c = .up ∨ c = .name piece := by
  unfold Component.ofPiece? at h
  split at h <;> simp_all

namespace Place

/-- The place to which the pieces of a text lead from a place. -/
def along (w : Place) (cs : List Char) : Place :=
  ((piecesAt '/' cs).filterMap Component.ofPiece?).foldl step w

theorem along_nil (w : Place) : w.along [] = w := rfl

theorem along_append (w : Place) (xs ys : List Char) :
    w.along (xs ++ '/' :: ys) = (w.along xs).along ys := by
  rw [along, along, along, piecesAt_append, List.filterMap_append, List.foldl_append]

theorem along_slash (w : Place) (cs : List Char) : w.along ('/' :: cs) = w.along cs :=
  along_append w [] cs

/-- No piece of a text leads to the root. -/
theorem along_absolute (w : Place) (cs : List Char) : (w.along cs).absolute = w.absolute := by
  have hpiece {piece : List Char} {c : Component} (h : Component.ofPiece? piece = some c)
      (v : Place) : (v.step c).absolute = v.absolute := by
    rcases ofPiece_cases h with rfl | rfl <;> rfl
  unfold along
  induction piecesAt '/' cs generalizing w with
  | nil => rfl
  | cons piece pieces ih =>
    cases hc : Component.ofPiece? piece with
    | none => rw [List.filterMap_cons_none hc, ih]
    | some c => rw [List.filterMap_cons_some hc, List.foldl_cons, ih, hpiece hc]

end Place

/-- A path leads along its text, from the root or from where relative paths start. -/
theorem place_eq_along (p : Path) : p.place = Place.along ⟨p.isAbsolute, []⟩ p.chars := by
  obtain ⟨chars⟩ := p
  unfold place components
  split
  · next rest hchars =>
    obtain rfl : chars = '/' :: rest := hchars
    exact (Place.along_slash ⟨true, []⟩ rest).symm
  · next cs hslash =>
    have hrelative : Path.isAbsolute ⟨chars⟩ = false := by
      cases chars with
      | nil => rfl
      | cons c rest =>
        refine beq_eq_false_iff_ne.mpr fun hhead => ?_
        obtain rfl : c = '/' := Option.some.inj hhead
        exact hslash rest rfl
    rw [hrelative]
    unfold Place.along
    split
    · next pieces hdot =>
      rw [hdot]
      rfl
    · rfl

theorem place_absolute (p : Path) : p.place.absolute = p.isAbsolute := by
  rw [place_eq_along, Place.along_absolute]

/-- The text of a joined path leads along both its parts. -/
theorem along_join (w : Place) (p : Path) (hq : q.isAbsolute = false) :
    w.along (p.join q).chars = (w.along p.chars).along q.chars := by
  unfold join
  rw [if_neg (by simp [hq])]
  split
  · next hidle =>
    rcases hidle with hempty | hlast
    · rw [List.isEmpty_iff.mp hempty]
      rfl
    · obtain ⟨front, hfront⟩ := List.getLast?_eq_some_iff.mp hlast
      rw [hfront, List.append_assoc, List.singleton_append, Place.along_append, Place.along_append,
        Place.along_nil]
  · exact Place.along_append w p.chars q.chars

theorem isAbsolute_join (p : Path) (hq : q.isAbsolute = false) :
    (p.join q).isAbsolute = p.isAbsolute := by
  unfold join
  rw [if_neg (by simp [hq])]
  obtain ⟨chars⟩ := p
  cases chars with
  | nil => exact hq
  | cons c cs => split <;> rfl

/-- A path that is no absolute one is followed from where the path before it leads. -/
theorem place_join_of_relative (p : Path) (hq : q.isAbsolute = false) :
    (p.join q).place = p.place.along q.chars := by
  rw [place_eq_along, isAbsolute_join p hq, along_join _ p hq, ← place_eq_along]

/-- An absolute path is not followed from anywhere else. -/
theorem join_of_absolute (p : Path) (hq : q.isAbsolute = true) : p.join q = q := if_pos hq

/-- Where a joined path leads depends on where its first part leads. -/
theorem place_join_congr (h : p.place = q.place) (s : Path) :
    (p.join s).place = (q.join s).place := by
  cases hs : s.isAbsolute with
  | true => rw [join_of_absolute p hs, join_of_absolute q hs]
  | false => rw [place_join_of_relative p hs, place_join_of_relative q hs, h]

/-- Paths may be joined one after the other or the later ones first. -/
theorem place_join_assoc (p q r : Path) :
    (p.join (q.join r)).place = ((p.join q).join r).place := by
  cases hr : r.isAbsolute with
  | true => rw [join_of_absolute q hr, join_of_absolute p hr, join_of_absolute _ hr]
  | false =>
    have hjoin := isAbsolute_join q hr
    cases hq : q.isAbsolute with
    | true => rw [join_of_absolute p (hjoin.trans hq), join_of_absolute p hq]
    | false =>
      rw [place_join_of_relative p (hjoin.trans hq), along_join _ q hr,
        place_join_of_relative _ hr, place_join_of_relative p hq]

/-! ### Normal paths -/

theorem normalize_normalize (p : Path) : p.normalize.normalize = p.normalize :=
  normalize_eq_iff.mpr (place_normalize p)

theorem normalize_join (p q : Path) : (p.normalize.join q).normalize = (p.join q).normalize :=
  normalize_eq_iff.mpr (place_join_congr (place_normalize p) q)

theorem normalize_join_assoc (p q r : Path) :
    (p.join (q.join r)).normalize = ((p.join q).join r).normalize :=
  normalize_eq_iff.mpr (place_join_assoc p q r)

theorem isAbsolute_normalize (p : Path) : p.normalize.isAbsolute = p.isAbsolute := by
  rw [← place_absolute, place_normalize, place_absolute]

/-- No step of the path stays where it is or leads up. -/
def HasNoDots (p : Path) : Prop := .here ∉ p.components ∧ .up ∉ p.components

theorem components_normalize (p : Path) : p.normalize.components = p.place.components :=
  Place.components_path p.place_valid

theorem hasNoDots_normalize (p : Path) : p.normalize.HasNoDots := by
  unfold HasNoDots
  rw [components_normalize, Place.components]
  constructor <;> split <;> simp

/-- Pieces of which none leads up lead down by names. -/
theorem exists_names {pieces : List (List Char)} (h : .up ∉ pieces.filterMap Component.ofPiece?) :
    ∃ names : List (List Char), names.map .name = pieces.filterMap Component.ofPiece? := by
  have hrange : pieces.filterMap Component.ofPiece? ∈ Set.range (List.map Component.name) := by
    rw [Set.range_list_map]
    intro c hc
    obtain ⟨piece, -, hpiece⟩ := List.mem_filterMap.mp hc
    rcases ofPiece_cases hpiece with rfl | rfl
    · exact absurd hc h
    · exact ⟨piece, rfl⟩
  exact hrange

/-- Steps without dots are those straight to a place. -/
theorem HasNoDots.exists_place (h : p.HasNoDots) : ∃ w : Place, p.components = w.components := by
  obtain ⟨hhere, hup⟩ := h
  revert hhere hup
  unfold components
  split
  · intro _ hup
    obtain ⟨names, heq⟩ := exists_names (List.not_mem_of_not_mem_cons hup)
    exact ⟨⟨true, names.reverse⟩, by simp [← heq, Place.components]⟩
  · split
    · exact fun hhere _ => absurd List.mem_cons_self hhere
    · intro _ hup
      obtain ⟨names, heq⟩ := exists_names hup
      exact ⟨⟨false, names.reverse⟩, by simp [← heq, Place.components]⟩

/-- Just the paths without dots keep their steps. -/
theorem hasNoDots_iff (p : Path) : p.HasNoDots ↔ p.normalize.components = p.components := by
  constructor
  · intro h
    obtain ⟨w, hw⟩ := h.exists_place
    rw [components_normalize, place, hw, Place.foldl_components]
  · intro h
    have hnormal := hasNoDots_normalize p
    rwa [HasNoDots, h] at hnormal

/-! ### Directories -/

section Names

variable {names : List (List Char)}

theorem dropIdle_names (h : ∀ n ∈ names, IsName n) : dropIdle names = names := by
  unfold dropIdle
  cases hlast : names.reverse with
  | nil => exact (List.reverse_eq_nil_iff.mp hlast).symm
  | cons n rest =>
    have hn : IsName n := h n (List.mem_reverse.mp (hlast ▸ List.mem_cons_self))
    rw [List.dropWhile_cons_of_neg (by simp [hn.1]), ← hlast, List.reverse_reverse]

theorem dropIdle_pieces (h : ∀ n ∈ names, IsName n) :
    dropIdle (piecesAt '/' (['/'].intercalate names)) = names := by
  by_cases hnil : names = []
  · rw [hnil]
    rfl
  · rw [Place.piecesAt_intercalate h hnil, dropIdle_names h]

theorem head?_pieces_ne_dot (h : ∀ n ∈ names, IsName n) :
    (piecesAt '/' (['/'].intercalate names)).head? ≠ some ['.'] := by
  intro hhead
  by_cases hnil : names = []
  · rw [hnil] at hhead
    exact absurd hhead (by decide)
  · rw [Place.piecesAt_intercalate h hnil] at hhead
    exact absurd (h ['.'] (List.mem_of_mem_head? hhead)).1 (by decide)

end Names

/-- The directory around a path that starts neither at the root nor with a dot. -/
theorem parent?_of_plain {cs : List Char} (hslash : ∀ rest, cs ≠ '/' :: rest)
    (hdot : (piecesAt '/' cs).head? ≠ some ['.']) :
    parent? ⟨cs⟩ = match dropIdle (piecesAt '/' cs) with
      | [] => none
      | pieces => some ⟨['/'].intercalate (dropIdle pieces.dropLast)⟩ := by
  -- so the text is read in none of the other ways
  have hone : cs ≠ ['.'] := by
    rintro rfl
    exact hdot rfl
  have hmore (rest : List Char) : cs ≠ '.' :: '/' :: rest := by
    rintro rfl
    exact hdot rfl
  simp only [parent?, List.nil_append]
  rfl

/-- The directory around a place has all names but the last one; around the root and around the
start there is none. -/
theorem Place.parent?_path {w : Place} (h : w.Valid) :
    w.path.parent? = if w.names = [] then none else some (w.step .up).path := by
  obtain ⟨absolute, names⟩ := w
  have hnames : ∀ n ∈ names.reverse, IsName n := fun n hn => h n (List.mem_reverse.mp hn)
  have hrest : dropIdle names.reverse.dropLast = names.tail.reverse := by
    rw [dropIdle_names fun n hn => hnames n (List.dropLast_subset _ hn), List.dropLast_reverse]
  -- the same whether there is a slash at the front or nothing
  have hmain (front : List Char) (hdot : front ≠ ['.']) :
      (match dropIdle (piecesAt '/' (['/'].intercalate names.reverse)) with
        | [] => if front = ['.'] then some ⟨[]⟩ else none
        | pieces => some ⟨front ++ ['/'].intercalate (dropIdle pieces.dropLast)⟩) =
      if names = [] then none
      else some (⟨front ++ ['/'].intercalate names.tail.reverse⟩ : Path) := by
    rw [dropIdle_pieces hnames]
    split
    · next hnil => rw [if_neg hdot, if_pos (List.reverse_eq_nil_iff.mp hnil)]
    · next hcons => rw [hrest, if_neg fun hnil => hcons (List.reverse_eq_nil_iff.mpr hnil)]
  cases absolute with
  | true => exact hmain ['/'] (by decide)
  | false =>
    refine (parent?_of_plain (intercalate_ne_slash hnames) (head?_pieces_ne_dot hnames)).trans ?_
    exact hmain [] (by decide)

/-- A step up from a path leads to the directory around its normal path. -/
theorem normalize_join_up (p : Path) : (p.join ⟨['.', '.']⟩).normalize = p.normalize.directory := by
  have hplace : (p.join ⟨['.', '.']⟩).place = p.place.step .up := place_join_of_relative p rfl
  rw [normalize, hplace, directory, normalize, Place.parent?_path p.place_valid]
  split
  · next hnames =>
    have hstay : p.place.step .up = p.place := by
      rw [Place.step, hnames, List.tail_nil, ← hnames]
    exact congrArg Place.path hstay
  · rfl

/-! ### Step by step -/

/-- The end of a way from a directory along some paths, one after the other. Where one is marked,
what has been reached with it is made normal before the next one. -/
def follow (dir : Path) (steps : List (Path × Bool)) : Path :=
  steps.foldl (fun p step => if step.2 then (p.join step.1).normalize else p.join step.1) dir

/-- It makes no difference for the place that is reached what is made normal on the way. -/
theorem place_follow (h : p.place = q.place) (steps : List (Path × Bool)) :
    (p.follow steps).place = ((steps.map Prod.fst).foldl join q).place := by
  induction steps generalizing p q with
  | nil => exact h
  | cons step steps ih =>
    obtain ⟨s, marked⟩ := step
    have hjoin := place_join_congr h s
    cases marked with
    | true => exact ih ((place_normalize _).trans hjoin)
    | false => exact ih hjoin

/-- Normal paths at every step come to the normal path of the whole way. -/
theorem foldl_normalize (dir : Path) (paths : List Path) :
    paths.foldl (fun p q => (p.join q).normalize) dir.normalize =
      (paths.foldl join dir).normalize := by
  induction paths generalizing dir with
  | nil => rfl
  | cons q paths ih => rw [List.foldl_cons, normalize_join, ih, List.foldl_cons]

end Path

namespace FileSystem

/-- Every question about one path has the same answer for another. -/
structure AnswersAlike (fs : FileSystem) (p q : Path) : Prop where
  read : fs.read? p = fs.read? q
  isFile : fs.isFile p = fs.isFile q
  isDirectory : fs.isDirectory p = fs.isDirectory q
  canonical : fs.canonical p = fs.canonical q

/-- Specifiers of files, relative ones and absolute ones, lead to the same from two directories, and
so do entries of a package. -/
structure ResolvesAlike (fs : FileSystem) (dir dir' : Path) : Prop where
  module : ∀ s, Specifier.isBare s = false → fs.searchModule dir s = fs.searchModule dir' s
  entry : ∀ s, fs.searchEntry dir s = fs.searchEntry dir' s

variable {fs : FileSystem} {p q : Path}

theorem resolvesAlike_of_place (h : p.place = q.place) : fs.ResolvesAlike p q where
  module s hs := by
    have hjoin : (p.join ⟨s⟩).normalize = (q.join ⟨s⟩).normalize :=
      Path.normalize_eq_iff.mpr (Path.place_join_congr h ⟨s⟩)
    unfold searchModule
    rw [hjoin]
    by_cases habsolute : Specifier.isAbsolute s = true
    · simp only [habsolute, if_true]
    · have hrelative : Specifier.isRelative s = true := by
        simpa [Specifier.isBare, habsolute] using hs
      simp only [hrelative, if_true]
  entry s := by
    unfold searchEntry
    rw [Path.normalize_eq_iff.mpr (Path.place_join_congr h _)]

variable {a s : List Char}

theorem exists_of_isRelative (h : Specifier.isRelative s = true) : ∃ rest, s = '.' :: rest := by
  simp only [Specifier.isRelative, Bool.or_eq_true, beq_iff_eq, List.isPrefixOf_iff_prefix] at h
  obtain ((rfl | rfl) | ⟨rest, rfl⟩) | ⟨rest, rfl⟩ := h
  · exact ⟨_, rfl⟩
  · exact ⟨_, rfl⟩
  · exact ⟨_, rfl⟩
  · exact ⟨_, rfl⟩

theorem searchModule_of_relative (h : Specifier.isRelative s = true) (dir : Path) :
    fs.searchModule dir s = fs.search (dir.join ⟨s⟩).normalize := by
  obtain ⟨rest, rfl⟩ := exists_of_isRelative h
  have habsolute : Specifier.isAbsolute ('.' :: rest) = false := rfl
  unfold searchModule
  simp only [h, habsolute, List.isEmpty_cons, if_true, Bool.false_eq_true, if_false]

theorem isRelative_join (ha : Specifier.isRelative a = true) (hs : Specifier.isRelative s = true) :
    Specifier.isRelative (Path.join ⟨a⟩ ⟨s⟩).chars = true := by
  obtain ⟨rest, rfl⟩ := exists_of_isRelative hs
  have hstart (a : List Char) : a <+: (Path.join ⟨a⟩ ⟨'.' :: rest⟩).chars := by
    unfold Path.join
    rw [if_neg (by simp [Path.isAbsolute])]
    split <;> exact List.prefix_append _ _
  simp only [Specifier.isRelative, Bool.or_eq_true, beq_iff_eq, List.isPrefixOf_iff_prefix] at ha ⊢
  obtain ((rfl | rfl) | hback) | hback := ha
  · exact Or.inl (Or.inr ⟨_, rfl⟩)
  · exact Or.inr ⟨_, rfl⟩
  · exact Or.inl (Or.inr (hback.trans (hstart a)))
  · exact Or.inr (hback.trans (hstart a))

/-- A specifier made of two is resolved as the second one from where the first one leads. -/
theorem searchModule_join (ha : Specifier.isRelative a = true)
    (hs : Specifier.isRelative s = true) (dir : Path) :
    fs.searchModule dir (Path.join ⟨a⟩ ⟨s⟩).chars =
      fs.searchModule (dir.join ⟨a⟩).normalize s := by
  rw [searchModule_of_relative (isRelative_join ha hs), searchModule_of_relative hs,
    Path.normalize_join]
  exact congrArg fs.search (Path.normalize_join_assoc dir ⟨a⟩ ⟨s⟩)

end FileSystem

namespace FileTree

variable {t : FileTree} {p q : Path}

theorem answersAlike_of_place (h : p.place = q.place) : t.fileSystem.AnswersAlike p q where
  read := congrArg (fun w => t.files.lookup w) h
  isFile := congrArg (fun w => (t.files.lookup w).isSome) h
  isDirectory := congrArg (fun w => t.files.any (·.1.isBelow w)) h
  canonical := congrArg Path.Place.path h

/-- A search is answered with the normal path of what it found, which is the path of the same
file. -/
structure Settles (t : FileTree) (found : Probe) (answer : Option Path) : Prop where
  normal : answer = found.file?.map Path.normalize
  text : answer.map t.read? = found.file?.map t.read?
  isFile : ∀ file, answer = some file → (t.read? file).isSome = true

theorem map_read_normalize (t : FileTree) (found : Option Path) :
    (found.map Path.normalize).map t.read? = found.map t.read? := by
  rw [Option.map_map]
  refine congrArg (found.map ·) (funext fun p => ?_)
  exact (answersAlike_of_place p.place_normalize).read

theorem settles_resolve (t : FileTree) (file : Path) (specifier : String) :
    t.Settles (t.fileSystem.searchModule file.directory (Specifier.clean specifier))
      (t.fileSystem.resolve? file specifier) where
  normal := rfl
  text := t.map_read_normalize _
  isFile found h := by
    obtain ⟨p, q, hq, rfl⟩ := FileSystem.exists_of_resolve h
    exact (isFile_of_source hq).1

theorem settles_entry (t : FileTree) (root : Path) (entry : String) :
    t.Settles (t.fileSystem.searchEntry root entry) (t.fileSystem.entry? root entry) where
  normal := rfl
  text := t.map_read_normalize _
  isFile found h := by
    obtain ⟨p, q, hq, rfl⟩ := FileSystem.exists_of_entry h
    exact (isFile_of_source hq).1

/-- **Normalization composes.** A path may be made normal before another one is joined to it, and
paths may be joined in any grouping. What is normal stays as it is; it has no dots, its steps are
those of the path just if that had none, it is absolute just as the path was, and a step up leads to
the directory around it, or nowhere from the root and from the empty path. Among any files, a path
and its normal path have the same answers. Going along some paths from a normal directory and making
the outcome normal each time gives the normal path of the whole way; whatever is made normal on the
way, what is reached has the same answers and leads on to the same modules and entries; and a
specifier made of two leads where the second one leads from the directory of the first. A search for
a module or an entry may go by other paths, and its answer is the normal path of the file that it
came to. -/
theorem normalization_composes (t : FileTree) :
    (∀ p q : Path, (p.normalize.join q).normalize = (p.join q).normalize) ∧
    (∀ p q r : Path, (p.join (q.join r)).normalize = ((p.join q).join r).normalize) ∧
    (∀ p : Path, p.normalize.normalize = p.normalize ∧
      p.normalize.HasNoDots ∧ (p.HasNoDots ↔ p.normalize.components = p.components) ∧
      p.normalize.isAbsolute = p.isAbsolute ∧
      (p.join ⟨['.', '.']⟩).normalize = p.normalize.directory) ∧
    (∀ p : Path, t.fileSystem.AnswersAlike p.normalize p) ∧
    (∀ (dir : Path) (paths : List Path),
      paths.foldl (fun p q => (p.join q).normalize) dir.normalize =
        (paths.foldl Path.join dir).normalize) ∧
    (∀ (dir : Path) (steps : List (Path × Bool)),
      let whole := ((steps.map Prod.fst).foldl Path.join dir).normalize
      (dir.normalize.follow steps).normalize = whole ∧
        t.fileSystem.AnswersAlike (dir.normalize.follow steps) whole ∧
        t.fileSystem.ResolvesAlike (dir.normalize.follow steps) whole) ∧
    (∀ (dir : Path) (a s : List Char),
      Specifier.isRelative a = true → Specifier.isRelative s = true →
        t.fileSystem.searchModule dir (Path.join ⟨a⟩ ⟨s⟩).chars =
          t.fileSystem.searchModule (dir.join ⟨a⟩).normalize s) ∧
    (∀ (file : Path) (specifier : String),
      t.Settles (t.fileSystem.searchModule file.directory (Specifier.clean specifier))
        (t.fileSystem.resolve? file specifier)) ∧
    ∀ (root : Path) (entry : String),
      t.Settles (t.fileSystem.searchEntry root entry) (t.fileSystem.entry? root entry) := by
  refine ⟨Path.normalize_join, Path.normalize_join_assoc, fun p => ?_,
    fun p => answersAlike_of_place p.place_normalize, Path.foldl_normalize, fun dir steps => ?_,
    fun dir _ _ ha hs => FileSystem.searchModule_join ha hs dir, t.settles_resolve,
    t.settles_entry⟩
  · exact ⟨p.normalize_normalize, p.hasNoDots_normalize, p.hasNoDots_iff, p.isAbsolute_normalize,
      p.normalize_join_up⟩
  · have hplace := Path.place_follow dir.place_normalize steps
    have hwhole := hplace.trans (Path.place_normalize _).symm
    exact ⟨Path.normalize_eq_iff.mpr hplace, answersAlike_of_place hwhole,
      FileSystem.resolvesAlike_of_place hwhole⟩

/-- A file beside the sources. -/
def libraryFiles : FileTree := .ofList [("/p/lib/util/b.ts", "export interface B \x7b\x7d")]

theorem library_found_stepwise :
    Specifier.isRelative "../lib/x/..".toList = true ∧
      Specifier.isRelative "./util/./b".toList = true ∧
      ((Path.ofText "/p/src").join (.ofText "../lib/x/..")).normalize = .ofText "/p/lib" ∧
      libraryFiles.fileSystem.searchModule (.ofText "/p/lib") "./util/./b".toList =
        .found (.ofText "/p/lib/util/b.ts") ∧
      libraryFiles.fileSystem.searchModule (.ofText "/p/src") "../lib/x/.././util/./b".toList =
        .found (.ofText "/p/lib/util/b.ts") := by
  have ha : Specifier.isRelative "../lib/x/..".toList = true := by decide
  have hs : Specifier.isRelative "./util/./b".toList = true := by decide
  have hdir :
      ((Path.ofText "/p/src").join (.ofText "../lib/x/..")).normalize = .ofText "/p/lib" := by
    decide
  have hfound : libraryFiles.fileSystem.searchModule (.ofText "/p/lib") "./util/./b".toList =
      .found (.ofText "/p/lib/util/b.ts") := by
    decide +kernel
  obtain ⟨-, -, -, -, -, -, hjoined, -⟩ := normalization_composes libraryFiles
  have hwhole := hjoined (.ofText "/p/src") _ _ ha hs
  exact ⟨ha, hs, hdir, hfound, hwhole.trans (hdir.symm ▸ hfound)⟩

/-- Steps up stop at the root, and at the start of a relative path. -/
example : ((Path.ofText "/p/src/./x").join (.ofText "../../../../lib/b.ts")).normalize =
      .ofText "/lib/b.ts" ∧ (Path.ofText "p/../../lib").normalize = .ofText "lib" := by
  decide

end FileTree

end ApiSurface
