import Mathlib.Logic.Relation
import ApiSurface.Package.Resolution
import ApiSurface.Proofs.Places
import ApiSurface.Proofs.Rows
/-!
Whether a search for a file comes to an end. It does, unless the manifests of directories send it
from one to the next in a circle: there are only so many directories.
-/
namespace ApiSurface

namespace Probe

variable {search search' : Path → Probe} {p : Path} {ps : List Path}

theorem ofOption_inj {r r' : Option Path} (h : ofOption r = ofOption r') : r = r' := by
  cases r <;> cases r' <;> simp_all [ofOption]

theorem ofOption_ne_endless (r : Option Path) : ofOption r ≠ endless := by
  cases r <;> simp [ofOption]

theorem ofOption_file? {o : Probe} (h : o ≠ endless) : ofOption o.file? = o := by
  cases o <;> simp_all [ofOption, file?]

theorem first_cons (search : Path → Probe) (p : Path) (ps : List Path) :
    first search (p :: ps) = if search p = missing then first search ps else search p := by
  cases h : search p <;> simp [first, h]

/-- Places where nothing is found are passed over. -/
theorem first_append {before : List Path} (h : ∀ b ∈ before, search b = missing)
    (ps : List Path) : first search (before ++ ps) = first search ps := by
  induction before with
  | nil => rfl
  | cons b before ih =>
    rw [List.cons_append, first_cons, if_pos (h b List.mem_cons_self)]
    exact ih fun c hc => h c (List.mem_cons_of_mem _ hc)

theorem first_eq_missing : first search ps = missing ↔ ∀ p ∈ ps, search p = missing := by
  induction ps with
  | nil => simp [first]
  | cons p ps ih =>
    rw [first_cons, List.forall_mem_cons, ← ih]
    split
    · next hp => exact ⟨fun h => ⟨hp, h⟩, fun h => h.2⟩
    · next hp => exact ⟨fun h => absurd h hp, fun h => absurd h.1 hp⟩

/-- An outcome comes from the first place where something does. -/
theorem exists_of_first_ne (h : first search ps ≠ missing) :
    ∃ before p after, ps = before ++ p :: after ∧ (∀ b ∈ before, search b = missing) ∧
      search p = first search ps := by
  induction ps with
  | nil => exact absurd rfl h
  | cons p ps ih =>
    rw [first_cons] at h ⊢
    by_cases hp : search p = missing
    · rw [if_pos hp] at h ⊢
      obtain ⟨before, q, after, rfl, hbefore, hq⟩ := ih h
      exact ⟨p :: before, q, after, rfl, List.forall_mem_cons.mpr ⟨hp, hbefore⟩, hq⟩
    · rw [if_neg hp]
      exact ⟨[], p, ps, rfl, fun _ hb => absurd hb List.not_mem_nil, rfl⟩

/-- A search that ends at more places has the same outcome where the first one ends. -/
theorem first_mono (h : ∀ p, search p ≠ endless → search' p = search p)
    (hps : first search ps ≠ endless) : first search' ps = first search ps := by
  induction ps with
  | nil => rfl
  | cons p ps ih =>
    rw [first_cons] at hps
    rw [first_cons, first_cons]
    by_cases hp : search p = missing
    · rw [if_pos hp] at hps ⊢
      rw [if_pos ((h p (by rw [hp]; simp)).trans hp)]
      exact ih hps
    · rw [if_neg hp] at hps ⊢
      rw [h p hps, if_neg hp]

end Probe

namespace FileSystem

variable {fs : FileSystem} {n m : ℕ} {p q : Path} {ps : List Path} {r : Option Path}

/-- What a search for a path comes to when it ends. Each derivation is a run. -/
inductive Finds (fs : FileSystem) : Path → Option Path → Prop where
  | file {p file : Path} (h : fs.source? p = some file) : Finds fs p (some file)
  | nowhere {p : Path} (h : fs.source? p = none) (hdir : fs.isDirectory p = false) :
    Finds fs p none
  | entry {p q file : Path} {before after : List Path} (h : fs.source? p = none)
    (hdir : fs.isDirectory p = true) (hentries : fs.entriesOf p = before ++ q :: after)
    (hbefore : ∀ b ∈ before, Finds fs b none) (hq : Finds fs q (some file)) :
    Finds fs p (some file)
  | index {p : Path} (h : fs.source? p = none) (hdir : fs.isDirectory p = true)
    (hentries : ∀ q ∈ fs.entriesOf p, Finds fs q none) :
    Finds fs p (fs.source? (p.child "index"))

/-- What a search through places comes to when it ends: the file at the first of them that has one,
or none when there is none at any of them. -/
def FindsFirst (fs : FileSystem) (ps : List Path) : Option Path → Prop
  | some file => ∃ before p after, ps = before ++ p :: after ∧ (∀ b ∈ before, fs.Finds b none) ∧
      fs.Finds p (some file)
  | none => ∀ p ∈ ps, fs.Finds p none

/-- The manifest of a directory sends a search on to a path: nothing is found before it. -/
def SendsOn (fs : FileSystem) (p q : Path) : Prop :=
  fs.source? p = none ∧ fs.isDirectory p = true ∧
    ∃ before after, fs.entriesOf p = before ++ q :: after ∧ ∀ b ∈ before, fs.Finds b none

/-- A search through places comes to a directory from which manifests lead back to it. -/
def Circles (fs : FileSystem) (ps : List Path) : Prop :=
  ∃ before p after, ps = before ++ p :: after ∧ (∀ b ∈ before, fs.Finds b none) ∧
    ∃ d, Relation.ReflTransGen fs.SendsOn p d ∧ Relation.TransGen fs.SendsOn d d

/-! ### Searches through more and more directories -/

theorem probe_succ (fs : FileSystem) (n : ℕ) (p : Path) :
    fs.probe (n+1) p =
      match fs.source? p with
      | some file => .found file
      | none =>
        if fs.isDirectory p then
          match Probe.first (fs.probe n) (fs.entriesOf p) with
          | .missing => .ofOption (fs.source? (p.child "index"))
          | outcome => outcome
        else .missing := rfl

theorem probe_of_source {file : Path} (h : fs.source? p = some file) (n : ℕ) :
    fs.probe (n+1) p = .found file := by
  rw [probe_succ, h]

theorem probe_of_not_directory (h : fs.source? p = none) (hdir : fs.isDirectory p = false)
    (n : ℕ) : fs.probe (n+1) p = .missing := by
  rw [probe_succ, h]
  simp [hdir]

theorem probe_of_entries (h : fs.source? p = none) (hdir : fs.isDirectory p = true)
    (hentries : Probe.first (fs.probe n) (fs.entriesOf p) ≠ .missing) :
    fs.probe (n+1) p = Probe.first (fs.probe n) (fs.entriesOf p) := by
  rw [probe_succ, h]
  simp only [hdir, if_true]

theorem probe_of_index (h : fs.source? p = none) (hdir : fs.isDirectory p = true)
    (hentries : Probe.first (fs.probe n) (fs.entriesOf p) = .missing) :
    fs.probe (n+1) p = .ofOption (fs.source? (p.child "index")) := by
  rw [probe_succ, h]
  simp [hdir, hentries]

/-- A search that ends has the same outcome when it may go through more directories. -/
theorem probe_mono (hle : n ≤ m) (h : fs.probe n p ≠ .endless) : fs.probe m p = fs.probe n p := by
  induction n generalizing m p with
  | zero => exact absurd rfl h
  | succ n ih =>
    obtain ⟨m, rfl⟩ : ∃ k, m = k+1 := ⟨m - 1, by omega⟩
    cases hsource : fs.source? p with
    | some file => rw [probe_of_source hsource, probe_of_source hsource]
    | none =>
      cases hdir : fs.isDirectory p with
      | false => rw [probe_of_not_directory hsource hdir, probe_of_not_directory hsource hdir]
      | true =>
        have hfirst (hends : Probe.first (fs.probe n) (fs.entriesOf p) ≠ .endless) :
            Probe.first (fs.probe m) (fs.entriesOf p) = Probe.first (fs.probe n) (fs.entriesOf p) :=
          Probe.first_mono (fun q hq => ih (Nat.le_of_succ_le_succ hle) hq) hends
        by_cases hentries : Probe.first (fs.probe n) (fs.entriesOf p) = .missing
        · rw [probe_of_index hsource hdir hentries, probe_of_index hsource hdir]
          rw [hfirst (by rw [hentries]; simp), hentries]
        · rw [probe_of_entries hsource hdir hentries] at h ⊢
          rw [probe_of_entries hsource hdir (by rwa [hfirst h]), hfirst h]

theorem probe_unique (h : fs.probe n p ≠ .endless) (h' : fs.probe m p ≠ .endless) :
    fs.probe n p = fs.probe m p := by
  rcases Nat.le_total n m with hle | hle
  · exact (probe_mono hle h).symm
  · exact probe_mono hle h'

/-- A search with an outcome is a run with that outcome. -/
theorem finds_of_probe (h : fs.probe n p = .ofOption r) : fs.Finds p r := by
  -- the cases are those of one step: a file, no directory, its index, one of its entries
  induction n generalizing p r with
  | zero => exact absurd h.symm (Probe.ofOption_ne_endless r)
  | succ n ih =>
    cases hsource : fs.source? p with
    | some file =>
      rw [probe_of_source hsource] at h
      obtain rfl : some file = r := Probe.ofOption_inj h
      exact .file hsource
    | none =>
      cases hdir : fs.isDirectory p with
      | false =>
        rw [probe_of_not_directory hsource hdir] at h
        obtain rfl : none = r := Probe.ofOption_inj h
        exact .nowhere hsource hdir
      | true =>
        by_cases hentries : Probe.first (fs.probe n) (fs.entriesOf p) = .missing
        · rw [probe_of_index hsource hdir hentries] at h
          obtain rfl := Probe.ofOption_inj h
          exact .index hsource hdir fun q hq => ih (Probe.first_eq_missing.mp hentries q hq)
        · rw [probe_of_entries hsource hdir hentries] at h
          obtain ⟨before, q, after, hsplit, hbefore, hq⟩ := Probe.exists_of_first_ne hentries
          cases r with
          | none => exact absurd h hentries
          | some file =>
            have hfound : fs.Finds q (some file) := ih (hq.trans h)
            exact .entry hsource hdir hsplit (fun b hb => ih (hbefore b hb)) hfound

theorem exists_probe_all (h : ∀ p ∈ ps, ∃ n, fs.probe n p = .missing) :
    ∃ n, ∀ p ∈ ps, fs.probe n p = .missing := by
  induction ps with
  | nil => exact ⟨0, fun _ hp => absurd hp List.not_mem_nil⟩
  | cons p ps ih =>
    obtain ⟨⟨n, hn⟩, hps⟩ := List.forall_mem_cons.mp h
    obtain ⟨m, hm⟩ := ih hps
    refine ⟨max n m, List.forall_mem_cons.mpr ⟨?_, fun q hq => ?_⟩⟩
    · rw [probe_mono (Nat.le_max_left n m) (by rw [hn]; simp), hn]
    · rw [probe_mono (Nat.le_max_right n m) (by rw [hm q hq]; simp), hm q hq]

/-- A run is a search through so many directories. -/
theorem Finds.exists_probe (h : fs.Finds p r) : ∃ n, fs.probe n p = .ofOption r := by
  induction h with
  | file h => exact ⟨1, probe_of_source h 0⟩
  | nowhere h hdir => exact ⟨1, probe_of_not_directory h hdir 0⟩
  | @entry p q file before after h hdir hentries hbefore hq ihbefore ihq =>
    obtain ⟨n, hn⟩ := exists_probe_all ihbefore
    obtain ⟨m, hm⟩ := ihq
    have hfirst : Probe.first (fs.probe (max n m)) (fs.entriesOf p) = .found file := by
      rw [hentries, Probe.first_append, Probe.first_cons]
      · rw [probe_mono (Nat.le_max_right n m) (by rw [hm]; exact Probe.ofOption_ne_endless _), hm]
        rfl
      · intro b hb
        rw [probe_mono (Nat.le_max_left n m) (by rw [hn b hb]; simp), hn b hb]
    refine ⟨max n m + 1, ?_⟩
    rw [probe_of_entries h hdir (by rw [hfirst]; simp), hfirst]
    rfl
  | index h hdir hentries ih =>
    obtain ⟨n, hn⟩ := exists_probe_all ih
    exact ⟨n+1, probe_of_index h hdir (Probe.first_eq_missing.mpr hn)⟩

/-! ### Circles -/

/-- Where a search is sent on to, less of it is left. -/
theorem SendsOn.ends (h : fs.SendsOn p q) (hp : fs.probe n p ≠ .endless) :
    ∃ m < n, fs.probe m q ≠ .endless := by
  obtain ⟨hsource, hdir, before, after, hentries, hbefore⟩ := h
  cases n with
  | zero => exact absurd rfl hp
  | succ n =>
    refine ⟨n, Nat.lt_succ_self n, fun hq => hp ?_⟩
    -- nothing is found before `q`, so the search comes to `q` and ends no sooner than there
    have hfirst (before : List Path) (hbefore : ∀ b ∈ before, fs.Finds b none) :
        Probe.first (fs.probe n) (before ++ q :: after) = .endless := by
      induction before with
      | nil => rw [List.nil_append, Probe.first_cons, hq, if_neg (by simp)]
      | cons b before ih =>
        obtain ⟨hb, hrest⟩ := List.forall_mem_cons.mp hbefore
        rw [List.cons_append, Probe.first_cons]
        split
        · exact ih hrest
        · next hb' =>
          by_contra hends
          obtain ⟨k, hk⟩ := hb.exists_probe
          exact hb' ((probe_unique hends (by rw [hk]; exact Probe.ofOption_ne_endless _)).trans hk)
    rw [probe_of_entries hsource hdir, hentries]
    · exact hfirst before hbefore
    · rw [hentries, hfirst before hbefore]
      simp

theorem ends_of_reflTransGen (h : Relation.ReflTransGen fs.SendsOn p q)
    (hp : fs.probe n p ≠ .endless) : ∃ m ≤ n, fs.probe m q ≠ .endless := by
  induction h with
  | refl => exact ⟨n, Nat.le_refl n, hp⟩
  | tail _ hstep ih =>
    obtain ⟨m, hm, hq⟩ := ih
    obtain ⟨k, hk, hr⟩ := hstep.ends hq
    exact ⟨k, by omega, hr⟩

/-- No search ends that comes to a circle. -/
theorem probe_of_circle {d : Path} (hpath : Relation.ReflTransGen fs.SendsOn p d)
    (hcircle : Relation.TransGen fs.SendsOn d d) (n : ℕ) : fs.probe n p = .endless := by
  by_contra hp
  obtain ⟨m, -, hd⟩ := ends_of_reflTransGen hpath hp
  -- each time round, the search would have less left
  induction m using Nat.strong_induction_on with
  | _ m ih =>
    obtain ⟨e, hstep, hback⟩ := Relation.TransGen.head'_iff.mp hcircle
    obtain ⟨k, hk, he⟩ := hstep.ends hd
    obtain ⟨j, hj, hd'⟩ := ends_of_reflTransGen hback he
    exact ih j (by omega) hd'

theorem exists_sendsOn_of_endless (h : fs.probe (n+1) p = .endless) :
    ∃ q, fs.SendsOn p q ∧ fs.probe n q = .endless := by
  cases hsource : fs.source? p with
  | some file =>
    rw [probe_of_source hsource] at h
    cases h
  | none =>
    cases hdir : fs.isDirectory p with
    | false =>
      rw [probe_of_not_directory hsource hdir] at h
      cases h
    | true =>
      by_cases hentries : Probe.first (fs.probe n) (fs.entriesOf p) = .missing
      · rw [probe_of_index hsource hdir hentries] at h
        exact absurd h (Probe.ofOption_ne_endless _)
      · rw [probe_of_entries hsource hdir hentries] at h
        obtain ⟨before, q, after, hsplit, hbefore, hq⟩ := Probe.exists_of_first_ne hentries
        refine ⟨q, ⟨hsource, hdir, before, after, hsplit, fun b hb => ?_⟩, hq.trans h⟩
        exact finds_of_probe (r := none) (hbefore b hb)

/-- A search that does not end within `n` directories is sent on `n` times. -/
theorem exists_row_of_endless (h : fs.probe n p = .endless) :
    ∃ row : ℕ → Path, row 0 = p ∧ ∀ i < n, fs.SendsOn (row i) (row (i+1)) := by
  induction n generalizing p with
  | zero => exact ⟨fun _ => p, rfl, fun i hi => absurd hi (Nat.not_lt_zero i)⟩
  | succ n ih =>
    obtain ⟨q, hstep, hq⟩ := exists_sendsOn_of_endless h
    obtain ⟨row, rfl, hrow⟩ := ih hq
    refine ⟨fun i => i.casesOn p row, rfl, fun i hi => ?_⟩
    cases i with
    | zero => exact hstep
    | succ i => exact hrow i (by omega)

/-- All directories lie at some places, not more than the file system counts. -/
def Counted (fs : FileSystem) : Prop :=
  ∃ places : List Path.Place, places.length ≤ fs.directoryCount ∧
    ∀ p, fs.isDirectory p = true → p.place ∈ places

theorem SendsOn.exists_normalize (h : fs.SendsOn p q) : ∃ q' : Path, q = q'.normalize := by
  obtain ⟨-, -, before, after, hentries, -⟩ := h
  have hq : q ∈ fs.entriesOf p := hentries ▸ by simp
  obtain ⟨e, -, rfl⟩ := List.mem_map.mp (List.mem_filter.mp hq).1
  exact ⟨_, rfl⟩

/-- A search that is sent on more often than there are directories goes round in a circle. -/
theorem circle_of_endless (hfs : fs.Counted) (h : fs.search p = .endless) :
    ∃ d, Relation.ReflTransGen fs.SendsOn p d ∧ Relation.TransGen fs.SendsOn d d := by
  obtain ⟨places, hplaces, hmem⟩ := hfs
  obtain ⟨row, rfl, hrow⟩ := exists_row_of_endless h
  -- all but the first are written without detours, so each is known by its place
  have hlater : ∀ i < fs.directoryCount + 1, fs.SendsOn (row (i+1)) (row (i+1+1)) :=
    fun i hi => hrow (i+1) (by omega)
  have hdirs : ∀ i < fs.directoryCount + 1, (row (i+1)).place ∈ places :=
    fun i hi => hmem _ (hlater i hi).2.1
  have hsame : ∀ i < fs.directoryCount + 1, ∀ j < fs.directoryCount + 1,
      (row (i+1)).place = (row (j+1)).place → row (i+1) = row (j+1) := by
    intro i hi j hj heq
    obtain ⟨q, hq⟩ := (hrow i (by omega)).exists_normalize
    obtain ⟨q', hq'⟩ := (hrow j (by omega)).exists_normalize
    rw [hq, hq', Path.place_normalize, Path.place_normalize] at heq
    rw [hq, hq', Path.normalize_eq_iff, heq]
  let later (i : ℕ) : Path := row (i+1)
  obtain ⟨i, hi, hcircle⟩ : ∃ i < fs.directoryCount + 1,
      Relation.TransGen fs.SendsOn (later i) (later i) :=
    exists_circle_of_row hlater Path.place places hdirs (by omega) hsame
  refine ⟨row (i+1), (transGen_of_row hrow ?_ ?_).to_reflTransGen, hcircle⟩ <;> omega

theorem search_endless_iff (hfs : fs.Counted) : fs.search p = .endless ↔
    ∃ d, Relation.ReflTransGen fs.SendsOn p d ∧ Relation.TransGen fs.SendsOn d d :=
  ⟨circle_of_endless hfs, fun ⟨_, hpath, hcircle⟩ => probe_of_circle hpath hcircle _⟩

theorem finds_iff_search (hfs : fs.Counted) : fs.Finds p r ↔ fs.search p = .ofOption r := by
  refine ⟨fun h => ?_, finds_of_probe⟩
  obtain ⟨n, hn⟩ := h.exists_probe
  have hn' : fs.probe n p ≠ .endless := by
    rw [hn]
    exact Probe.ofOption_ne_endless r
  have hends : fs.search p ≠ .endless := fun hendless => by
    obtain ⟨d, hpath, hcircle⟩ := circle_of_endless hfs hendless
    exact hn' (probe_of_circle hpath hcircle n)
  rw [← hn]
  exact probe_unique hends hn'

theorem findsFirst_iff (hfs : fs.Counted) :
    fs.FindsFirst ps r ↔ Probe.first fs.search ps = .ofOption r := by
  have hmissing (p : Path) : fs.Finds p none ↔ fs.search p = .missing := finds_iff_search hfs
  cases r with
  | none =>
    refine Iff.trans ?_ Probe.first_eq_missing.symm
    exact forall₂_congr fun p _ => hmissing p
  | some file =>
    constructor
    · rintro ⟨before, p, after, rfl, hbefore, hp⟩
      rw [Probe.first_append fun b hb => (hmissing b).mp (hbefore b hb), Probe.first_cons,
        (finds_iff_search hfs).mp hp]
      rfl
    · intro h
      have hfound : Probe.first fs.search ps ≠ .missing := by
        rw [h]
        simp [Probe.ofOption]
      obtain ⟨before, p, after, hsplit, hbefore, hp⟩ := Probe.exists_of_first_ne hfound
      exact ⟨before, p, after, hsplit, fun b hb => (hmissing b).mpr (hbefore b hb),
        (finds_iff_search hfs).mpr (hp.trans h)⟩

theorem circles_iff (hfs : fs.Counted) :
    fs.Circles ps ↔ Probe.first fs.search ps = .endless := by
  have hmissing (p : Path) : fs.Finds p none ↔ fs.search p = .missing := finds_iff_search hfs
  constructor
  · rintro ⟨before, p, after, rfl, hbefore, hp⟩
    rw [Probe.first_append fun b hb => (hmissing b).mp (hbefore b hb), Probe.first_cons,
      (search_endless_iff hfs).mpr hp, if_neg (by simp)]
  · intro h
    have hendless : Probe.first fs.search ps ≠ .missing := by
      rw [h]
      simp
    obtain ⟨before, p, after, hsplit, hbefore, hp⟩ := Probe.exists_of_first_ne hendless
    exact ⟨before, p, after, hsplit, fun b hb => (hmissing b).mpr (hbefore b hb),
      (search_endless_iff hfs).mp (hp.trans h)⟩

/-- A search either ends or goes round in a circle, never both. -/
theorem exists_findsFirst_iff (hfs : fs.Counted) :
    (∃ r, fs.FindsFirst ps r) ↔ ¬ fs.Circles ps := by
  rw [circles_iff hfs]
  constructor
  · rintro ⟨r, hr⟩ hendless
    rw [findsFirst_iff hfs, hendless] at hr
    exact Probe.ofOption_ne_endless r hr.symm
  · intro hends
    exact ⟨_, (findsFirst_iff hfs).mpr (Probe.ofOption_file? hends).symm⟩

/-! ### Modules and entries -/

/-- The places where a file of a directory looks for a module. -/
def modulePlaces (fs : FileSystem) (dir : Path) (specifier : List Char) : List Path :=
  if specifier.isEmpty then []
  else if Specifier.isAbsolute specifier then [Path.normalize ⟨specifier⟩]
  else if Specifier.isRelative specifier then [(dir.join ⟨specifier⟩).normalize]
  else (Specifier.inPackage? specifier).elim [] (fs.installations dir)

/-- The place where an entry of the package at a directory is looked for. -/
def entryPlace (root : Path) (entry : String) : Path :=
  (root.join ⟨Specifier.dropDotSlashes (trim entry.toList)⟩).normalize

theorem first_singleton (search : Path → Probe) (p : Path) : Probe.first search [p] = search p := by
  rw [Probe.first_cons]
  split
  · next h => rw [h]; rfl
  · rfl

theorem searchModule_eq (fs : FileSystem) (dir : Path) (specifier : List Char) :
    fs.searchModule dir specifier = Probe.first fs.search (fs.modulePlaces dir specifier) := by
  unfold searchModule modulePlaces
  split_ifs
  · rfl
  · rw [first_singleton]
  · rw [first_singleton]
  · cases Specifier.inPackage? specifier <;> rfl

theorem resolve_of_findsFirst (hfs : fs.Counted) {file : Path} {specifier : String}
    (h : fs.FindsFirst (fs.modulePlaces file.directory (Specifier.clean specifier)) r) :
    fs.resolve? file specifier = r.map fs.canonical := by
  rw [resolve?, searchModule_eq, (findsFirst_iff hfs).mp h]
  cases r <;> rfl

theorem entry_of_findsFirst (hfs : fs.Counted) {root : Path} {entry : String}
    (h : fs.FindsFirst [entryPlace root entry] r) :
    fs.entry? root entry = r.map fs.canonical := by
  rw [ entry?, searchEntry, ← first_singleton fs.search]
  have hsearch := (findsFirst_iff hfs).mp h
  rw [entryPlace] at hsearch
  rw [hsearch]
  cases r <;> rfl

end FileSystem

namespace FileTree

/-- The places around a place. -/
def placesAround (w : Path.Place) : List Path.Place :=
  (List.range w.components.length).map fun k => (w.components.take k).foldl Path.Place.step .start

theorem mem_placesAround {w dir : Path.Place} (h : w.isBelow dir = true) :
    dir ∈ placesAround w := by
  obtain ⟨hstarts, hne⟩ := Bool.and_eq_true_iff.mp h
  obtain ⟨rest, hrest⟩ := List.isPrefixOf_iff_prefix.mp hstarts
  have hlt : dir.components.length < w.components.length := by
    rw [← hrest, List.length_append]
    refine Nat.lt_add_of_pos_right (List.length_pos_iff.mpr fun hnil => ?_)
    rw [hnil, List.append_nil] at hrest
    have hsame : w = dir := by
      rw [← Path.Place.foldl_components w, ← hrest, Path.Place.foldl_components]
    simp [hsame] at hne
  refine List.mem_map.mpr ⟨_, List.mem_range.mpr hlt, ?_⟩
  rw [← hrest, List.take_left, Path.Place.foldl_components]

/-- The directories of a tree lie around its files. -/
theorem counted (t : FileTree) : t.fileSystem.Counted := by
  refine ⟨t.files.flatMap fun f => placesAround f.1, ?_, fun p hp => ?_⟩
  · have hsum (n : ℕ) (files : List (Path.Place × String)) :
        n + (files.flatMap fun f => placesAround f.1).length =
          files.foldl (fun n f => n + f.1.components.length) n := by
      induction files generalizing n with
      | nil => rfl
      | cons f files ih =>
        rw [List.foldl_cons, ← ih, List.flatMap_cons, List.length_append]
        simp [placesAround, Nat.add_assoc]
    exact (Nat.zero_add _ ▸ hsum 0 t.files).le
  · obtain ⟨f, hf, hbelow⟩ := List.any_eq_true.mp hp
    exact List.mem_flatMap.mpr ⟨f, hf, mem_placesAround hbelow⟩

/-- Looking for a module or for an entry among any files comes to an end, and then gives what the
search came to, exactly if it does not come to a directory from which manifests lead back to it. -/
theorem resolution_ends_iff (t : FileTree) :
    (∀ (file : Path) (specifier : String),
      (∃ r, t.fileSystem.FindsFirst
          (t.fileSystem.modulePlaces file.directory (Specifier.clean specifier)) r ∧
          t.fileSystem.resolve? file specifier = r.map Path.normalize) ↔
        ¬ t.fileSystem.Circles
          (t.fileSystem.modulePlaces file.directory (Specifier.clean specifier))) ∧
      ∀ (root : Path) (entry : String),
        (∃ r, t.fileSystem.FindsFirst [FileSystem.entryPlace root entry] r ∧
            t.fileSystem.entry? root entry = r.map Path.normalize) ↔
          ¬ t.fileSystem.Circles [FileSystem.entryPlace root entry] := by
  refine ⟨fun file specifier => ?_, fun root entry => ?_⟩
  · rw [← FileSystem.exists_findsFirst_iff t.counted]
    refine exists_congr fun r => and_iff_left_of_imp fun h => ?_
    exact FileSystem.resolve_of_findsFirst t.counted h
  · rw [← FileSystem.exists_findsFirst_iff t.counted]
    refine exists_congr fun r => and_iff_left_of_imp fun h => ?_
    exact FileSystem.entry_of_findsFirst t.counted h

/-- Two directories whose manifests send the search from one to the other. -/
def crossedManifests : FileTree := .ofList [
  ("/p/index.ts", ""),
  ("/p/a/package.json", "\x7b\"main\":\"../b\"\x7d"),
  ("/p/b/package.json", "\x7b\"main\":\"../a\"\x7d")]

/-- Not every search for a module ends. -/
theorem crossedManifests_endless :
    ¬ ∀ (t : FileTree) (file : Path) (specifier : String), ∃ r, t.fileSystem.FindsFirst
      (t.fileSystem.modulePlaces file.directory (Specifier.clean specifier)) r := by
  intro hall
  obtain ⟨r, hr⟩ := hall crossedManifests (.ofText "/p/index.ts") "./a"
  have hendless : crossedManifests.fileSystem.searchModule (Path.ofText "/p/index.ts").directory
      (Specifier.clean "./a") = .endless := by
    decide +kernel
  rw [FileSystem.searchModule_eq, (FileSystem.findsFirst_iff crossedManifests.counted).mp hr]
    at hendless
  exact Probe.ofOption_ne_endless r hendless

end FileTree

end ApiSurface
