import ApiSurface.SymbolId
import ApiSurface.Proofs.ClosedGraph
import ApiSurface.Proofs.LoadedFiles
import ApiSurface.Proofs.ParsedFiles
/-!
Symbols that are declared go by different names: the name of a symbol tells where it is declared,
and nothing else is declared there.
-/
namespace ApiSurface

/-! ### The text of a name -/

namespace SymbolId

/-- No part of the text reads like the end of a place and the sign before the next one. -/
def PlainName (name : String) : Prop :=
  ∀ front digits back : List Char, digits ≠ [] → (∀ c ∈ digits, c.isDigit = true) →
    name.toList ≠ front ++ ':' :: (digits ++ '+' :: back)

theorem plainName_of_not_mem {name : String} (h : ':' ∉ name.toList) : PlainName name := by
  intro front digits back _ _ heq
  exact h (heq ▸ List.mem_append_right _ List.mem_cons_self)

/-- What may follow a place: nothing, or a sign and the next place. -/
def Follows (text : List Char) : Prop := ∀ c ∈ text.head?, c = '+'

variable {digits digits' rest rest' : List Char}

/-- Where digits end before what may follow a place is seen from the text. -/
theorem digits_prefix (hdigits : ∀ c ∈ digits', c.isDigit = true) (hrest : Follows rest)
    {more : List Char} (hmore : digits' = digits ++ more) (heq : rest = more ++ rest') :
    more = [] := by
  cases more with
  | nil => rfl
  | cons c more =>
    have hsign : c = '+' := hrest c (heq ▸ rfl)
    have hdigit := hdigits c (hmore ▸ List.mem_append_right _ List.mem_cons_self)
    rw [hsign] at hdigit
    cases hdigit

theorem digits_eq (hdigits : ∀ c ∈ digits, c.isDigit = true)
    (hdigits' : ∀ c ∈ digits', c.isDigit = true) (hrest : Follows rest) (hrest' : Follows rest')
    (h : digits ++ rest = digits' ++ rest') : digits = digits' ∧ rest = rest' := by
  rcases List.append_eq_append_iff.mp h with ⟨more, hmore, heq⟩ | ⟨more, hmore, heq⟩
  · obtain rfl := digits_prefix hdigits' hrest hmore heq
    exact ⟨by rw [hmore, List.append_nil], heq⟩
  · obtain rfl := digits_prefix hdigits hrest' hmore heq
    exact ⟨by rw [hmore, List.append_nil], heq.symm⟩

/-- A plain name does not go on over the offset of another place. -/
theorem name_prefix {name : String} (hname : PlainName name) (hne : digits ≠ [])
    (hdigits : ∀ c ∈ digits, c.isDigit = true) (hrest : Follows rest) {front more : List Char}
    (hmore : name.toList = front ++ more)
    (heq : ':' :: (digits ++ rest) = more ++ ':' :: rest') : more = [] := by
  cases more with
  | nil => rfl
  | cons c more =>
    obtain ⟨rfl, htail⟩ := List.cons.inj heq
    rcases List.append_eq_append_iff.mp htail with ⟨more', hmore', heq⟩ | ⟨more', hmore', heq⟩
    · cases more' with
      | nil => exact absurd (hrest ':' (heq ▸ rfl)) (by decide)
      | cons c more' =>
        obtain rfl : c = '+' := hrest c (heq ▸ rfl)
        exact absurd (hmore.trans (by rw [hmore'])) (hname front digits more' hne hdigits)
    · cases more' with
      | nil => exact absurd (hrest ':' ((List.nil_append rest).symm ▸ heq ▸ rfl)) (by decide)
      | cons c more' =>
        obtain ⟨rfl, -⟩ := List.cons.inj heq
        have hcolon := hdigits ':' (hmore' ▸ List.mem_append_right _ List.mem_cons_self)
        cases hcolon

/-- The characters of a place and of what follows it. -/
def placeChars (place : String × ℕ) (rest : List Char) : List Char :=
  place.1.toList ++ ':' :: (Nat.toDigits 10 place.2 ++ rest)

theorem placeChars_inj {place place' : String × ℕ} (hname : PlainName place.1)
    (hname' : PlainName place'.1) (hrest : Follows rest) (hrest' : Follows rest')
    (h : placeChars place rest = placeChars place' rest') : place = place' ∧ rest = rest' := by
  have hdigits (n : ℕ) : ∀ c ∈ Nat.toDigits 10 n, c.isDigit = true :=
    fun c hc => Nat.isDigit_of_mem_toDigits (by decide) (by decide) hc
  have hne (n : ℕ) : Nat.toDigits 10 n ≠ [] := Nat.toDigits_ne_nil
  unfold placeChars at h
  have hnames : place.1.toList = place'.1.toList := by
    rcases List.append_eq_append_iff.mp h with ⟨more, hmore, heq⟩ | ⟨more, hmore, heq⟩
    · obtain rfl := name_prefix hname' (hne _) (hdigits _) hrest hmore heq
      rw [hmore, List.append_nil]
    · obtain rfl := name_prefix hname (hne _) (hdigits _) hrest' hmore heq
      rw [hmore, List.append_nil]
  rw [hnames] at h
  obtain ⟨hoffsets, hrests⟩ := digits_eq (hdigits _) (hdigits _) hrest hrest'
    (List.cons.inj (List.append_cancel_left h)).2
  refine ⟨Prod.ext (String.toList_inj.mp hnames) ?_, hrests⟩
  apply Nat.repr_injective
  rw [← String.toList_inj, Nat.toList_repr, Nat.toList_repr, hoffsets]

/-- The characters of places, each after a sign. -/
def afterChars : List (String × ℕ) → List Char
  | [] => []
  | place :: places => '+' :: placeChars place (afterChars places)

theorem afterChars_follows (places : List (String × ℕ)) : Follows (afterChars places) := by
  cases places with
  | nil => exact fun c hc => nomatch hc
  | cons place places => exact fun c hc => (Option.some.inj hc).symm

theorem afterChars_inj {places places' : List (String × ℕ)}
    (hplain : ∀ place ∈ places, PlainName place.1)
    (hplain' : ∀ place ∈ places', PlainName place.1)
    (h : afterChars places = afterChars places') : places = places' := by
  induction places generalizing places' with
  | nil =>
    cases places' with
    | nil => rfl
    | cons place' places' => cases h
  | cons place places ih =>
    cases places' with
    | nil => cases h
    | cons place' places' =>
      obtain ⟨rfl, hrest⟩ := placeChars_inj (hplain _ List.mem_cons_self)
        (hplain' _ List.mem_cons_self) (afterChars_follows _) (afterChars_follows _)
        (List.cons.inj h).2
      rw [ih (fun p hp => hplain p (List.mem_cons_of_mem _ hp))
        (fun p hp => hplain' p (List.mem_cons_of_mem _ hp)) hrest]

/-- A sign before the name of a symbol makes it places that each come after a sign. -/
theorem afterChars_eq {places : List (String × ℕ)} (hne : places ≠ []) :
    afterChars places = '+' :: (ofSites places).toList := by
  have hplace (place : String × ℕ) :
      (s!"{place.1}:{place.2}" : String).toList = placeChars place [] := by
    simp [placeChars, toString]
  have hrest (place : String × ℕ) (rest : List Char) :
      placeChars place rest = placeChars place [] ++ rest := by
    simp [placeChars]
  induction places with
  | nil => exact absurd rfl hne
  | cons place places ih =>
    rw [ofSites, String.toList_intercalate] at ih ⊢
    rw [afterChars, hrest, ← hplace]
    cases places with
    | nil => simp [afterChars]
    | cons place' places =>
      rw [ih (List.cons_ne_nil _ _)]
      simp [List.intercalate_cons_cons]

/-- The name of a symbol tells its places. -/
theorem ofSites_inj {places places' : List (String × ℕ)} (hne : places ≠ []) (hne' : places' ≠ [])
    (hplain : ∀ place ∈ places, PlainName place.1)
    (hplain' : ∀ place ∈ places', PlainName place.1) (h : ofSites places = ofSites places') :
    places = places' := by
  refine afterChars_inj hplain hplain' ?_
  rw [afterChars_eq hne, afterChars_eq hne', h]

end SymbolId

theorem mem_insertPlace {place other : String × ℕ} {places : List (String × ℕ)} :
    place ∈ insertPlace other places ↔ place = other ∨ place ∈ places := by
  induction places with
  | nil => simp [insertPlace]
  | cons first places ih =>
    unfold insertPlace
    split
    · exact List.mem_cons
    · rw [List.mem_cons, ih, List.mem_cons]
      exact or_left_comm

/-! ### Where declarations stand -/

namespace LoadedFile

variable {f : LoadedFile} {i : FileIndex} {site site' : Site}

theorem mem_sites : site ∈ f.sites i ↔ (f.source.isModule = true ∧ site = .file i) ∨
    ∃ j ∈ f.source.boundIn (f.source.declarations.size + 1) f.source.statements,
      site = .declaration i j := by
  unfold sites
  cases f.source.isModule <;> simp [eq_comm]

theorem fileIndex_of_mem_sites (h : site ∈ f.sites i) : site.fileIndex = i := by
  rcases mem_sites.mp h with ⟨-, rfl⟩ | ⟨j, -, rfl⟩ <;> rfl

theorem sites_nodup (hf : f.source.Tidy) (i : FileIndex) : (f.sites i).Nodup := by
  refine List.nodup_append.mpr ⟨?_, ?_, ?_⟩
  · split
    · exact List.nodup_singleton _
    · exact List.nodup_nil
  · exact (hf.nodup _).map fun _ _ heq => (Site.declaration.inj heq).2
  · intro first hfirst second hsecond heq
    obtain ⟨j, -, hsecond⟩ := List.mem_map.mp hsecond
    split at hfirst
    · rw [List.mem_singleton.mp hfirst, ← hsecond] at heq
      cases heq
    · cases hfirst

end LoadedFile

namespace Program

variable {p : Program} {s t : SymbolIndex}

theorem mem_places {place : String × ℕ} : place ∈ p.places s ↔
    ∃ site ∈ (p.symbol s).declarations, (p.relativePath site, p.offset site) = place := by
  have hsorted (places : List (String × ℕ)) :
      place ∈ places.foldr insertPlace [] ↔ place ∈ places := by
    induction places with
    | nil => rfl
    | cons other places ih => rw [List.foldr_cons, mem_insertPlace, ih, List.mem_cons]
  rw [places, List.mem_eraseDups, hsorted, List.mem_map]

variable {i : FileIndex} {f : LoadedFile}

theorem source_eq (hi : p.files[i]? = some f) : p.source i = f.source := by
  rw [source, file, Array.getD_eq_getD_getElem?, hi, Option.getD_some]

theorem offset_declaration (hi : p.files[i]? = some f) {j : DeclIndex} {d : Declaration}
    (hd : f.source.declaration? j = some d) : p.offset (.declaration i j) = d.offset := by
  rw [← source_eq hi] at hd
  have hsite : p.declaration? (.declaration i j) = some d := hd
  rw [offset, hsite]
  rfl

/-- A function or class without a name at the very start of a file. -/
def StartsNameless (p : Program) (site : Site) : Prop :=
  ∃ d, p.declaration? site = some d ∧ d.IsNameless ∧ d.offset = 0

/-- Only a declaration without a name of its own stands where the module of its file does. -/
theorem offset_pos (hi : p.files[i]? = some f) (hf : f.source.Tidy) {j : DeclIndex}
    (hj : .declaration i j ∈ f.sites i) (hnamed : ¬ p.StartsNameless (.declaration i j)) :
    0 < p.offset (.declaration i j) := by
  obtain ⟨-, hsite⟩ | ⟨k, hk, hsite⟩ := LoadedFile.mem_sites.mp hj
  · cases hsite
  obtain rfl := (Site.declaration.inj hsite).2
  obtain ⟨d, hd, hglobal⟩ := hf.bound _ j hk
  rw [offset_declaration hi hd]
  rcases hf.leading j d hd with hpos | hnameless | hglobal'
  · exact hpos
  · rw [← source_eq hi] at hd
    exact Nat.pos_of_ne_zero fun hzero => hnamed ⟨d, hd, hnameless, hzero⟩
  · exact absurd hglobal' hglobal

/-- The one is the module of a file, the other a function or class without a name at the very start
of it. -/
def MeetsModule (p : Program) (s t : SymbolIndex) : Prop :=
  ∃ i j, p.DeclaredAt s (.file i) ∧ p.DeclaredAt t (.declaration i j) ∧
    p.StartsNameless (.declaration i j)

/-- No two sites of a file have the same place, as long as symbols at them do not meet. -/
theorem site_eq_of_offset_eq (hi : p.files[i]? = some f) (hf : f.source.Tidy)
    (hst : ¬ p.MeetsModule s t) (hts : ¬ p.MeetsModule t s) {site site' : Site}
    (hs : p.DeclaredAt s site) (ht : p.DeclaredAt t site') (hsite : site ∈ f.sites i)
    (hsite' : site' ∈ f.sites i) (h : p.offset site = p.offset site') : site = site' := by
  rcases LoadedFile.mem_sites.mp hsite with ⟨-, rfl⟩ | ⟨j, hj, rfl⟩ <;>
    rcases LoadedFile.mem_sites.mp hsite' with ⟨-, rfl⟩ | ⟨k, hk, rfl⟩
  · rfl
  · have hpos := offset_pos hi hf hsite' fun hnameless => hst ⟨i, k, hs, ht, hnameless⟩
    exact absurd h (Nat.ne_of_lt hpos)
  · have hpos := offset_pos hi hf hsite fun hnameless => hts ⟨i, j, ht, hs, hnameless⟩
    exact absurd h.symm (Nat.ne_of_lt hpos)
  · obtain ⟨d, hd, -⟩ := hf.bound _ j hj
    obtain ⟨e, he, -⟩ := hf.bound _ k hk
    rw [offset_declaration hi hd, offset_declaration hi he] at h
    rcases Nat.lt_trichotomy j k with hlt | rfl | hlt
    · exact absurd h (Nat.ne_of_lt (hf.increasing j k d e hlt hd he))
    · rfl
    · exact absurd h.symm (Nat.ne_of_lt (hf.increasing k j e d hlt he hd))

/-- Binding comes to no site of a program twice, as long as its files were parsed. -/
theorem sites_nodup_of_tidy
    (htidy : ∀ (i : FileIndex) (f : LoadedFile), p.files[i]? = some f → f.source.Tidy) :
    (p.files.toList.zipIdx.flatMap fun (f, i) => f.sites i).Nodup := by
  refine List.nodup_flatMap.mpr ⟨fun (f, i) hf => ?_, ?_⟩
  · rw [List.mk_mem_zipIdx_iff_getElem?, Array.getElem?_toList] at hf
    exact LoadedFile.sites_nodup (htidy i f hf) i
  · refine (List.pairwise_map.mp (List.nodup_zipIdx_map_snd p.files.toList)).imp ?_
    rintro ⟨f, i⟩ ⟨g, j⟩ hij site hf hg
    exact hij ((LoadedFile.fileIndex_of_mem_sites hf).symm.trans
      (LoadedFile.fileIndex_of_mem_sites hg))

/-- No site of a program whose files were parsed belongs to two symbols. -/
theorem owns_of_tidy {fs : FileSystem} {root : Path} {names : List String}
    (h : load fs root names = .ok p)
    (htidy : ∀ (i : FileIndex) (f : LoadedFile), p.files[i]? = some f → f.source.Tidy) :
    p.Owns (p.files.toList.zipIdx.flatMap fun (f, i) => f.sites i) :=
  (load_filesBound h).owns (sites_nodup_of_tidy htidy)

theorem load_tidy {fs : FileSystem} {root : Path} {names : List String}
    (h : load fs root names = .ok p) (hi : p.files[i]? = some f) : f.source.Tidy := by
  obtain ⟨text, -, hsource⟩ := (Loaded.load_filed (load_bind h).1).1.read f
    (Array.mem_toList_iff.mpr (Array.mem_of_getElem? hi))
  exact hsource ▸ SourceFile.parse_tidy _ _

/-- A site that a symbol is declared at is one of its file. -/
theorem exists_file_of_declaredAt {fs : FileSystem} {root : Path} {names : List String}
    (h : load fs root names = .ok p) {u : SymbolIndex} {site : Site} (hsite : p.DeclaredAt u site) :
    ∃ f, p.files[site.fileIndex]? = some f ∧ site ∈ f.sites site.fileIndex := by
  have howns := owns_of_tidy h fun _ _ hi => load_tidy h hi
  obtain ⟨⟨f, i⟩, hf, hsite⟩ := List.mem_flatMap.mp (howns.2 u site hsite)
  rw [List.mk_mem_zipIdx_iff_getElem?, Array.getElem?_toList] at hf
  obtain rfl := LoadedFile.fileIndex_of_mem_sites hsite
  exact ⟨f, hf, hsite⟩

/-- Two symbols with a declaration each have different names in a document, unless files are shown
alike or under names that read like places, or the one is the module of a file that starts with the
other, a function or class without a name. -/
theorem symbolId_ne {fs : FileSystem} {root : Path} {names : List String}
    (h : load fs root names = .ok p)
    (hdistinct : (p.files.toList.map (·.source.name)).Nodup)
    (hplain : ∀ f ∈ p.files, SymbolId.PlainName f.source.name)
    (hs : (p.symbol s).declarations ≠ []) (ht : (p.symbol t).declarations ≠ [])
    (hmeet : ¬ p.MeetsModule s t) (hmeet' : ¬ p.MeetsModule t s) (hne : s ≠ t) :
    p.symbolId s ≠ p.symbolId t := by
  have howns := owns_of_tidy h fun _ _ hi => load_tidy h hi
  have hfile {u : SymbolIndex} {site : Site} (hsite : site ∈ (p.symbol u).declarations) :
      ∃ f, p.files[site.fileIndex]? = some f ∧ site ∈ f.sites site.fileIndex :=
    exists_file_of_declaredAt h hsite
  have hplaces {u : SymbolIndex} : ∀ place ∈ p.places u, SymbolId.PlainName place.1 := by
    intro place hplace
    obtain ⟨site, hsite, rfl⟩ := mem_places.mp hplace
    obtain ⟨f, hi, -⟩ := hfile hsite
    show SymbolId.PlainName (p.source site.fileIndex).name
    rw [source_eq hi]
    exact hplain f (Array.mem_of_getElem? hi)
  have hnonempty {u : SymbolIndex} (hu : (p.symbol u).declarations ≠ []) : p.places u ≠ [] := by
    obtain ⟨site, hsite⟩ := List.exists_mem_of_ne_nil _ hu
    exact List.ne_nil_of_mem (mem_places.mpr ⟨site, hsite, rfl⟩)
  intro hid
  -- the names tell the places, so some site of the one symbol has the place of one of the other
  have heq := SymbolId.ofSites_inj (hnonempty hs) (hnonempty ht) hplaces hplaces hid
  obtain ⟨site, hsite⟩ := List.exists_mem_of_ne_nil _ hs
  obtain ⟨site', hsite', hplace⟩ := mem_places.mp
    (heq ▸ mem_places.mpr ⟨site, hsite, rfl⟩ : (p.relativePath site, p.offset site) ∈ p.places t)
  obtain ⟨hpath, hoffset⟩ := Prod.mk.inj hplace
  obtain ⟨f, hi, hmem⟩ := hfile hsite
  obtain ⟨f', hi', hmem'⟩ := hfile hsite'
  -- files with one name are one file
  have hindex : site'.fileIndex = site.fileIndex := by
    rw [relativePath, relativePath, source_eq hi, source_eq hi'] at hpath
    refine (List.getElem?_inj ?_ hdistinct).mp ?_
    · simpa using (Array.getElem?_eq_some_iff.mp hi').1
    · simp [hi, hi', hpath]
  rw [hindex, hi] at hi'
  obtain rfl := Option.some.inj hi'
  have hsame := site_eq_of_offset_eq hi (load_tidy h hi) hmeet hmeet' hsite hsite' hmem
    (hindex ▸ hmem') hoffset.symm
  exact hne (howns.1 s t site hsite (hsame ▸ hsite'))

/-- Two symbols with a declaration each and one name. -/
def ShareName (p : Program) (s t : SymbolIndex) : Prop :=
  s ≠ t ∧ (p.symbol s).declarations ≠ [] ∧ (p.symbol t).declarations ≠ [] ∧
    p.symbolId s = p.symbolId t

instance (p : Program) (s t : SymbolIndex) : Decidable (p.ShareName s t) :=
  inferInstanceAs (Decidable (_ ∧ _))

/-- Two files that import from each other. -/
def pairFiles : FileTree := .ofList
  [("/p/index.ts", "export * from \"./m\";\nexport function f() \x7b\x7d"),
    ("/p/m.ts", "import \"./index\";\nexport default class \x7b\x7d")]

theorem pair_symbolId_ne : ∃ p, load pairFiles.fileSystem (.ofText "/p") ["index.ts"] = .ok p ∧
    (p.symbol 2).declarations = [.file 1] ∧ (p.symbol 3).declarations = [.declaration 1 0] ∧
      p.symbolId 2 ≠ p.symbolId 3 := by
  have hrun : (load pairFiles.fileSystem (.ofText "/p") ["index.ts"]).toOption.map (fun p =>
      (p.files.toList.map (·.source.name), (p.symbol 2).declarations, (p.symbol 3).declarations,
        (p.declaration? (.declaration 1 0)).map (·.offset))) =
      some (["index.ts", "m.ts"], [.file 1], [.declaration 1 0], some 33) := by
    decide +kernel
  obtain ⟨p, hload, hrun⟩ := Walk.exists_of_toOption_map hrun
  simp only [Prod.mk.injEq] at hrun
  obtain ⟨hnames, hmodule, hclass, hoffset⟩ := hrun
  refine ⟨p, hload, hmodule, hclass, symbolId_ne hload (hnames ▸ by decide) (fun f hf => ?_)
    (hmodule ▸ List.cons_ne_nil _ _) (hclass ▸ List.cons_ne_nil _ _) ?_ ?_ (by decide)⟩
  · have hname : f.source.name ∈ ["index.ts", "m.ts"] :=
      hnames ▸ List.mem_map_of_mem (Array.mem_toList_iff.mpr hf)
    have hplain : ∀ name ∈ ["index.ts", "m.ts"], ':' ∉ name.toList := by decide
    exact SymbolId.plainName_of_not_mem (hplain _ hname)
  · rintro ⟨i, j, -, hsite, d, hd, -, hzero⟩
    change _ ∈ (p.symbol 3).declarations at hsite
    rw [hclass] at hsite
    obtain ⟨rfl, rfl⟩ := Site.declaration.inj (List.mem_singleton.mp hsite)
    rw [hd] at hoffset
    cases (Option.some.inj hoffset).symm.trans hzero
  · rintro ⟨i, j, hsite, -⟩
    change _ ∈ (p.symbol 3).declarations at hsite
    rw [hclass] at hsite
    cases List.mem_singleton.mp hsite

theorem exists_shareName {files : FileTree} {root : String}
    (h : (load files.fileSystem (.ofText root) ["index.ts"]).toOption.map
      (fun p => decide (p.ShareName s t)) = some true) :
    ∃ p, load files.fileSystem (.ofText root) ["index.ts"] = .ok p ∧ p.ShareName s t := by
  obtain ⟨p, hload, hshare⟩ := Walk.exists_of_toOption_map h
  exact ⟨p, hload, of_decide_eq_true hshare⟩

/-- A module that starts with a function without a name. -/
def namelessFiles : FileTree := .ofList
  [("/p/index.ts", "function () \x7b\x7d\nexport \x7b default as f \x7d;")]

/-- The function goes by the name of the module. -/
theorem nameless_shares_name : ∃ p,
    load namelessFiles.fileSystem (.ofText "/p") ["index.ts"] = .ok p ∧ p.ShareName 0 1 :=
  exists_shareName (by decide +kernel)

/-- A file of a package and one outside of it that is shown alike. -/
def alikeFiles : FileTree := .ofList
  [("p/index.ts", "export * from \"../index\";"), ("index.ts", "export \x7b\x7d;")]

theorem alike_share_name : ∃ p,
    load alikeFiles.fileSystem (.ofText "p") ["index.ts"] = .ok p ∧ p.ShareName 0 1 :=
  exists_shareName (by decide +kernel)

/-- An interface in two files, and a file whose name reads like both of its places. -/
def splicedFiles : FileTree := .ofList
  [("/p/index.ts", "import \"./a\"; import \"./b\"; import \"./a.ts:11+b\";"),
    ("/p/a.ts", "interface  A \x7b\x7d"), ("/p/b.ts", "interface  A \x7b\x7d"),
    ("/p/a.ts:11+b.ts", "export let x;")]

theorem spliced_share_name : ∃ p,
    load splicedFiles.fileSystem (.ofText "/p") ["index.ts"] = .ok p ∧ p.ShareName 1 3 :=
  exists_shareName (by decide +kernel)

end Program

end ApiSurface
