import ApiSurface.Extraction.Types
import ApiSurface.Proofs.BoundSites
import ApiSurface.Proofs.ClosedGraph
import ApiSurface.Proofs.LoadedFiles
import ApiSurface.Proofs.Occurrences
/-!
Where import types lead. While a program is loaded, the specifiers of the types that are written in
its files are followed; those of types in the keys of index signatures and in initializers are not,
and are known later only if the file names them elsewhere as well.
-/
namespace ApiSurface

/-- The specifier of an import type. -/
def TypeExpr.specifier? : TypeExpr → Option String
  | ⟨_, .moduleType specifier _ _ _⟩ => some specifier
  | _ => none

theorem SourceFile.mem_imported_of_outer {f : SourceFile} {d : Declaration}
    (hd : d ∈ f.declarations) {e : TypeExpr} (he : (.outer, e) ∈ d.occurrences) {s : String}
    (hs : e.specifier? = some s) : s ∈ f.imported := by
  have hwritten : e ∈ d.written := (d.mem_occurrences e).mp he
  have htypes : s ∈ f.importedInTypes := by
    refine List.mem_flatMap.mpr ⟨d, Array.mem_toList_iff.mpr hd, List.mem_filterMap.mpr
      ⟨e, hwritten, ?_⟩⟩
    rw [← hs]
    obtain ⟨span, shape⟩ := e
    cases shape <;> rfl
  exact List.mem_eraseDups.mpr (List.mem_append_right _ htypes)

theorem Symbol.isModuleLike_of_isA {s : Symbol} {k : SymbolKind} (h : s.isA k = true)
    (hk : k.isModule = true) : s.isModuleLike = true :=
  List.any_eq_true.mpr ⟨k, List.contains_iff_mem.mp h, hk⟩

namespace Program

variable {fs : FileSystem} {root : Path} {names : List String} {p : Program}

/-- The module that is declared by a specifier that is no path. -/
def ambient? (p : Program) (specifier : String) : Option SymbolIndex :=
  if Specifier.isBare specifier.toList then p.ambient.get? specifier else none

/-- A symbol is the module that a loaded file is. -/
def IsModuleAt (p : Program) (m : SymbolIndex) (path : Path) : Prop :=
  ∃ k file, p.files[k]? = some file ∧ file.path = path ∧ p.modules.get? k = some m ∧
    .file k ∈ (p.symbol m).declarations

/-- A specifier that a file names is known in it, if it leads to a file that is a module. -/
theorem resolveModule_of_resolve (hfs : fs.Lawful) (h : load fs root names = .ok p)
    {i : FileIndex} {file : LoadedFile} (hi : p.files[i]? = some file) {s : String} {q : Path}
    (hq : fs.resolve? file.path s = some q) {text : String} (htext : fs.read? q = some text)
    (hmodule : (SourceFile.parse (q.display p.root) text.toList).isModule = true) :
    (s ∈ file.source.imported → ∃ m, p.IsModuleAt m q ∧
      p.resolveModule i s = (p.ambient? s <|> some m)) ∧
    (s ∉ file.source.imported → p.resolveModule i s = p.ambient? s) := by
  have hload := (load_bind h).1
  have hfiled : Loaded.Filed fs p.toLoaded := (Loaded.load_filed hload).1
  have hbound := load_filesBound h
  constructor
  · intro hs
    obtain ⟨k, hk⟩ := Loaded.load_followed hfs hload i file hi s hs q hq (by rw [htext]; rfl)
    obtain ⟨file', target, q', hi', -, hq', htarget, hsame⟩ := hfiled.resolved i s k hk
    obtain rfl := Option.some.inj (hi'.symm.trans hi)
    obtain rfl := Option.some.inj (hq'.symm.trans hq)
    have hmem : target ∈ p.files.toList := Array.mem_toList_iff.mpr (Array.mem_of_getElem? htarget)
    obtain ⟨text', htext', hsource⟩ := hfiled.read target hmem
    -- both paths are without detours, so they are the same letter by letter
    obtain ⟨path, hpath⟩ := hfiled.canonical target hmem
    obtain ⟨path', -, hpath'⟩ := Option.map_eq_some_iff.mp hq
    have hpath : target.path = q' := by
      rw [← hpath, ← hpath'] at hsame ⊢
      exact hfs.eq_of_same path path' hsame
    rw [hpath] at htext' hsource
    obtain rfl := Option.some.inj (htext'.symm.trans htext)
    obtain ⟨m, hm⟩ := hbound.exists_module k target (by rw [Array.getElem?_toList, htarget])
      (by rw [hsource, hmodule])
    refine ⟨m, ⟨k, target, htarget, hpath, hm, hbound.declaredAt k m hm⟩, ?_⟩
    rw [resolveModule, hk, Option.bind_some, hm, ambient?]
  · intro hs
    cases hk : p.resolved.get? (i, s) with
    | none => simp [resolveModule, ambient?, hk]
    | some k =>
      obtain ⟨file', -, -, hi', hs', -⟩ := hfiled.resolved i s k hk
      obtain rfl := Option.some.inj (hi'.symm.trans hi)
      exact absurd hs' hs

/-- A module that is found has exports. -/
theorem isModuleLike_of_resolveModule (h : load fs root names = .ok p) {i : FileIndex} {s : String}
    {m : SymbolIndex} (hm : p.resolveModule i s = some m) : (p.symbol m).isModuleLike = true := by
  have hbound := load_filesBound h
  have hm : (p.ambient? s <|> (p.resolved.get? (i, s)).bind p.modules.get?) = some m := hm
  cases hambient : p.ambient? s with
  | some m' =>
    rw [hambient] at hm
    obtain rfl := Option.some.inj hm
    unfold ambient? at hambient
    split at hambient
    · exact Symbol.isModuleLike_of_isA (hbound.isAmbient s m' hambient) rfl
    · cases hambient
  | none =>
    rw [hambient] at hm
    obtain ⟨k, -, hm⟩ := Option.bind_eq_some_iff.mp hm
    exact Symbol.isModuleLike_of_isA (hbound.isSourceFile k m hm) rfl

end Program

namespace Describe

/-- What a path of names means from somewhere on. -/
def membersFrom (start : Resolution) (names : List String) : Describe (Option Resolution) :=
  walking fun p => Walk.ask (p.membersBy p.exportsOf start names)

theorem inModule_eq {ctx : Context} (s : String) (names : List String) :
    inModule? s names ctx = membersFrom
      (((ctx.program.resolveModule ctx.scope.fileIndex s).map .symbol).getD (.unresolved s ""))
      names ctx := rfl

end Describe

namespace Program

variable {t : FileTree} {root : Path} {names : List String} {p : Program}

/-- An import type of a module leads into that module, unless it stands in the key of an index
signature or in an initializer; there it does only if the file names the module elsewhere as
well. -/
theorem importType_leads_to_module (h : load t.fileSystem root names = .ok p) {i : FileIndex}
    {file : LoadedFile} (hi : p.files[i]? = some file) {d : Declaration}
    (hd : d ∈ file.source.declarations) {standing : Standing} {e : TypeExpr}
    (he : (standing, e) ∈ d.occurrences) {s : String} (hs : e.specifier? = some s) {q : Path}
    (hq : t.fileSystem.resolve? file.path s = some q) {text : String} (htext : t.read? q = some text)
    (hmodule : (SourceFile.parse (q.display p.root) text.toList).isModule = true) :
    (standing = .outer ∨ s ∈ file.source.imported ∨ (p.ambient? s).isSome →
      ∃ m, p.resolveModule i s = some m ∧ (p.symbol m).isModuleLike = true ∧
        (p.ambient? s = some m ∨ p.ambient? s = none ∧ p.IsModuleAt m q) ∧
        ∀ (path : List String) (ctx : Context), ctx.program = p → ctx.scope.fileIndex = i →
          Describe.inModule? s path ctx = Describe.membersFrom (.symbol m) path ctx) ∧
    (standing ≠ .outer → s ∉ file.source.imported → p.ambient? s = none →
      p.resolveModule i s = none ∧
        ∀ (path : List String) (ctx : Context), ctx.program = p → ctx.scope.fileIndex = i →
          Describe.inModule? s path ctx = Describe.membersFrom (.unresolved s "") path ctx) := by
  obtain ⟨hnamed, hother⟩ :=
    resolveModule_of_resolve t.fileSystem_lawful h hi hq htext hmodule
  constructor
  · intro hknown
    have hresolved : ∃ m, p.resolveModule i s = some m ∧
        (p.ambient? s = some m ∨ p.ambient? s = none ∧ p.IsModuleAt m q) := by
      by_cases himported : s ∈ file.source.imported
      · obtain ⟨m, hm, hresolve⟩ := hnamed himported
        cases hambient : p.ambient? s with
        | none => exact ⟨m, by rw [hresolve, hambient]; rfl, Or.inr ⟨rfl, hm⟩⟩
        | some m' => exact ⟨m', by rw [hresolve, hambient]; rfl, Or.inl rfl⟩
      · rcases hknown with rfl | himported' | hambient
        · exact absurd (SourceFile.mem_imported_of_outer hd he hs) himported
        · exact absurd himported' himported
        · obtain ⟨m, hm⟩ := Option.isSome_iff_exists.mp hambient
          exact ⟨m, by rw [hother himported, hm], Or.inl hm⟩
    obtain ⟨m, hm, hwhich⟩ := hresolved
    refine ⟨m, hm, isModuleLike_of_resolveModule h hm, hwhich, ?_⟩
    rintro path ctx rfl rfl
    rw [Describe.inModule_eq, hm]
    rfl
  · intro _ himported hambient
    have hm : p.resolveModule i s = none := by rw [hother himported, hambient]
    refine ⟨hm, ?_⟩
    rintro path ctx rfl rfl
    rw [Describe.inModule_eq, hm]
    rfl

/-- A package with a variable whose type is one of another module. -/
def annotatedFiles : FileTree := .ofList
  [("/p/index.ts", "export declare const v: import(\"./m\").T;"),
    ("/p/m.ts", "export interface T \x7b\x7d")]

/-- The same, where the type is written in the initializer. -/
def assertedFiles : FileTree := .ofList
  [("/p/index.ts", "export const v = x as import(\"./m\").T;"),
    ("/p/m.ts", "export interface T \x7b\x7d")]

/-- Whether a file has an import type of a module in some place. -/
def hasImportType (standing : Standing) (s : String) (file : LoadedFile) : Bool :=
  file.source.declarations.toList.any fun d => d.occurrences.any fun (standing', e) =>
    standing' = standing && e.specifier? == some s

theorem exists_importType {standing : Standing} {s : String} {file : LoadedFile}
    (h : hasImportType standing s file = true) : ∃ d ∈ file.source.declarations,
      ∃ e, (standing, e) ∈ d.occurrences ∧ e.specifier? = some s := by
  obtain ⟨d, hd, h⟩ := List.any_eq_true.mp h
  obtain ⟨⟨standing', e⟩, he, h⟩ := List.any_eq_true.mp h
  simp only [Bool.and_eq_true, decide_eq_true_eq, beq_iff_eq] at h
  obtain ⟨rfl, hs⟩ := h
  exact ⟨d, Array.mem_toList_iff.mp hd, e, he, hs⟩

theorem annotated_leads_to_module :
    ∃ p, load annotatedFiles.fileSystem (.ofText "/p") ["index.ts"] = .ok p ∧
      ∃ m, p.resolveModule 0 "./m" = some m ∧ p.IsModuleAt m (.ofText "/p/m.ts") := by
  have hrun : (load annotatedFiles.fileSystem (.ofText "/p") ["index.ts"]).toOption.map (fun p =>
      (p.files[0]?.map fun file => (hasImportType .outer "./m" file,
        annotatedFiles.fileSystem.resolve? file.path "./m"),
      (annotatedFiles.read? (.ofText "/p/m.ts")).map fun text =>
        (SourceFile.parse ((Path.ofText "/p/m.ts").display p.root) text.toList).isModule,
      p.ambient? "./m")) =
      some (some (true, some (.ofText "/p/m.ts")), some true, none) := by
    decide +kernel
  obtain ⟨p, hload, hrun⟩ := Walk.exists_of_toOption_map hrun
  simp only [Prod.mk.injEq, Option.map_eq_some_iff] at hrun
  obtain ⟨⟨file, hi, htype, hq⟩, ⟨text, htext, hmodule⟩, hambient⟩ := hrun
  obtain ⟨d, hd, e, he, hs⟩ := exists_importType htype
  obtain ⟨m, hm, -, hwhich, -⟩ :=
    (importType_leads_to_module hload hi hd he hs hq htext hmodule).1 (Or.inl rfl)
  rcases hwhich with hwhich | ⟨-, hwhich⟩
  · rw [hambient] at hwhich
    cases hwhich
  · exact ⟨p, hload, m, hm, hwhich⟩

/-- In an initializer, a module that is there is not found. -/
theorem asserted_module_unresolved :
    ∃ p file d e q text, load assertedFiles.fileSystem (.ofText "/p") ["index.ts"] = .ok p ∧
      p.files[0]? = some file ∧ d ∈ file.source.declarations ∧
      (.initializer, e) ∈ d.occurrences ∧ e.specifier? = some "./m" ∧
      assertedFiles.fileSystem.resolve? file.path "./m" = some q ∧
      assertedFiles.read? q = some text ∧
      (SourceFile.parse (q.display p.root) text.toList).isModule = true ∧
      p.resolveModule 0 "./m" = none ∧
      ∃ g, (p.walk 8 [("pkg", 0)] []).1 = .ok g ∧
        SymbolId.unresolved "./m" "T" ∈ g.externals.keys := by
  have hrun : (load assertedFiles.fileSystem (.ofText "/p") ["index.ts"]).toOption.map (fun p =>
      (p.files[0]?.map fun file => (hasImportType .initializer "./m" file,
        assertedFiles.fileSystem.resolve? file.path "./m"),
      (assertedFiles.read? (.ofText "/p/m.ts")).map fun text =>
        (SourceFile.parse ((Path.ofText "/p/m.ts").display p.root) text.toList).isModule,
      (p.resolveModule 0 "./m").isNone, (p.walk 8 [("pkg", 0)] []).1.toOption.map (·.externals.keys))) =
      some (some (true, some (.ofText "/p/m.ts")), some true, true,
        some [SymbolId.unresolved "./m" "T"]) := by
    decide +kernel
  obtain ⟨p, hload, hrun⟩ := Walk.exists_of_toOption_map hrun
  simp only [Prod.mk.injEq] at hrun
  obtain ⟨hfile, htext, hnone, hwalk⟩ := hrun
  obtain ⟨file, hi, hfile⟩ := Option.map_eq_some_iff.mp hfile
  obtain ⟨htype, hq⟩ := (Prod.mk.injEq ..).mp hfile
  obtain ⟨text, htext, hmodule⟩ := Option.map_eq_some_iff.mp htext
  obtain ⟨d, hd, e, he, hs⟩ := exists_importType htype
  obtain ⟨g, hg, hkeys⟩ := Walk.exists_of_toOption_map hwalk
  exact ⟨p, file, d, e, _, text, hload, hi, hd, he, hs, hq, htext, hmodule,
    Option.isNone_iff_eq_none.mp hnone, g, hg, by rw [hkeys]; exact List.mem_singleton_self _⟩

end Program

end ApiSurface
