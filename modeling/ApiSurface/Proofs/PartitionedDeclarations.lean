import ApiSurface.Proofs.DeclaredSymbols
/-!
Binding parts the declarations of a program among its symbols. Each declaration belongs to the one
symbol that the table of declarations has for it, and bears its name; only a block for the whole
program belongs to none.
-/
namespace ApiSurface

namespace SourceFile

variable {f : SourceFile} {i j : DeclIndex}

theorem IsForest.lt_of_topLevel (h : f.IsForest) (hi : i ∈ f.topLevel) : i < f.declarations.size :=
  List.mem_range.mp (h.once.mem_iff.mp (List.mem_append_left _ hi))

theorem IsForest.lt_of_body (h : f.IsForest) {statements : List Statement}
    (hbody : f.body? j = some statements) (hi : i ∈ declaredIn statements) :
    i < f.declarations.size := by
  obtain ⟨e, he, hshape⟩ := Option.bind_eq_some_iff.mp hbody
  have hchild : i ∈ e.children := by
    unfold Declaration.body? at hshape
    split at hshape
    · next naming body hmodule =>
      rw [Declaration.children, hmodule, hshape]
      exact hi
    · cases hshape
  have hall := List.mem_flatMap_of_mem (Array.mem_toList_iff.mpr (Array.mem_of_getElem? he)) hchild
  exact List.mem_range.mp (h.once.mem_iff.mp (List.mem_append_right _ hall))

end SourceFile

namespace Program

variable {fs : FileSystem} {root : Path} {names : List String} {p : Program}

/-- A file that was loaded was parsed; there are no declarations in others. -/
theorem source_parsed (h : load fs root names = .ok p) {i : FileIndex} {j : DeclIndex}
    {d : Declaration} (hd : (p.toLoaded.source i).declaration? j = some d) :
    ∃ f, p.files[i]? = some f ∧ f.source = p.toLoaded.source i ∧
      ∃ name text, p.toLoaded.source i = .parse name text := by
  cases hf : p.files[i]? with
  | none =>
    rw [Loaded.source, Array.getD_eq_getD_getElem?, hf] at hd
    cases hd
  | some f =>
    obtain ⟨text, -, hsource⟩ := (Loaded.load_filed (load_bind h).1).1.read f
      (Array.mem_toList_iff.mpr (Array.mem_of_getElem? hf))
    have heq := Loaded.source_of_getElem? (l := p.toLoaded) hf
    exact ⟨f, rfl, heq.symm, _, _, heq.trans hsource⟩

/-- A member of an enum stands in an enum. -/
theorem exists_enum_of_member (h : load fs root names = .ok p) {i : FileIndex} {j : DeclIndex}
    {d : Declaration} (hd : (p.toLoaded.source i).declaration? j = some d) (hmember : d.IsMember) :
    ∃ k e, d.parent = some k ∧ (p.toLoaded.source i).declaration? k = some e ∧ e.IsEnum := by
  obtain ⟨-, -, -, name, text, hparse⟩ := source_parsed h hd
  rw [hparse] at hd ⊢
  exact SourceFile.parse_members name text hd hmember

theorem load_parsed (h : load fs root names = .ok p) : p.toLoaded.Parsed := by
  have hforest := load_forest h
  refine ⟨hforest, fun {σ i} hi => ?_, fun {f i d members m} hd hshape hm => ?_⟩
  · have hlt : i < (p.toLoaded.source σ.fileIndex).declarations.size := by
      cases σ with
      | file f => exact (hforest f).lt_of_topLevel hi
      | declaration f j =>
        change i ∈ declaredIn (((p.toLoaded.source f).body? j).getD []) at hi
        cases hbody : (p.toLoaded.source f).body? j with
        | none =>
          rw [hbody] at hi
          cases hi
        | some statements => exact (hforest f).lt_of_body hbody (by rwa [hbody] at hi)
    have hd := Array.getElem?_eq_getElem hlt
    refine ⟨_, hd, fun hmember => ?_⟩
    obtain ⟨k, e, hparent, he, members, hshape⟩ := exists_enum_of_member h hd hmember
    -- the list it stands in would be the body of an enum, which has none
    have hscope := (Loaded.parent_eq hforest hi hd).symm.trans hparent
    cases σ with
    | file f => cases hscope
    | declaration f j =>
      obtain rfl := Option.some.inj hscope
      have he : (p.toLoaded.source f).declaration? j = some e := he
      change i ∈ declaredIn ((((p.toLoaded.source f).declaration? j).bind _).getD []) at hi
      rw [he, Option.bind_some, Declaration.body?, hshape] at hi
      cases hi
  · obtain ⟨f', hf, hsource, -⟩ := source_parsed h hd
    exact hsource ▸ (load_tidy h hf).members i d (hsource.symm ▸ hd) members hshape m hm

/-- What is known of the symbols of a program. -/
theorem load_labelling (h : load fs root names = .ok p) :
    p.toLoaded.Labelling (p.files.toList.zipIdx.flatMap fun (f, i) => f.sites i) p.toBindings :=
  (load_bind h).2 ▸ Loaded.bind_labelling (load_parsed h)

/-- Binding reaches all declarations except blocks for the whole program. -/
theorem declaration_reached (h : load fs root names = .ok p) {i : FileIndex} {j : DeclIndex}
    {d : Declaration} (hd : (p.toLoaded.source i).declaration? j = some d)
    (hglobal : ¬ d.IsGlobal) :
    .declaration i j ∈ p.files.toList.zipIdx.flatMap fun (f, i) => f.sites i := by
  have hforest := load_forest h i
  obtain ⟨f, hf, hsource, -⟩ := source_parsed h hd
  have htidy := hsource ▸ load_tidy h hf
  refine Loaded.mem_files_sites hf ?_
  rw [hsource]
  by_cases hmember : d.IsMember
  · -- binding comes to it with its enum
    obtain ⟨k, e, hparent, he, members, hshape⟩ := exists_enum_of_member h hd hmember
    have hnone : ¬ e.IsMember := by
      rintro ⟨initial, hinitial⟩
      cases hshape.symm.trans hinitial
    refine SourceFile.boundBy_reached hforest htidy he hnone ?_
    obtain ⟨e', he', hchild⟩ := (hforest.child j d hd k).mp hparent
    obtain rfl := Option.some.inj (he.symm.trans he')
    rw [Declaration.children, hshape] at hchild
    rw [SourceFile.boundBy, he, Option.map_some, hshape]
    exact List.mem_cons_of_mem _ hchild
  · exact SourceFile.boundBy_reached hforest htidy hd hmember (SourceFile.mem_boundBy hd hglobal)

/-- Binding parts the declarations among the symbols: a declaration is one of a symbol exactly if
the table of declarations has that symbol for it, a symbol has none of them twice and is called what
all of them are called, and only a block for the whole program is a declaration of no symbol. -/
theorem declarations_parted (h : load fs root names = .ok p) :
    (∀ f i s, p.DeclaredAt s (.declaration f i) ↔ p.symbolOf.get? (f, i) = some s) ∧
      (∀ s, (p.symbol s).declarations.Nodup) ∧
      (∀ (f : FileIndex) (file : LoadedFile) (i : DeclIndex) (d : Declaration),
        p.files[f]? = some file → file.source.declaration? i = some d →
          d.naming? ≠ some .global →
            ∃ s < p.symbols.size, p.symbolOf.get? (f, i) = some s) ∧
      ∀ s site, p.DeclaredAt s site → p.nameAt? site = some (p.symbol s).name := by
  have hlabelling := load_labelling h
  have hparted (f : FileIndex) (i : DeclIndex) (s : SymbolIndex) :
      p.DeclaredAt s (.declaration f i) ↔ p.symbolOf.get? (f, i) = some s :=
    ⟨(load_merging h).merged.symbolOf, hlabelling.labelled.symbolOf⟩
  refine ⟨hparted, hlabelling.labelled.nodup, fun f file i d hf hd hglobal => ?_,
    fun _ _ => hlabelling.labelled.nameAt⟩
  rw [← Loaded.source_of_getElem? (l := p.toLoaded) hf] at hd
  obtain ⟨s, hs⟩ := hlabelling.declared _ (declaration_reached h hd hglobal)
  exact ⟨s, Loaded.lt_of_declaredAt hs, (hparted f i s).mp hs⟩

/-- An enum with a module of its name, next to a block for the whole program. -/
def partedEnumFiles : FileTree := .ofList
  [("/p/index.ts", "export enum E \x7b A, B \x7d\n" ++
    "export namespace E \x7b export interface C \x7b\x7d \x7d\n" ++
    "declare global \x7b interface G \x7b\x7d \x7d")]

theorem merged_enum_parted : ∃ p,
    load partedEnumFiles.fileSystem (.ofText "/p") ["index.ts"] = .ok p ∧
      ∀ i ∈ [0, 1, 2, 3, 4, 6], ∃ s < p.symbols.size, p.symbolOf.get? (0, i) = some s ∧
        (p.symbol s).declarations.Nodup ∧ p.DeclaredAt s (.declaration 0 i) ∧
          p.nameAt? (.declaration 0 i) = some (p.symbol s).name := by
  have hrun : (load partedEnumFiles.fileSystem (.ofText "/p") ["index.ts"]).toOption.map (fun p =>
      [0, 1, 2, 3, 4, 6].all fun i => p.files[0]?.any fun f =>
        (f.source.declaration? i).any (·.naming? ≠ some .global)) = some true := by
    decide +kernel
  obtain ⟨p, hload, hrun⟩ := Walk.exists_of_toOption_map hrun
  obtain ⟨hparted, hnodup, htotal, hnames⟩ := declarations_parted hload
  refine ⟨p, hload, fun i hi => ?_⟩
  obtain ⟨f, hf, hany⟩ := (Option.any_eq_true _ _).mp (List.all_eq_true.mp hrun i hi)
  obtain ⟨d, hd, hglobal⟩ := (Option.any_eq_true _ _).mp hany
  obtain ⟨s, hlt, hs⟩ := htotal 0 f i d hf hd (of_decide_eq_true hglobal)
  have hsite := (hparted 0 i s).mpr hs
  exact ⟨s, hlt, hs, hnodup s, hsite, hnames s _ hsite⟩

end Program

end ApiSurface
