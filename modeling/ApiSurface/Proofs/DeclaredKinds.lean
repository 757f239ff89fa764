import ApiSurface.Proofs.PartitionedDeclarations
/-!
The kinds of a symbol are those of its declarations, and an import has neither. A member of an enum
breaks this where a body merged with the enum exports its name: it comes to what is exported then,
whatever that is.
-/
namespace ApiSurface

/-- What has the kind, as far as describing goes: all that has exports is taken for a namespace. -/
def SymbolKind.Shows (k made : SymbolKind) : Prop := made = k ∨ k = .nameSpace ∧ made.isModule = true

theorem Declaration.madeKind_ne_importAlias (d : Declaration) : d.madeKind ≠ .importAlias := by
  unfold madeKind
  split
  · nofun
  · cases d.shape <;> nofun

/-- What a symbol is described as is one of its kinds, or a namespace for a kind that has exports. -/
theorem Symbol.exists_shows {s : Symbol} {k : SymbolKind} (h : s.describedKind? = some k) :
    ∃ made, s.isA made = true ∧ k.Shows made := by
  have hk := List.find?_some h
  split at hk
  · next hmodule =>
    obtain ⟨made, hmade, hexports⟩ := List.any_eq_true.mp hk
    exact ⟨made, List.contains_iff_mem.mpr hmade, Or.inr ⟨hmodule, hexports⟩⟩
  · exact ⟨k, hk, Or.inl rfl⟩

namespace Program

/-- The kinds of a symbol are those of its declarations, of which it has some, and it is described
as something that one of them declares; unless it is an import, which has none. -/
def Agrees (p : Program) (s : SymbolIndex) : Prop :=
  if (p.symbol s).isAlias then (p.symbol s).declarations = [] else
    (p.symbol s).declarations ≠ [] ∧
    (∀ k, (p.symbol s).isA k = true ↔ ∃ site, p.DeclaredAt s site ∧ p.kindAt? site = some k) ∧
    ∀ k, (p.symbol s).describedKind? = some k →
      ∃ site made, p.DeclaredAt s site ∧ p.kindAt? site = some made ∧ k.Shows made

/-- A member of an enum is one of the declarations of a symbol that is none. -/
def Strays (p : Program) (s : SymbolIndex) : Prop :=
  (p.symbol s).isA .enumMember = false ∧
    ∃ site, p.DeclaredAt s site ∧ p.kindAt? site = some .enumMember

variable {fs : FileSystem} {root : Path} {names : List String} {p : Program} {s : SymbolIndex}

/-- What stands at a site of a symbol makes it of a kind, which is not that of an import. -/
theorem kind_of_declaredAt (h : load fs root names = .ok p) {site : Site}
    (hsite : p.DeclaredAt s site) : ∃ k, p.kindAt? site = some k ∧ k ≠ .importAlias := by
  have hname := (load_labelling h).labelled.nameAt hsite
  cases site with
  | file f => exact ⟨.sourceFile, rfl, nofun⟩
  | declaration f i =>
    obtain ⟨d, hd, -⟩ := Option.map_eq_some_iff.mp hname
    exact ⟨d.madeKind, by rw [Loaded.kindAt?, hd, Option.map_some], d.madeKind_ne_importAlias⟩

/-- A symbol is of each kind that its declarations make, unless a member of an enum strays. -/
theorem isA_of_declaredAt (h : load fs root names = .ok p) (hstrays : ¬ p.Strays s) {site : Site}
    {k : SymbolKind} (hsite : p.DeclaredAt s site) (hk : p.kindAt? site = some k) :
    (p.symbol s).isA k = true := by
  rcases (load_labelling h).labelled.isA hsite hk with hisA | ⟨rfl, -⟩
  · exact hisA
  · by_contra hnot
    exact hstrays ⟨Bool.eq_false_iff.mpr hnot, site, hsite, hk⟩

/-- Each kind of a symbol that is no import is that of one of its declarations, and so is what it
is described as. -/
theorem kinds_declared (h : load fs root names = .ok p) (hs : s < p.symbols.size)
    (hown : (p.symbol s).isAlias = false) :
    (p.symbol s).declarations ≠ [] ∧
    (∀ k, (p.symbol s).isA k = true → ∃ site, p.DeclaredAt s site ∧ p.kindAt? site = some k) ∧
    ∀ k, (p.symbol s).describedKind? = some k →
      ∃ site made, p.DeclaredAt s site ∧ p.kindAt? site = some made ∧ k.Shows made := by
  have hlabelling := load_labelling h
  refine ⟨hlabelling.sound.declared s hs nofun hown, fun k => hlabelling.labelled.kindOf hown,
    fun k hk => ?_⟩
  obtain ⟨made, hmade, hshows⟩ := Symbol.exists_shows hk
  obtain ⟨site, hsite, hkind⟩ := hlabelling.labelled.kindOf hown hmade
  exact ⟨site, made, hsite, hkind, hshows⟩

theorem agrees_of_not_strays (h : load fs root names = .ok p) (hs : s < p.symbols.size)
    (hstrays : ¬ p.Strays s) : p.Agrees s := by
  unfold Agrees
  split
  · next halias =>
    refine List.eq_nil_iff_forall_not_mem.mpr fun site hsite => ?_
    obtain ⟨k, hk, hne⟩ := kind_of_declaredAt h hsite
    exact hne ((load_labelling h).labelled.imported halias (isA_of_declaredAt h hstrays hsite hk))
  · next hown =>
    obtain ⟨hsome, hkinds, hdescribed⟩ := kinds_declared h hs (Bool.eq_false_iff.mpr hown)
    exact ⟨hsome, fun k => ⟨hkinds k, fun ⟨_, hsite, hk⟩ => isA_of_declaredAt h hstrays hsite hk⟩,
      hdescribed⟩

theorem not_strays_of_agrees (hagrees : p.Agrees s) : ¬ p.Strays s := by
  rintro ⟨hnot, site, hsite, hk⟩
  unfold Agrees at hagrees
  split at hagrees
  · rw [Bindings.DeclaredAt, hagrees] at hsite
    cases hsite
  · exact absurd ((hagrees.2.1 _).mpr ⟨site, hsite, hk⟩) (Bool.eq_false_iff.mp hnot)

/-- The kinds of a symbol are those of its declarations, and an import has none, exactly if no
member of an enum strayed to it; none does, unless a body merged with its enum exports its name.
In any case an import is nothing else, and a symbol that is no import is declared as each of its
kinds and as what it is described as. -/
theorem kinds_agree (h : load fs root names = .ok p) (hs : s < p.symbols.size) :
    (p.Agrees s ↔ ¬ p.Strays s) ∧
    (p.Strays s → ∃ site, p.DeclaredAt s site ∧ p.MeetsExport p.toBindings site) ∧
    ((p.symbol s).isAlias = true → ∀ k, (p.symbol s).isA k = true → k = .importAlias) ∧
    ((p.symbol s).isAlias = false → (p.symbol s).declarations ≠ [] ∧
      (∀ k, (p.symbol s).isA k = true → ∃ site, p.DeclaredAt s site ∧ p.kindAt? site = some k) ∧
      ∀ k, (p.symbol s).describedKind? = some k →
        ∃ site made, p.DeclaredAt s site ∧ p.kindAt? site = some made ∧ k.Shows made) := by
  have hlabelled := (load_labelling h).labelled
  refine ⟨⟨not_strays_of_agrees, agrees_of_not_strays h hs⟩, ?_,
    fun halias _ => hlabelled.imported halias, kinds_declared h hs⟩
  rintro ⟨hnot, site, hsite, hk⟩
  rcases hlabelled.isA hsite hk with hisA | ⟨-, hmeets⟩
  · exact absurd hisA (Bool.eq_false_iff.mp hnot)
  · exact ⟨site, hsite, hmeets⟩

/-- An enum with a module of its name, none of whose exports is called as a member of the enum. -/
def agreeingFiles : FileTree := .ofList
  [("/p/index.ts", "export enum E \x7b A \x7d\n" ++
    "export namespace E \x7b export interface C \x7b\x7d \x7d")]

theorem enum_kinds_agree : ∃ p,
    load agreeingFiles.fileSystem (.ofText "/p") ["index.ts"] = .ok p ∧
      p.Agrees 1 ∧ (p.symbol 1).kinds = [.enum, .nameSpace] := by
  have hrun : (load agreeingFiles.fileSystem (.ofText "/p") ["index.ts"]).toOption.map (fun p =>
      (decide (1 < p.symbols.size), (p.symbol 1).kinds,
        (p.symbol 1).declarations.map p.kindAt?)) =
      some (true, [.enum, .nameSpace], [some .enum, some .nameSpace]) := by
    decide +kernel
  obtain ⟨p, hload, hrun⟩ := Walk.exists_of_toOption_map hrun
  simp only [Prod.mk.injEq] at hrun
  obtain ⟨hlt, hkinds, hsites⟩ := hrun
  refine ⟨p, hload, (kinds_agree hload (of_decide_eq_true hlt)).1.mpr ?_, hkinds⟩
  rintro ⟨-, site, hsite, hk⟩
  have hmem : p.kindAt? site ∈ (p.symbol 1).declarations.map p.kindAt? :=
    List.mem_map_of_mem hsite
  rw [hsites, hk] at hmem
  simp at hmem

/-- A module exports an interface that is called as a member of the enum that the module is. -/
def strayFiles : FileTree := .ofList
  [("/p/index.ts", "export namespace E \x7b export interface A \x7b\x7d \x7d\n" ++
    "export enum E \x7b A \x7d")]

/-- The member of the enum is one of the declarations of the interface, which does not become a
member of an enum by that. -/
theorem interface_member_strays : ∃ p,
    load strayFiles.fileSystem (.ofText "/p") ["index.ts"] = .ok p ∧
      (p.symbol 2).isAlias = false ∧ (p.symbol 2).kinds = [.interface] ∧
      (p.symbol 2).declarations = [.declaration 0 1, .declaration 0 3] ∧
      p.kindAt? (.declaration 0 3) = some .enumMember := by
  have hrun : (load strayFiles.fileSystem (.ofText "/p") ["index.ts"]).toOption.map (fun p =>
      ((p.symbol 2).isAlias, (p.symbol 2).kinds, (p.symbol 2).declarations,
        p.kindAt? (.declaration 0 3))) =
      some (false, [.interface], [.declaration 0 1, .declaration 0 3], some .enumMember) := by
    decide +kernel
  obtain ⟨p, hload, hrun⟩ := Walk.exists_of_toOption_map hrun
  simp only [Prod.mk.injEq] at hrun
  exact ⟨p, hload, hrun⟩

end Program

end ApiSurface
