import ApiSurface.Proofs.RenumberedBindings
import ApiSurface.Proofs.SameNames
/-!
Declarations hide imports in any order. A program without its imports is bound to the same symbols,
so imports that are moved, added or left out change nothing about what a scope declares.
-/
namespace ApiSurface

/-- A statement that only imports. -/
def Statement.isImport : Statement → Bool
  | .importFrom .. => true
  | .importEquals _ _ isExport _ => !isExport
  | _ => false

/-- The statements that do not only import. -/
def withoutImports (statements : List Statement) : List Statement :=
  statements.filter (!·.isImport)

/-- A declaration whose body, if it is a module, has no imports. -/
def Declaration.withoutImports (d : Declaration) : Declaration :=
  { d with shape := match d.shape with
    | .module naming body => .module naming (body.map ApiSurface.withoutImports)
    | shape => shape }

/-- A source whose lists of statements have no imports. -/
def SourceFile.withoutImports (f : SourceFile) : SourceFile :=
  { f with
    statements := ApiSurface.withoutImports f.statements
    declarations := f.declarations.map (·.withoutImports) }

/-- A program whose lists of statements have no imports. -/
def Loaded.withoutImports (l : Loaded) : Loaded :=
  { l with files := l.files.map fun f => { f with source := f.source.withoutImports } }

theorem listsExports_withoutImports (statements : List Statement) :
    Bind.listsExports (withoutImports statements) = Bind.listsExports statements := by
  unfold Bind.listsExports withoutImports
  rw [List.any_filter]
  congr 1
  funext s
  cases s <;> simp [Statement.isImport]

namespace SourceFile

variable (f : SourceFile)

theorem declaration?_withoutImports (i : DeclIndex) :
    f.withoutImports.declaration? i = (f.declaration? i).map (·.withoutImports) :=
  Array.getElem?_map

theorem enumMember_withoutImports (i : DeclIndex) :
    (f.withoutImports.enumMember i).1 = (f.enumMember i).1 := by
  unfold enumMember
  rw [declaration?_withoutImports]
  cases f.declaration? i <;> rfl

end SourceFile

namespace Bind

open Bindings

variable {b b' : Bindings} {f : SymbolIndex → SymbolIndex} {c : Container} {source : SourceFile}
  {file : FileIndex}

theorem moduleContainer_withoutImports (c : Container) (file : FileIndex) (i : DeclIndex)
    (d : Declaration) (naming : ModuleNaming) (body : Option (List Statement)) :
    moduleContainer c file i d.withoutImports naming (body.map withoutImports) =
      moduleContainer c file i d naming body := by
  have hsilent : (body.map withoutImports).any (fun statements => !listsExports statements) =
      body.any fun statements => !listsExports statements := by
    cases body with
    | none => rfl
    | some statements => simp [listsExports_withoutImports]
  unfold moduleContainer
  rw [hsilent]
  rfl

/-- Steps for each of some elements. -/
theorem Follows.forM {β : Type} {x x' : β → Bind Unit} {l : List β} (h : Renumbered f b b')
    (hx : ∀ y ∈ l, ∀ f₁ b₁ b₁', Extends f b f₁ b₁ → Renumbered f₁ b₁ b₁' →
      Follows f₁ b₁ b₁' (x y) (x' y) fun _ _ _ _ => True) :
    Follows f b b' (l.forM x) (l.forM x') fun _ _ _ _ => True := by
  induction l generalizing f b b' with
  | nil => exact .pure h trivial
  | cons y l ih =>
    refine .bind (hx y List.mem_cons_self f b b' (.refl f b) h) ?_
    exact fun f₁ b₁ b₁' _ _ hextends h₁ _ => ih h₁ fun z hz f₂ b₂ b₂' hextends' =>
      hx z (List.mem_cons_of_mem _ hz) f₂ b₂ b₂' (hextends.trans hextends')

/-- Two ways to bind blocks, the first one without imports, that keep a renumbering. -/
def BlocksFollow (block block' : Container → List Statement → Bind Unit) : Prop :=
  ∀ (f : SymbolIndex → SymbolIndex) (b b' : Bindings) (c : Container) (statements : List Statement),
    Renumbered f b b' → Owned b c → Follows f b b' (block c (withoutImports statements))
      (block' (c.renumber f) statements) fun _ _ _ _ => True

variable {block block' : Container → List Statement → Bind Unit}

theorem declaration_follows (hblock : BlocksFollow block block') (h : Renumbered f b b')
    (hc : Owned b c) (i : DeclIndex) :
    Follows f b b' (declaration block source.withoutImports file c i)
      (declaration block' source file (c.renumber f) i) fun _ _ _ _ => True := by
  unfold declaration
  rw [SourceFile.declaration?_withoutImports]
  cases source.declaration? i with
  | none => exact .pure h trivial
  | some d =>
    rw [Option.map_some]
    dsimp only
    cases hshape : d.shape with
    | module naming body =>
      have hshape' : d.withoutImports.shape = .module naming (body.map withoutImports) := by
        rw [Declaration.withoutImports, hshape]
      rw [hshape']
      dsimp only
      rw [moduleContainer_withoutImports]
      refine .bind (moduleContainer_follows h hc file i d naming body) ?_
      rintro f₁ b₁ b₁' inner _ - h₁ ⟨hinner, rfl⟩
      cases body with
      | none => exact .pure h₁ trivial
      | some statements => exact hblock f₁ b₁ b₁' inner statements h₁ hinner
    | «enum» members =>
      have hshape' : d.withoutImports.shape = .enum members := by
        rw [Declaration.withoutImports, hshape]
      rw [hshape']
      refine .bind (declareSymbol_follows h hc file i d .enum _) fun f₁ b₁ b₁' s s' _ h₁ hs => ?_
      refine .forM h₁ fun m _ f₂ b₂ b₂' hextends h₂ => ?_
      rw [SourceFile.enumMember_withoutImports]
      exact enumMember_follows h₂ (hs.extend hextends) file m _
    | enumMember initial =>
      have hshape' : d.withoutImports.shape = .enumMember initial := by
        rw [Declaration.withoutImports, hshape]
      rw [hshape']
      exact .pure h trivial
    | _ =>
      have hshape' : d.withoutImports.shape = d.shape := by
        rw [Declaration.withoutImports, hshape]
      rw [hshape', hshape]
      exact (declareSymbol_follows h hc file i d _ _).discard

/-- A statement that both sides have. -/
theorem statement_follows (hblock : BlocksFollow block block') (h : Renumbered f b b')
    (hc : Owned b c) {s : Statement} (hs : s.isImport = false) :
    Follows f b b' (statement block source.withoutImports file c s)
      (statement block' source file (c.renumber f) s) fun _ _ _ _ => True := by
  cases s with
  | declaration i => exact declaration_follows hblock h hc i
  | importFrom span typeOnly default nameSpace named specifier => cases hs
  | importEquals span name isExport target =>
    obtain rfl : isExport = true := by simpa [Statement.isImport] using hs
    refine .bind (declareAlias_follows h name.text (equalsTarget target)) ?_
    intro f₁ b₁ b₁' s s' hextends h₁ hs
    obtain ⟨howned, hcontainer⟩ := hc.renumber hextends
    rw [if_pos rfl, if_pos rfl, hcontainer]
    cases howner : c.owner with
    | none =>
      rw [Container.renumber, howner]
      exact .pure h₁ trivial
    | some o =>
      rw [Container.renumber, howner]
      exact .modify (hs.2 ▸ h₁.addMember hs.1 (howned o howner) name.text)
        (addMember_keeps o name.text s).size
  | _ => exact .pure h trivial

/-- A statement that only the second side has. -/
theorem statement_aside (h : Renumbered f b b') (block : Container → List Statement → Bind Unit)
    (source : SourceFile) (file : FileIndex) (c : Container) {s : Statement}
    (hs : s.isImport = true) :
    Gives (statement block source file c s) b' fun _ b₁' => Renumbered f b b₁' := by
  have halias {b' : Bindings} (h : Renumbered f b b') (name : String) (target : AliasTarget) :
      Gives (discard (declareAlias c name target)) b' fun _ b₁' => Renumbered f b b₁' :=
    declareAlias_aside h c name target
  cases s with
  | importFrom span typeOnly default nameSpace named specifier =>
    refine .bind (.forM_option (fun n _ => halias h _ _) h) fun _ b₁' h₁ => ?_
    refine .bind (.forM_option (fun n _ => halias h₁ _ _) h₁) fun _ b₂' h₂ => ?_
    exact .forM (fun n _ b₃' h₃ => halias h₃ _ _) h₂
  | importEquals span name isExport target =>
    obtain rfl : isExport = false := by simpa [Statement.isImport] using hs
    exact declareAlias_aside h c name.text (equalsTarget target)
  | _ => cases hs

/-- Statements side by side: imports are passed over on the first side. -/
theorem statements_follow (hblock : BlocksFollow block block') (h : Renumbered f b b')
    (hc : Owned b c) (statements : List Statement) :
    Follows f b b' ((withoutImports statements).forM (statement block source.withoutImports file c))
      (statements.forM (statement block' source file (c.renumber f))) fun _ _ _ _ => True := by
  induction statements generalizing f b b' with
  | nil => exact .pure h trivial
  | cons s statements ih =>
    cases hs : s.isImport with
    | true =>
      have hrest : withoutImports (s :: statements) = withoutImports statements := by
        rw [withoutImports, List.filter_cons_of_neg (by simp [hs])]
        rfl
      rw [hrest]
      exact ih (statement_aside h block' source file (c.renumber f) hs) hc
    | false =>
      have hboth : withoutImports (s :: statements) = s :: withoutImports statements := by
        rw [withoutImports, List.filter_cons_of_pos (by simp [hs])]
        rfl
      rw [hboth]
      refine .bind (statement_follows hblock h hc hs) fun f₁ b₁ b₁' _ _ hextends h₁ _ => ?_
      obtain ⟨howned, hcontainer⟩ := hc.renumber hextends
      rw [hcontainer]
      exact ih h₁ howned

theorem blocks_follow (source : SourceFile) (file : FileIndex) (n : ℕ) :
    BlocksFollow (Bind.block source.withoutImports file n) (Bind.block source file n) := by
  induction n with
  | zero => exact fun f b b' c statements h _ => .pure h trivial
  | succ n ih =>
    intro f b b' c statements h hc
    unfold Bind.block
    have hexports : (c.renumber f).exportsAll = c.exportsAll := rfl
    rw [hexports]
    cases c.exportsAll with
    | false => exact statements_follow ih h hc statements
    | true =>
      have hopened : Renumbered f { b with exportingAll := b.exportingAll ++ [c.scope] }
          { b' with exportingAll := b'.exportingAll ++ [c.scope] } := { h with }
      refine .bind (.modify hopened (Nat.le_refl _)) fun f₁ b₁ b₁' _ _ hextends h₁ _ => ?_
      obtain ⟨howned, hcontainer⟩ := hc.renumber hextends
      rw [hcontainer]
      exact statements_follow ih h₁ howned statements

theorem file_follows (h : Renumbered f b b') (loaded : LoadedFile) (i : FileIndex) :
    Follows f b b' (Bind.file { loaded with source := loaded.source.withoutImports } i)
      (Bind.file loaded i) fun _ _ _ _ => True := by
  have hsize : loaded.source.withoutImports.declarations.size = loaded.source.declarations.size :=
    Array.size_map ..
  have hblock := blocks_follow loaded.source i (loaded.source.declarations.size + 1)
  have hexports : listsExports loaded.source.withoutImports.statements =
      listsExports loaded.source.statements := listsExports_withoutImports _
  have hmodule : loaded.source.withoutImports.isModule = loaded.source.isModule := rfl
  unfold Bind.file
  dsimp only
  rw [hsize, hexports, hmodule]
  cases loaded.source.isModule with
  | false => exact hblock f b b' ⟨.file i, none, true, false, loaded.declares⟩ _ h nofun
  | true =>
    refine .bind (allocate_follows h rfl rfl rfl) fun f₁ b₁ b₁' s s' _ h₁ hs => ?_
    obtain ⟨hlt, rfl⟩ := hs
    refine .bind (hblock f₁ b₁ b₁' ⟨.file i, some s, false, _, loaded.declares⟩ _ h₁
      fun o ho => Option.some.inj ho ▸ hlt) fun f₂ b₂ b₂' _ _ _ h₂ _ => ?_
    exact .modify { h₂ with } (Nat.le_refl _)

theorem renumbered_empty : Renumbered id .empty .empty := by
  have hclosed : Bindings.empty.Closed := by
    rintro s (⟨g, scope, name, hs⟩ | ⟨o, name, hs⟩ | ⟨name, hs⟩)
    · cases g <;> cases hs
    · rw [Bindings.member, symbol_of_size_le (by simp [Bindings.empty])] at hs
      cases hs
    · cases hs
  have hnone (s : SymbolIndex) : ¬ s < Bindings.empty.symbols.size := Nat.not_lt_zero s
  refine ⟨hclosed, hclosed, fun s hs => absurd hs (hnone s), fun s hs _ _ _ => absurd hs (hnone s),
    fun s hs => absurd hs (hnone s), fun o ho _ => absurd ho (hnone o), fun g scope name => ?_,
    fun _ => rfl⟩
  cases g <;> rfl

end Bind

namespace Loaded

open Bindings (Renumbered)

/-- A program and the one without its imports are bound to the same symbols. -/
theorem bind_withoutImports (l : Loaded) : ∃ f, Renumbered f l.withoutImports.bind l.bind := by
  let bare (loaded : LoadedFile) : LoadedFile :=
    { loaded with source := loaded.source.withoutImports }
  let bound (x : LoadedFile × ℕ) : Bind Unit := Bind.file x.1 x.2
  let boundBare (x : LoadedFile × ℕ) : Bind Unit := Bind.file (bare x.1) x.2
  have hfiles : l.withoutImports.files.toList.zipIdx =
      l.files.toList.zipIdx.map (Prod.map bare id) := by
    rw [withoutImports, Array.toList_map, List.zipIdx_map]
  have hbind : l.withoutImports.bind = ((l.files.toList.zipIdx.forM boundBare).run .empty).2 := by
    unfold Loaded.bind
    rw [hfiles, List.forM_eq_forM, List.forM_map]
    rfl
  have hfollow : Bind.Follows id .empty .empty (l.files.toList.zipIdx.forM boundBare)
      (l.files.toList.zipIdx.forM bound) fun _ _ _ _ => True :=
    .forM Bind.renumbered_empty fun x _ f₁ b₁ b₁' _ h₁ => Bind.file_follows h₁ x.1 x.2
  obtain ⟨f, -, h, -⟩ := hfollow
  exact ⟨f, hbind ▸ h⟩

end Loaded

namespace Program

variable {fs : FileSystem} {root : Path} {names : List String} {p : Program}

/-- A name that a scope declares is bound there to no import. It stays so, and to a symbol of the
same kinds with the same declarations, in every program that is the same but for its imports: where
they are moved in their lists of statements, left out, or others are added. -/
theorem declarations_hide_imports (h : load fs root names = .ok p) {l : Loaded}
    (hl : l.withoutImports = p.toLoaded.withoutImports) {σ : Site} {n : String}
    {e : DeclIndex × Declaration} (he : e ∈ p.declarationsOf σ n) :
    ∃ s t, p.toBindings.named (p.isGlobal σ) σ n = some s ∧ p.IsOwn s ∧
      l.bind.named (p.isGlobal σ) σ n = some t ∧ l.bind.IsOwn t ∧
      (l.bind.symbol t).declarations = (p.symbol s).declarations ∧
      (l.bind.symbol t).kinds = (p.symbol s).kinds := by
  have hall := load_merging h
  have hreached := Loaded.listed_reached (load_forest h) (fun _ _ hf => load_tidy h hf) he
  obtain ⟨u, hu⟩ := hall.declared he hreached
  obtain ⟨s, hs, hown⟩ := hall.merged.owned he hu
  obtain ⟨f, hp⟩ := p.toLoaded.bind_withoutImports
  obtain ⟨g, hq⟩ := l.bind_withoutImports
  rw [← (load_bind h).2] at hp
  rw [hl] at hq
  -- the symbol has a counterpart in the program without imports, and that one in the other
  have hdeclared : p.toBindings.declared (p.isGlobal σ) σ n = some s := by
    rw [Bindings.declared, hs, Option.filter_some, hown.2]
    rfl
  rw [hp.declared] at hdeclared
  obtain ⟨r, hr, rfl⟩ := Option.map_eq_some_iff.mp hdeclared
  have hlt := hp.closed.declared hr
  have hother := hq.declared (p.isGlobal σ) σ n
  rw [hr, Option.map_some] at hother
  obtain ⟨ht, halias⟩ := Option.filter_eq_some_iff.mp hother
  have hsame : (l.bind.symbol (g r)).unlinked = (p.toBindings.symbol (f r)).unlinked :=
    (hq.symbol r hlt).trans (hp.symbol r hlt).symm
  exact ⟨f r, g r, hs, hown, ht, ⟨hq.lt r hlt, by simpa using halias⟩,
    Symbol.declarations_unlinked hsame, Symbol.kinds_unlinked hsame⟩

/-- A program with the imports of its files moved behind all other statements. -/
def importsLast (p : Program) : Loaded :=
  { p.toLoaded with files := p.files.map fun f => { f with source := { f.source with
      statements := f.source.statements.filter (!·.isImport) ++
        f.source.statements.filter (·.isImport) } } }

/-- An import and two declarations of its name. -/
def shadowFiles : FileTree := .ofList
  [("/p/index.ts", "import \x7b A \x7d from './a';\n" ++
    "export interface A \x7b\x7d\nexport class A \x7b\x7d"),
   ("/p/a.ts", "export type A = 1;")]

theorem importsLast_withoutImports (p : Program) :
    p.importsLast.withoutImports = p.toLoaded.withoutImports := by
  have hstatements (statements : List Statement) :
      withoutImports (statements.filter (!·.isImport) ++ statements.filter (·.isImport)) =
        withoutImports statements := by
    simp [withoutImports, List.filter_append, List.filter_filter]
  simp only [importsLast, Loaded.withoutImports, SourceFile.withoutImports, Array.map_map,
    Function.comp_def, hstatements]

theorem moved_import_hidden : ∃ p,
    load shadowFiles.fileSystem (.ofText "/p") ["index.ts"] = .ok p ∧ ∃ s t,
      p.toBindings.named false (.file 0) "A" = some s ∧
      p.importsLast.bind.named false (.file 0) "A" = some t ∧
      (p.symbol s).declarations = [.declaration 0 0, .declaration 0 1] ∧
      (p.importsLast.bind.symbol t).declarations = [.declaration 0 0, .declaration 0 1] := by
  have hrun : (load shadowFiles.fileSystem (.ofText "/p") ["index.ts"]).toOption.map (fun p =>
      ((p.declarationsOf (.file 0) "A").map Prod.fst, p.isGlobal (.file 0),
        (p.toBindings.named false (.file 0) "A").map fun s => (p.symbol s).declarations)) =
      some ([0, 1], false, some [.declaration 0 0, .declaration 0 1]) := by
    decide +kernel
  obtain ⟨p, hload, hrun⟩ := Walk.exists_of_toOption_map hrun
  simp only [Prod.mk.injEq] at hrun
  obtain ⟨hlisted, hglobal, hsites⟩ := hrun
  obtain ⟨e, he⟩ : ∃ e, e ∈ p.declarationsOf (.file 0) "A" := by
    obtain ⟨e, he, -⟩ := List.mem_map.mp (hlisted ▸ List.mem_cons_self : 0 ∈ _)
    exact ⟨e, he⟩
  obtain ⟨s, t, hs, -, ht, -, hsame, -⟩ :=
    declarations_hide_imports hload p.importsLast_withoutImports he
  rw [hglobal] at hs ht
  rw [hs, Option.map_some, Option.some_inj] at hsites
  exact ⟨p, hload, s, t, hs, ht, hsites, hsame.trans hsites⟩

end Program

end ApiSurface
