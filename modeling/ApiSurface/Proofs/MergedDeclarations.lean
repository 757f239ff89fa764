import ApiSurface.Proofs.BoundNames
import ApiSurface.Proofs.DeclarationForest
import ApiSurface.Proofs.SymbolNames
/-!
Declarations of one name. Those in one list of statements come to one symbol, as do exported ones in
the bodies of one module, as long as what a scope binds and what its module exports do not part.
-/
namespace ApiSurface

/-- The name that a declaration binds among the statements around it. -/
def Declaration.localName? (d : Declaration) : Option String :=
  match d.shape with
  | .module .string _ | .module .global _ | .enumMember _ => none
  | _ => if Bind.isLocal d then some d.name.text else none

/-- A module that makes its body ambient. -/
def Declaration.opensAmbient (d : Declaration) : Bool :=
  match d.naming? with
  | some .identifier => d.modifiers.contains .declared
  | some _ => true
  | none => false

/-- The names that a statement imports. -/
def Statement.importNames : Statement → List String
  | .importFrom _ _ default nameSpace named _ =>
    default.toList.map Ident.text ++ nameSpace.toList.map Ident.text ++ named.map (·.bound.text)
  | .importEquals _ name _ _ => [name.text]
  | _ => []

/-- The site of a declaration among the statements of a scope. -/
def Site.inner (σ : Site) (i : DeclIndex) : Site := .declaration σ.fileIndex i

namespace Loaded

/-! ### Scopes -/

/-- The source of a file. -/
def source (l : Loaded) (i : FileIndex) : SourceFile := (l.files.getD i default).source

/-- The statements of a scope: those of a file, or of the body of a module. -/
def statements (l : Loaded) : Site → List Statement
  | .file i => (l.source i).statements
  | .declaration i j => ((l.source i).body? j).getD []

/-- Whether a scope binds names for the whole program. -/
def isGlobal (l : Loaded) : Site → Bool
  | .file i => !(l.source i).isModule
  | .declaration i j => ((l.source i).declaration? j).bind (·.naming?) == some .global

/-- Whether a scope only declares. -/
def isAmbient (l : Loaded) : Site → Bool
  | .file i => (l.files.getD i default).declares
  | .declaration i j => (l.files.getD i default).declares ||
      ((l.source i).enclosing j).any fun k =>
        ((l.source i).declaration? k).any Declaration.opensAmbient

/-- Whether all declarations of a scope are exported. -/
def exportsAll (l : Loaded) (σ : Site) : Bool :=
  !l.isGlobal σ && l.isAmbient σ && !Bind.listsExports (l.statements σ)

/-- Whether a declaration in a scope is exported by its name. -/
def exports (l : Loaded) (σ : Site) (d : Declaration) : Bool :=
  (d.isExported || l.exportsAll σ) && !d.isDefaultExport

/-- The declarations of a name in a scope, in order. -/
def declarationsOf (l : Loaded) (σ : Site) (n : String) : List (DeclIndex × Declaration) :=
  (declaredIn (l.statements σ)).filterMap fun i =>
    (((l.source σ.fileIndex).declaration? i).filter (·.localName? == some n)).map (i, ·)

/-- The names of the members of an enum at a site. -/
def enumNames (l : Loaded) : Site → List String
  | .file _ => []
  | .declaration i j =>
    match ((l.source i).declaration? j).map Declaration.shape with
    | some (.enum members) => members.map fun m => ((l.source i).enumMember m).1
    | _ => []

/-- The names that a scope binds to imports, whether or not a declaration hides them. -/
def importNames (l : Loaded) (σ : Site) : List String :=
  (l.statements σ).flatMap Statement.importNames

/-- What a site makes a member of its symbol: an exported declaration, or a member of an enum. -/
def Provides (l : Loaded) (n : String) (σ : Site) : Prop :=
  (∃ e ∈ l.declarationsOf σ n, l.exports σ e.2 = true) ∨ n ∈ l.enumNames σ

/-- A body of a symbol exports an import of a name. -/
def Reexports (l : Loaded) (b : Bindings) (o : SymbolIndex) (n : String) : Prop :=
  ∃ σ, b.DeclaredAt o σ ∧ ∃ span name target,
    Statement.importEquals span name true target ∈ l.statements σ ∧ name.text = n

/-- The first declaration of a name in a scope is exported. -/
def LeadsExported (l : Loaded) (σ : Site) (n : String) : Prop :=
  ∀ e ∈ (l.declarationsOf σ n).head?, l.exports σ e.2 = true

/-- The declarations of a name in a scope do not part: it is a scope of the whole program, or none
of them is exported, or else no body of its symbol exports an import of the name, and it is a file,
the first of them is exported, or no other site of the symbol makes the name a member. -/
def Merges (l : Loaded) (b : Bindings) (σ : Site) (n : String) : Prop :=
  l.isGlobal σ = true ∨ (∀ e ∈ l.declarationsOf σ n, l.exports σ e.2 = false) ∨
    ∀ o, b.DeclaredAt o σ → ¬ l.Reexports b o n ∧
      (σ.index? = none ∨ l.LeadsExported σ n ∨ ∀ τ, b.DeclaredAt o τ → l.Provides n τ → τ = σ)

/-- The first declaration of a name in a scope is bound before the others. -/
def InOrder (l : Loaded) (b : Bindings) (σ : Site) : Prop :=
  ∀ n, ∀ e ∈ l.declarationsOf σ n, ∀ t, b.DeclaredAt t (σ.inner e.1) →
    ∃ first u, (l.declarationsOf σ n).head? = some first ∧ b.DeclaredAt u (σ.inner first.1)

variable {l : Loaded} {b b' : Bindings} {σ τ : Site} {n : String} {e : DeclIndex × Declaration}

theorem mem_declarationsOf {i : DeclIndex} {d : Declaration} :
    (i, d) ∈ l.declarationsOf σ n ↔ i ∈ declaredIn (l.statements σ) ∧
      (l.source σ.fileIndex).declaration? i = some d ∧ d.localName? = some n := by
  unfold declarationsOf
  simp only [List.mem_filterMap, Option.map_eq_some_iff, Option.filter_eq_some_iff, beq_iff_eq,
    Prod.mk.injEq]
  constructor
  · rintro ⟨j, hj, e, ⟨he, hname⟩, rfl, rfl⟩
    exact ⟨hj, he, hname⟩
  · rintro ⟨hi, hd, hname⟩
    exact ⟨i, hi, d, ⟨hd, hname⟩, rfl, rfl⟩

theorem Reexports.mono {o : SymbolIndex} (h : l.Reexports b o n)
    (hb : ∀ s site, b.DeclaredAt s site → b'.DeclaredAt s site) : l.Reexports b' o n := by
  obtain ⟨σ, hσ, h⟩ := h
  exact ⟨σ, hb o σ hσ, h⟩

theorem Merges.anti (h : l.Merges b' σ n)
    (hb : ∀ s site, b.DeclaredAt s site → b'.DeclaredAt s site) : l.Merges b σ n := by
  refine h.imp_right (Or.imp_right fun h o ho => ?_)
  obtain ⟨hreexports, h⟩ := h o (hb o σ ho)
  exact ⟨fun hr => hreexports (hr.mono hb),
    h.imp_right (Or.imp_right fun h τ hτ => h τ (hb o τ hτ))⟩

/-- The scope of a declaration is where its parent is. -/
theorem parent_eq (hl : ∀ i, (l.source i).IsForest) {i : DeclIndex} {d : Declaration}
    (hi : i ∈ declaredIn (l.statements σ))
    (hd : (l.source σ.fileIndex).declaration? i = some d) : d.parent = σ.index? := by
  cases σ with
  | file f => exact ((hl f).root i d hd).mpr hi
  | declaration f j =>
    refine ((hl f).child i d hd j).mpr ?_
    change i ∈ declaredIn ((((l.source f).declaration? j).bind Declaration.body?).getD []) at hi
    cases he : (l.source f).declaration? j with
    | none =>
      rw [he] at hi
      cases hi
    | some e =>
      rw [he, Option.bind_some] at hi
      refine ⟨e, rfl, ?_⟩
      unfold Declaration.body? at hi
      unfold Declaration.children
      split at hi
      · next naming body hshape =>
        rw [hshape]
        cases body with
        | none => cases hi
        | some statements => exact hi
      · cases hi

theorem scope_eq (hl : ∀ i, (l.source i).IsForest) {i : DeclIndex} {d : Declaration}
    (hi : i ∈ declaredIn (l.statements σ)) (hi' : i ∈ declaredIn (l.statements τ))
    (hfile : σ.fileIndex = τ.fileIndex)
    (hd : (l.source σ.fileIndex).declaration? i = some d) : σ = τ := by
  have hparent := (parent_eq hl hi hd).symm.trans (parent_eq hl hi' (hfile ▸ hd))
  cases σ <;> cases τ <;> simp_all [Site.fileIndex, Site.index?]

/-! ### What is known of the tables -/

/-- What is known of the tables while a program is bound, as far as its declarations are bound. -/
structure Merged (l : Loaded) (b : Bindings) : Prop where
  own : ∀ {σ n i d t}, (i, d) ∈ l.declarationsOf σ n → b.DeclaredAt t (σ.inner i) → b.IsOwn t
  /-- A declaration comes after the module around it. -/
  opened : ∀ {σ n i d t}, (i, d) ∈ l.declarationsOf σ n → l.isGlobal σ = false →
    b.DeclaredAt t (σ.inner i) → ∃ o, b.DeclaredAt o σ
  named : ∀ {σ n i d t}, (i, d) ∈ l.declarationsOf σ n → l.Merges b σ n →
    b.DeclaredAt t (σ.inner i) → b.named (l.isGlobal σ) σ n = some t
  member : ∀ {σ n i d o t}, (i, d) ∈ l.declarationsOf σ n → l.exports σ d = true →
    l.isGlobal σ = false → b.DeclaredAt o σ → ¬ l.Reexports b o n →
      b.DeclaredAt t (σ.inner i) → b.member o n = some t
  /-- A name that is declared in a scope is bound to no import there. -/
  owned : ∀ {σ n i d t}, (i, d) ∈ l.declarationsOf σ n → b.DeclaredAt t (σ.inner i) →
    ∃ u, b.named (l.isGlobal σ) σ n = some u ∧ b.IsOwn u
  /-- What a scope of its own binds and is no import was declared in it. -/
  origin : ∀ {σ n t}, l.isGlobal σ = false → b.named false σ n = some t → b.IsOwn t →
    ∃ e ∈ l.declarationsOf σ n, b.DeclaredAt t (σ.inner e.1)
  source : ∀ {o n t}, b.member o n = some t → l.Reexports b o n ∨
    (∃ σ, b.DeclaredAt o σ ∧ ∃ e ∈ l.declarationsOf σ n, l.exports σ e.2 = true ∧
      b.DeclaredAt t (σ.inner e.1)) ∨
    b.IsOwn t ∧ ∃ σ, b.DeclaredAt o σ ∧ n ∈ l.enumNames σ
  /-- The module of a file is found under no name. -/
  apart : ∀ {s}, b.InTables s → ∀ f, ¬ b.DeclaredAt s (.file f)
  file : ∀ {o f σ}, b.DeclaredAt o (.file f) → b.DeclaredAt o σ → σ = .file f
  symbolOf : ∀ {t f i}, b.DeclaredAt t (.declaration f i) → b.symbolOf.get? (f, i) = some t
  /-- What a scope of its own binds and is an import was imported in it. -/
  imported : ∀ {σ n t}, l.isGlobal σ = false → b.named false σ n = some t →
    (b.symbol t).isAlias = true → n ∈ l.importNames σ
  silent : ∀ σ ∈ b.exportingAll, l.exportsAll σ = true

open Bindings (Changes Sound)

variable {s : SymbolIndex} {bound : Bool → Site → String → Prop}
  {joins : SymbolIndex → String → Prop} {sites : Site → Prop}
  {known : FileIndex → DeclIndex → Prop}

/-- A step keeps what is known if the names it binds come from no other declared symbol, and so the
members it adds, and if its sites are new. -/
theorem Merged.change (h : l.Merged b) (hb : b.Sound known none)
    (hc : Changes s bound joins sites b b')
    (hbound : ∀ σ n t, bound (l.isGlobal σ) σ n → l.Merges b' σ n →
      b.named (l.isGlobal σ) σ n = some t → b.IsOwn t → t = s)
    (howned : ∀ σ n t, bound (l.isGlobal σ) σ n → b.named (l.isGlobal σ) σ n = some t →
      b.IsOwn t → b'.IsOwn s)
    (horigin : ∀ σ n, l.isGlobal σ = false → bound false σ n → b'.IsOwn s →
      ∃ e ∈ l.declarationsOf σ n, sites (σ.inner e.1))
    (himported : ∀ σ n, l.isGlobal σ = false → bound false σ n → (b'.symbol s).isAlias = true →
      n ∈ l.importNames σ)
    (hjoins : ∀ o n t, joins o n → ¬ l.Reexports b' o n → b.member o n = some t →
      b.IsOwn t → t = s)
    (hsource : ∀ o n, joins o n → l.Reexports b' o n ∨
      (∃ σ, b'.DeclaredAt o σ ∧ ∃ e ∈ l.declarationsOf σ n, l.exports σ e.2 = true ∧
        b'.DeclaredAt s (σ.inner e.1)) ∨
      b'.IsOwn s ∧ ∃ σ, b'.DeclaredAt o σ ∧ n ∈ l.enumNames σ)
    (hsites : ∀ site, sites site → (∀ f, site ≠ .file f) ∧ ∀ t, ¬ b.DeclaredAt t site)
    (hlisted : ∀ σ n e, e ∈ l.declarationsOf σ n → sites (σ.inner e.1) →
      b'.IsOwn s ∧ bound (l.isGlobal σ) σ n ∧ (l.isGlobal σ = false →
        (∃ o, b.DeclaredAt o σ) ∧
          ∀ o, b.DeclaredAt o σ → l.exports σ e.2 = true → joins o n))
    (htable : b.InTables s ∨ s = b.symbols.size) : l.Merged b' := by
  have hmono (t : SymbolIndex) (site : Site) (ht : b.DeclaredAt t site) : b'.DeclaredAt t site :=
    (hc.declaredAt t site).mpr (Or.inl ht)
  have hfiles (f : FileIndex) : ¬ b.DeclaredAt s (.file f) := by
    rcases htable with hs | rfl
    · exact h.apart hs f
    · unfold Bindings.DeclaredAt
      rw [Bindings.symbol_of_size_le (Nat.le_refl _)]
      exact List.not_mem_nil
  have hfile {t : SymbolIndex} {f : FileIndex} (ht : b'.DeclaredAt t (.file f)) :
      b.DeclaredAt t (.file f) := by
    rcases (hc.declaredAt t _).mp ht with ht | ⟨-, hsite⟩
    · exact ht
    · exact absurd rfl ((hsites _ hsite).1 f)
  constructor
  case own =>
    intro σ n i d t hmem ht
    rcases (hc.declaredAt t _).mp ht with ht | ⟨rfl, hsite⟩
    · exact (h.own hmem ht).keep hc.keeps
    · exact (hlisted σ n _ hmem hsite).1
  case opened =>
    intro σ n i d t hmem hglobal ht
    rcases (hc.declaredAt t _).mp ht with ht | ⟨rfl, hsite⟩
    · obtain ⟨o, ho⟩ := h.opened hmem hglobal ht
      exact ⟨o, hmono o σ ho⟩
    · obtain ⟨o, ho⟩ := ((hlisted σ n _ hmem hsite).2.2 hglobal).1
      exact ⟨o, hmono o σ ho⟩
  case named =>
    intro σ n i d t hmem hmerges ht
    rcases (hc.declaredAt t _).mp ht with ht | ⟨rfl, hsite⟩
    · have hname := h.named hmem (hmerges.anti hmono) ht
      by_cases hin : bound (l.isGlobal σ) σ n
      · rw [hc.named_of _ _ _ hin, hbound σ n t hin hmerges hname (h.own hmem ht)]
      · rw [hc.named_else _ _ _ hin, hname]
    · exact hc.named_of _ _ _ (hlisted σ n _ hmem hsite).2.1
  case owned =>
    intro σ n i d t hmem ht
    rcases (hc.declaredAt t _).mp ht with ht | ⟨rfl, hsite⟩
    · obtain ⟨u, hname, hown⟩ := h.owned hmem ht
      by_cases hin : bound (l.isGlobal σ) σ n
      · exact ⟨s, hc.named_of _ _ _ hin, howned σ n u hin hname hown⟩
      · exact ⟨u, by rw [hc.named_else _ _ _ hin, hname], hown.keep hc.keeps⟩
    · obtain ⟨hown, hin, -⟩ := hlisted σ n _ hmem hsite
      exact ⟨_, hc.named_of _ _ _ hin, hown⟩
  case member =>
    intro σ n i d o t hmem hexports hglobal ho hreexports ht
    have hopened : ∃ o, b.DeclaredAt o σ := by
      rcases (hc.declaredAt t _).mp ht with ht | ⟨-, hsite⟩
      · exact h.opened hmem hglobal ht
      · exact ((hlisted σ n _ hmem hsite).2.2 hglobal).1
    -- the scope is not one that the step declares
    have ho : b.DeclaredAt o σ := by
      rcases (hc.declaredAt o σ).mp ho with ho | ⟨-, hsite⟩
      · exact ho
      · obtain ⟨o', ho'⟩ := hopened
        exact absurd ho' ((hsites σ hsite).2 o')
    rcases (hc.declaredAt t _).mp ht with ht | ⟨rfl, hsite⟩
    · have hold := h.member hmem hexports hglobal ho
        (fun hr => hreexports (hr.mono hmono)) ht
      by_cases hin : joins o n
      · rw [hc.member_of o n hin, hjoins o n t hin hreexports hold (h.own hmem ht)]
      · rw [hc.member_else o n hin, hold]
    · exact hc.member_of o n (((hlisted σ n _ hmem hsite).2.2 hglobal).2 o ho hexports)
  case origin =>
    intro σ n t hglobal ht hown
    by_cases hin : bound false σ n
    · rw [hc.named_of _ _ _ hin] at ht
      obtain rfl := Option.some.inj ht
      obtain ⟨e, he, hsite⟩ := horigin σ n hglobal hin hown
      exact ⟨e, he, (hc.declaredAt _ _).mpr (Or.inr ⟨rfl, hsite⟩)⟩
    · rw [hc.named_else _ _ _ hin] at ht
      have hlt : t < b.symbols.size := hb.lt_of_inTables (Or.inl ⟨false, σ, n, ht⟩)
      have hown' : b.IsOwn t := ⟨hlt, (hc.keeps.isAlias t hlt).symm.trans hown.2⟩
      obtain ⟨e, he, hsite⟩ := h.origin hglobal ht hown'
      exact ⟨e, he, hmono t _ hsite⟩
  case source =>
    intro o n t ht
    by_cases hin : joins o n
    · rw [hc.member_of o n hin] at ht
      obtain rfl := Option.some.inj ht
      exact hsource o n hin
    · rw [hc.member_else o n hin] at ht
      rcases h.source ht with hr | ⟨σ, hσ, e, he, hexports, hsite⟩ | ⟨hown, σ, hσ, hname⟩
      · exact Or.inl (hr.mono hmono)
      · exact Or.inr (Or.inl ⟨σ, hmono o σ hσ, e, he, hexports, hmono t _ hsite⟩)
      · exact Or.inr (Or.inr ⟨hown.keep hc.keeps, σ, hmono o σ hσ, hname⟩)
  case apart =>
    intro t ht f hf
    have hf := hfile hf
    have hold : b.InTables t ∨ t = s := by
      rcases ht with ⟨g, scope, name, ht⟩ | ⟨o, name, ht⟩ | ⟨name, ht⟩
      · by_cases hin : bound g scope name
        · rw [hc.named_of _ _ _ hin] at ht
          exact Or.inr (Option.some.inj ht).symm
        · rw [hc.named_else _ _ _ hin] at ht
          exact Or.inl (Or.inl ⟨g, scope, name, ht⟩)
      · by_cases hin : joins o name
        · rw [hc.member_of _ _ hin] at ht
          exact Or.inr (Option.some.inj ht).symm
        · rw [hc.member_else _ _ hin] at ht
          exact Or.inl (Or.inr (Or.inl ⟨o, name, ht⟩))
      · exact (hc.ambient name t ht).imp_left fun ht => Or.inr (Or.inr ⟨name, ht⟩)
    rcases hold with hold | rfl
    · exact h.apart hold f hf
    · exact hfiles f hf
  case file =>
    intro o f σ ho hσ
    have ho := hfile ho
    rcases (hc.declaredAt o σ).mp hσ with hσ | ⟨rfl, -⟩
    · exact h.file ho hσ
    · exact absurd ho (hfiles f)
  case symbolOf =>
    intro t f i ht
    rcases (hc.declaredAt t _).mp ht with ht | ⟨rfl, hsite⟩
    · rw [hc.symbolOf_else f i fun hsite => (hsites _ hsite).2 t ht]
      exact h.symbolOf ht
    · exact hc.symbolOf_of f i hsite
  case imported =>
    intro σ n t hglobal ht halias
    by_cases hin : bound false σ n
    · rw [hc.named_of _ _ _ hin] at ht
      obtain rfl := Option.some.inj ht
      exact himported σ n hglobal hin halias
    · rw [hc.named_else _ _ _ hin] at ht
      have hlt : t < b.symbols.size := hb.lt_of_inTables (Or.inl ⟨false, σ, n, ht⟩)
      exact h.imported hglobal ht ((hc.keeps.isAlias t hlt).symm.trans halias)
  case silent => exact fun σ hσ => h.silent σ (hc.silent ▸ hσ)

/-! ### Declarations -/

/-- A container is that of a scope: its statements are bound there, and its owner is the module that
the scope belongs to. -/
structure Opens (l : Loaded) (b : Bindings) (c : Container) : Prop where
  isGlobal : c.isGlobal = l.isGlobal c.scope
  exportsAll : c.exportsAll = l.exportsAll c.scope
  isAmbient : c.isAmbient = l.isAmbient c.scope
  owner : c.isGlobal = false → ∃ o, c.owner = some o ∧ b.DeclaredAt o c.scope
  ownerless : c.isGlobal = true → c.owner = none

theorem Opens.mono {c : Container} (h : l.Opens b c)
    (hb : ∀ s site, b.DeclaredAt s site → b'.DeclaredAt s site) : l.Opens b' c :=
  { h with
    owner := fun hc => by
      obtain ⟨o, ho, hsite⟩ := h.owner hc
      exact ⟨o, ho, hb o _ hsite⟩ }

theorem Opens.declaredAt_owner {c : Container} (h : l.Opens b c) {o : SymbolIndex}
    (ho : c.owner = some o) : b.DeclaredAt o c.scope := by
  cases hglobal : c.isGlobal with
  | true =>
    rw [h.ownerless hglobal] at ho
    cases ho
  | false =>
    obtain ⟨o', ho', hsite⟩ := h.owner hglobal
    exact Option.some.inj (ho'.symm.trans ho) ▸ hsite

/-- A declaration joins the module that it stands in if it is exported by its name. -/
theorem Opens.of_ownerOf {c : Container} (h : l.Opens b c) {d : Declaration} {o : SymbolIndex}
    (ho : Bind.ownerOf c d (d.isExported || c.exportsAll) = some o) :
    b.DeclaredAt o c.scope ∧ c.isGlobal = false ∧ l.exports c.scope d = true ∧
      Bind.isLocal d = true := by
  unfold Bind.ownerOf at ho
  split at ho
  · next hcond =>
    simp only [Bool.and_eq_true, Bool.not_eq_true', h.exportsAll] at hcond
    refine ⟨h.declaredAt_owner ho, hcond.1.2, ?_, ?_⟩
    · simp [exports, hcond.1.1, hcond.2]
    · simp [Bind.isLocal, hcond.2]
  · cases ho

theorem lt_of_declaredAt {site : Site} (h : b.DeclaredAt s site) : s < b.symbols.size := by
  by_contra hle
  unfold Bindings.DeclaredAt at h
  rw [Bindings.symbol_of_size_le (Nat.le_of_not_lt hle)] at h
  cases h

open ApiSurface.Bind (Gives)

theorem statements_of_enum (h : n ∈ l.enumNames σ) : l.statements σ = [] := by
  cases σ with
  | file f => cases h
  | declaration f j =>
    change n ∈ (match ((l.source f).declaration? j).map Declaration.shape with
      | some (.enum members) => members.map fun m => ((l.source f).enumMember m).1
      | _ => []) at h
    split at h
    · next members hshape =>
      obtain ⟨d, hd, hshape⟩ := Option.map_eq_some_iff.mp hshape
      show (((l.source f).declaration? j).bind Declaration.body?).getD [] = []
      rw [hd, Option.bind_some, Declaration.body?, hshape]
      rfl
    · cases h

/-- What an exported declaration finds among the members of its module is what its name is bound to
in its scope, where the declarations of the name do not part. -/
theorem Merged.member_eq (h : l.Merged b) {o t u : SymbolIndex} (hglobal : l.isGlobal σ = false)
    (hmerges : l.Merges b σ n) (he : e ∈ l.declarationsOf σ n) (hexports : l.exports σ e.2 = true)
    (ho : b.DeclaredAt o σ) (hmember : b.member o n = some u) (hname : b.named false σ n = some t)
    (hown : b.IsOwn t) (horder : l.InOrder b σ) : u = t := by
  have hnamed {i : DeclIndex} {d : Declaration} {v : SymbolIndex}
      (hmem : (i, d) ∈ l.declarationsOf σ n) (hv : b.DeclaredAt v (σ.inner i)) : v = t := by
    have hv := h.named hmem hmerges hv
    rw [hglobal, hname] at hv
    exact (Option.some.inj hv).symm
  rcases hmerges with hg | hnone | hmerges
  · rw [hglobal] at hg
    cases hg
  · rw [hnone e he] at hexports
    cases hexports
  obtain ⟨hreexports, hcase⟩ := hmerges o ho
  have hcase : l.LeadsExported σ n ∨ ∀ τ, b.DeclaredAt o τ → l.Provides n τ → τ = σ := by
    rcases hcase with hfile | hcase
    · -- the module of a file has no other site
      cases σ with
      | file f => exact Or.inr fun τ hτ _ => h.file ho hτ
      | declaration f i => cases hfile
    · exact hcase
  rcases hcase with hexported | honly
  · obtain ⟨e', hmem, hsite⟩ := h.origin hglobal hname hown
    obtain ⟨first, v, hfirst, hv⟩ := horder n e' hmem t hsite
    have hmem : first ∈ l.declarationsOf σ n := List.mem_of_mem_head? hfirst
    have hu := h.member hmem (hexported first hfirst) hglobal ho hreexports hv
    rw [hmember] at hu
    exact (Option.some.inj hu).trans (hnamed hmem hv)
  · rcases h.source hmember with hr | ⟨τ, hτ, e', he', hexports', hsite⟩ | ⟨-, τ, hτ, henum⟩
    · exact absurd hr hreexports
    · obtain rfl := honly τ hτ (Or.inl ⟨e', he', hexports'⟩)
      exact hnamed he' hsite
    · -- an enum has no statements
      obtain rfl := honly τ hτ (Or.inr henum)
      have hi := (mem_declarationsOf.mp he).1
      rw [statements_of_enum henum] at hi
      cases hi

theorem declareSymbol_merged (hl : ∀ i, (l.source i).IsForest) (h : l.Merged b)
    (hb : b.Sound known none)
    (hone : ∀ s t site, b.DeclaredAt s site → b.DeclaredAt t site → s = t) {c : Container}
    (hc : l.Opens b c) {i : DeclIndex} {d : Declaration}
    (hi : i ∈ declaredIn (l.statements c.scope))
    (hd : (l.source c.scope.fileIndex).declaration? i = some d)
    (hname : d.localName? = if Bind.isLocal d then some d.name.text else none)
    (hnew : ∀ t, ¬ b.DeclaredAt t (c.scope.inner i))
    (horder : l.InOrder b c.scope) (kind : SymbolKind) :
    Gives (Bind.declareSymbol c c.scope.fileIndex i d kind (d.isExported || c.exportsAll)) b
      fun s b' => l.Merged b' ∧ b'.DeclaredAt s (c.scope.inner i) := by
  let exported := d.isExported || c.exportsAll
  have hsymbol := Bind.declareSymbol_changes hb (c := c)
    (fun _ ho => lt_of_declaredAt (hc.declaredAt_owner ho)) c.scope.fileIndex i d kind exported
  refine hsymbol.mono ?_
  rintro s b' ⟨hchanges, hown, hfound⟩
  have hmono (t : SymbolIndex) (site : Site) (ht : b.DeclaredAt t site) : b'.DeclaredAt t site :=
    (hchanges.declaredAt t site).mpr (Or.inl ht)
  have hsite : b'.DeclaredAt s (c.scope.inner i) :=
    (hchanges.declaredAt s _).mpr (Or.inr ⟨rfl, rfl⟩)
  have hsame {t : SymbolIndex} (ht : Bind.earlier b c d exported = some t) (hown : b.IsOwn t) :
      t = s := by
    rcases hfound with ⟨hs, -⟩ | ⟨-, halias⟩
    · exact Option.some.inj (ht.symm.trans hs)
    · exact absurd (hown.2.symm.trans (halias t ht)) Bool.false_ne_true
  have hmem (hlocal : Bind.isLocal d = true) : (i, d) ∈ l.declarationsOf c.scope d.name.text :=
    mem_declarationsOf.mpr ⟨hi, hd, by rw [hname, if_pos hlocal]⟩
  refine ⟨h.change hb hchanges ?_ (fun _ _ _ _ _ _ => hown) ?_
    (fun _ _ _ _ halias => absurd (hown.2.symm.trans halias) Bool.false_ne_true) ?_ ?_ ?_ ?_ ?_,
    hsite⟩
  · rintro σ n t ⟨hlocal, hglobal, hscope, rfl⟩ hmerges ht hown
    have ht : b.named c.isGlobal c.scope d.name.text = some t := by
      rcases hscope with hg | rfl
      · rw [hg] at ht
        rw [← hglobal, hg]
        exact ht
      · rwa [← hglobal]
    refine hsame ?_ hown
    unfold Bind.earlier
    rw [if_pos hlocal, ht]
    cases ho : Bind.ownerOf c d exported with
    | none => rfl
    | some o =>
      obtain ⟨ho, hg, hexports, -⟩ := hc.of_ownerOf ho
      rw [Option.bind_some]
      cases hm : b.member o d.name.text with
      | none => rfl
      | some u =>
        obtain rfl : σ = c.scope := hscope.resolve_left (by rw [hglobal, hg]; decide)
        have hlocal_scope : l.isGlobal c.scope = false := hc.isGlobal.symm.trans hg
        rw [hlocal_scope] at ht
        have hu := h.member_eq hlocal_scope (hmerges.anti hmono) (hmem hlocal) hexports
          ho hm ht hown horder
        rw [hu]
        rfl
  · rintro σ n - ⟨hlocal, -, hscope, rfl⟩ -
    obtain rfl := hscope.resolve_left Bool.false_ne_true
    exact ⟨(i, d), hmem hlocal, rfl⟩
  · rintro o n t ⟨ho, rfl⟩ - hm hown
    refine hsame ?_ hown
    unfold Bind.earlier
    rw [ho, Option.bind_some, hm]
    rfl
  · rintro o n ⟨ho, rfl⟩
    obtain ⟨ho, -, hexports, hlocal⟩ := hc.of_ownerOf ho
    exact Or.inr (Or.inl ⟨c.scope, hmono o _ ho, (i, d), hmem hlocal, hexports, hsite⟩)
  · rintro site rfl
    exact ⟨fun f => Site.noConfusion, hnew⟩
  · rintro σ n ⟨j, d'⟩ he hsite'
    obtain ⟨hfile, rfl⟩ := Site.declaration.inj hsite'
    obtain ⟨hj, hd', hn⟩ := mem_declarationsOf.mp he
    obtain rfl := scope_eq hl hj hi hfile hd'
    obtain rfl := Option.some.inj (hd.symm.trans hd')
    have hlocal : Bind.isLocal d = true := by
      by_contra hlocal
      rw [hname, if_neg hlocal] at hn
      cases hn
    rw [hname, if_pos hlocal] at hn
    obtain rfl := Option.some.inj hn
    refine ⟨hown, ⟨hlocal, hc.isGlobal.symm, Or.inr rfl, rfl⟩, fun hglobal => ?_⟩
    obtain ⟨o, ho, hosite⟩ := hc.owner (hc.isGlobal.trans hglobal)
    refine ⟨⟨o, hosite⟩, fun o' ho' hexports => ⟨?_, rfl⟩⟩
    obtain rfl := hone o o' _ hosite ho'
    simp only [exports, Bool.and_eq_true, Bool.not_eq_true', ← hc.exportsAll] at hexports
    unfold Bind.ownerOf
    rw [if_pos, ho]
    simp [exported, hexports.1, hexports.2, hc.isGlobal.trans hglobal]
  · exact hfound.imp (fun hs => Bind.inTables_of_earlier hs.1) And.left

end Loaded

end ApiSurface
