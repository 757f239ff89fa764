import ApiSurface.Proofs.EnumMembers
import ApiSurface.Proofs.SameNames
/-!
What the declarations of a symbol say of it: their name is its name, and their kinds are its kinds.
Binding keeps both as it goes through the statements, and declares each site that it comes to. Only
a member of an enum may come to a symbol of another kind, which a body merged with the enum exports.
-/
namespace ApiSurface

/-- The kind of symbol that a declaration makes. -/
def Declaration.madeKind (d : Declaration) : SymbolKind :=
  if d.naming? = some .string then .ambientModule else d.shape.symbolKind

theorem Bind.Gives.and {α : Type} {x : Bind α} {b : Bindings} {P Q : α → Bindings → Prop}
    (hx : Gives x b P) (hx' : Gives x b Q) : Gives x b fun a b' => P a b' ∧ Q a b' := ⟨hx, hx'⟩

namespace Loaded

/-- The name that what stands at a site gives its symbol. -/
def nameAt? (l : Loaded) : Site → Option String
  | .file i => some (Bind.moduleName (l.source i).name)
  | .declaration i j => ((l.source i).declaration? j).map (·.name.text)

/-- The kind that what stands at a site makes its symbol. -/
def kindAt? (l : Loaded) : Site → Option SymbolKind
  | .file _ => some .sourceFile
  | .declaration i j => ((l.source i).declaration? j).map Declaration.madeKind

/-- The sites of the members of an enum. -/
def membersAt (l : Loaded) : Site → List Site
  | .file _ => []
  | .declaration i j =>
    match ((l.source i).declaration? j).map Declaration.shape with
    | some (.enum members) => members.map (.declaration i)
    | _ => []

/-- A body of a symbol exports a name, by a declaration or by an import. -/
def ExportsName (l : Loaded) (b : Bindings) (o : SymbolIndex) (n : String) : Prop :=
  l.Reexports b o n ∨
    ∃ σ, b.DeclaredAt o σ ∧ ∃ e ∈ l.declarationsOf σ n, l.exports σ e.2 = true

/-- At the site is a member of an enum, and a body merged with the enum exports its name. -/
def MeetsExport (l : Loaded) (b : Bindings) (site : Site) : Prop :=
  ∃ o σ n, b.DeclaredAt o σ ∧ site ∈ l.membersAt σ ∧ l.nameAt? site = some n ∧
    l.ExportsName b o n

/-- What is known of files that were parsed. -/
structure Parsed (l : Loaded) : Prop where
  forest : ∀ i, (l.source i).IsForest
  stands : ∀ {σ i}, i ∈ declaredIn (l.statements σ) →
    ∃ d, (l.source σ.fileIndex).declaration? i = some d ∧ ¬ d.IsMember
  members : ∀ {f i d members m}, (l.source f).declaration? i = some d → d.shape = .enum members →
    m ∈ members → ∃ e, (l.source f).declaration? m = some e ∧ e.IsMember

/-- What is known of symbols while a program is bound. -/
structure Labelled (l : Loaded) (b : Bindings) : Prop where
  named : ∀ {g σ n t}, b.named g σ n = some t → (b.symbol t).name = n
  member : ∀ {o n t}, b.member o n = some t → (b.symbol t).name = n ∧
    ((b.symbol t).isA .enumMember = true ∨ l.ExportsName b o n)
  ambient : ∀ {n t}, b.ambient.get? n = some t → (b.symbol t).name = n ∧
    (b.symbol t).isA .ambientModule = true
  symbolOf : ∀ {f i t}, b.symbolOf.get? (f, i) = some t → b.DeclaredAt t (.declaration f i)
  nodup : ∀ t, (b.symbol t).declarations.Nodup
  nameAt : ∀ {t site}, b.DeclaredAt t site → l.nameAt? site = some (b.symbol t).name
  imported : ∀ {t k}, (b.symbol t).isAlias = true → (b.symbol t).isA k = true → k = .importAlias
  kindOf : ∀ {t k}, (b.symbol t).isAlias = false → (b.symbol t).isA k = true →
    ∃ site, b.DeclaredAt t site ∧ l.kindAt? site = some k
  isA : ∀ {t site k}, b.DeclaredAt t site → l.kindAt? site = some k →
    (b.symbol t).isA k = true ∨ k = .enumMember ∧ l.MeetsExport b site

open Bindings (Changes Relabels Sound Grows)
open ApiSurface.Bind (Gives Binds After)

variable {l : Loaded} {b b' : Bindings} {σ : Site} {n : String} {s : SymbolIndex}

theorem ExportsName.mono {o : SymbolIndex} (h : l.ExportsName b o n)
    (hb : ∀ s site, b.DeclaredAt s site → b'.DeclaredAt s site) : l.ExportsName b' o n :=
  h.imp (·.mono hb) fun ⟨σ, hσ, h⟩ => ⟨σ, hb o σ hσ, h⟩

theorem MeetsExport.mono {site : Site} (h : l.MeetsExport b site)
    (hb : ∀ s site, b.DeclaredAt s site → b'.DeclaredAt s site) : l.MeetsExport b' site := by
  obtain ⟨o, σ, n, ho, hmember, hname, hexports⟩ := h
  exact ⟨o, σ, n, hb o σ ho, hmember, hname, hexports.mono hb⟩

/-! ### Steps -/

variable {bound : Bool → Site → String → Prop} {joins : SymbolIndex → String → Prop}
  {sites : Site → Prop} {kinds : SymbolKind → Prop} {known : FileIndex → DeclIndex → Prop}

/-- A step keeps what is known of symbols if its symbol is found under its own name only, and is of
the kinds of its new sites. -/
theorem Labelled.change (h : l.Labelled b) (hb : b.Sound known none)
    (hc : Changes s bound joins sites b b') (hr : Relabels s kinds b b')
    (hname : (b'.symbol s).name = n) (hbound : ∀ g σ m, bound g σ m → m = n)
    (hjoins : ∀ o m, joins o m →
      m = n ∧ ((b'.symbol s).isA .enumMember = true ∨ l.ExportsName b' o m))
    (hnameAt : ∀ site, sites site → l.nameAt? site = some n)
    (halias : (b'.symbol s).isAlias = true → ∀ k, kinds k → k = .importAlias)
    (hkinds : (b'.symbol s).isAlias = false → ∀ k, kinds k →
      ∃ site, sites site ∧ l.kindAt? site = some k)
    (hsites : ∀ site k, sites site → l.kindAt? site = some k →
      (b'.symbol s).isA k = true ∨ k = .enumMember ∧ l.MeetsExport b' site) :
    l.Labelled b' := by
  have hmono (t : SymbolIndex) (site : Site) (ht : b.DeclaredAt t site) : b'.DeclaredAt t site :=
    (hc.declaredAt t site).mpr (Or.inl ht)
  have hisA {t : SymbolIndex} {k : SymbolKind} (ht : (b.symbol t).isA k = true) :
      (b'.symbol t).isA k = true := (hr.isA t k).mpr (Or.inl ht)
  have hlt {t : SymbolIndex} {k : SymbolKind} (ht : (b.symbol t).isA k = true) :
      t < b.symbols.size := by
    by_contra hle
    rw [Bindings.symbol_of_size_le (Nat.le_of_not_lt hle)] at ht
    cases ht
  have hkept {t : SymbolIndex} (ht : b.InTables t) : (b'.symbol t).name = (b.symbol t).name :=
    hr.name t (hb.lt_of_inTables ht)
  constructor
  case named =>
    intro g σ m t ht
    by_cases hin : bound g σ m
    · rw [hc.named_of g σ m hin] at ht
      rw [← Option.some.inj ht, hname, hbound g σ m hin]
    · rw [hc.named_else g σ m hin] at ht
      rw [hkept (Or.inl ⟨g, σ, m, ht⟩), h.named ht]
  case member =>
    intro o m t ht
    by_cases hin : joins o m
    · rw [hc.member_of o m hin] at ht
      obtain ⟨rfl, hexports⟩ := hjoins o m hin
      rw [← Option.some.inj ht]
      exact ⟨hname, hexports⟩
    · rw [hc.member_else o m hin] at ht
      obtain ⟨hm, hexports⟩ := h.member ht
      rw [hkept (Or.inr (Or.inl ⟨o, m, ht⟩))]
      exact ⟨hm, hexports.imp hisA (·.mono hmono)⟩
  case ambient =>
    intro m t ht
    rw [hr.ambient] at ht
    obtain ⟨hm, hk⟩ := h.ambient ht
    rw [hkept (Or.inr (Or.inr ⟨m, ht⟩))]
    exact ⟨hm, hisA hk⟩
  case symbolOf =>
    intro f i t ht
    by_cases hin : sites (.declaration f i)
    · rw [hc.symbolOf_of f i hin] at ht
      exact (hc.declaredAt t _).mpr (Or.inr ⟨(Option.some.inj ht).symm, hin⟩)
    · rw [hc.symbolOf_else f i hin] at ht
      exact hmono t _ (h.symbolOf ht)
  case nodup => exact fun t => hr.nodup t (h.nodup t)
  case nameAt =>
    intro t site ht
    rcases (hc.declaredAt t site).mp ht with ht | ⟨rfl, hsite⟩
    · rw [hr.name t (lt_of_declaredAt ht), h.nameAt ht]
    · rw [hnameAt site hsite, hname]
  case imported =>
    intro t k halias' hk
    rcases (hr.isA t k).mp hk with hk | ⟨rfl, hnew⟩
    · exact h.imported ((hc.keeps.isAlias t (hlt hk)).symm.trans halias') hk
    · exact halias halias' k hnew
  case kindOf =>
    intro t k hown hk
    rcases (hr.isA t k).mp hk with hk | ⟨rfl, hnew⟩
    · obtain ⟨site, hsite, hkind⟩ := h.kindOf ((hc.keeps.isAlias t (hlt hk)).symm.trans hown) hk
      exact ⟨site, hmono t site hsite, hkind⟩
    · obtain ⟨site, hsite, hkind⟩ := hkinds hown k hnew
      exact ⟨site, (hc.declaredAt t site).mpr (Or.inr ⟨rfl, hsite⟩), hkind⟩
  case isA =>
    intro t site k ht hk
    rcases (hc.declaredAt t site).mp ht with ht | ⟨rfl, hsite⟩
    · exact (h.isA ht hk).imp hisA (And.imp_right (·.mono hmono))
    · exact hsites site k hsite hk

/-- A module that is called so already may be found by its name in quotes. -/
theorem Labelled.quote (h : l.Labelled b) {name : String} (hname : (b.symbol s).name = name)
    (hkind : (b.symbol s).isA .ambientModule = true) :
    l.Labelled { b with ambient := b.ambient.insert name s } := by
  refine { h with ambient := fun {m t} ht => ?_ }
  rw [Table.get?_insert] at ht
  split at ht
  · next heq =>
    rw [eq_of_beq heq]
    exact Option.some.inj ht ▸ ⟨hname, hkind⟩
  · exact h.ambient ht

theorem Labelled.name_of_earlier (h : l.Labelled b) {c : Container} {d : Declaration}
    {exported : Bool} (hs : Bind.earlier b c d exported = some s) :
    (b.symbol s).name = d.name.text := by
  rcases (Option.orElse_eq_some ..).mp hs with hs | ⟨-, hs⟩
  · obtain ⟨o, -, hs⟩ := Option.bind_eq_some_iff.mp hs
    exact (h.member hs).1
  · split at hs
    · exact h.named hs
    · cases hs

variable {c : Container} {i : DeclIndex} {d : Declaration}

theorem nameAt_inner (hd : (l.source σ.fileIndex).declaration? i = some d) :
    l.nameAt? (σ.inner i) = some d.name.text := by
  rw [Site.inner, nameAt?, hd, Option.map_some]

theorem kindAt_inner (hd : (l.source σ.fileIndex).declaration? i = some d) :
    l.kindAt? (σ.inner i) = some d.madeKind := by
  rw [Site.inner, kindAt?, hd, Option.map_some]

theorem declareSymbol_labelled (h : l.Labelled b) (hb : b.Sound known none) (hc : l.Opens b c)
    (hi : i ∈ declaredIn (l.statements c.scope))
    (hd : (l.source c.scope.fileIndex).declaration? i = some d)
    (hname : d.localName? = if Bind.isLocal d then some d.name.text else none)
    {kind : SymbolKind} (hkind : d.madeKind = kind) :
    Gives (Bind.declareSymbol c c.scope.fileIndex i d kind (d.isExported || c.exportsAll)) b
      fun s b' => l.Labelled b' ∧ b'.DeclaredAt s (c.scope.inner i) := by
  let exported := d.isExported || c.exportsAll
  have hchanges := Bind.declareSymbol_changes hb (c := c)
    (fun _ ho => lt_of_declaredAt (hc.declaredAt_owner ho)) c.scope.fileIndex i d kind exported
  refine (hchanges.and (Bind.declareSymbol_relabels hb c _ i d kind exported)).mono ?_
  rintro s b' ⟨⟨hchanges, hown, hfound⟩, hlabel, hnew⟩
  have hsname : (b'.symbol s).name = d.name.text := by
    rcases hfound with ⟨hs, hold⟩ | ⟨hs, -⟩
    · rw [hlabel.name s hold.1, h.name_of_earlier hs]
    · exact hnew hs
  have hmono (t : SymbolIndex) (site : Site) (ht : b.DeclaredAt t site) : b'.DeclaredAt t site :=
    (hchanges.declaredAt t site).mpr (Or.inl ht)
  have hsite : b'.DeclaredAt s (c.scope.inner i) :=
    (hchanges.declaredAt s _).mpr (Or.inr ⟨rfl, rfl⟩)
  refine ⟨h.change hb hchanges hlabel hsname ?_ ?_ ?_ ?_ ?_ ?_, hsite⟩
  · rintro g σ m ⟨-, -, -, rfl⟩
    rfl
  · rintro o m ⟨ho, rfl⟩
    obtain ⟨ho, -, hexports, hlocal⟩ := hc.of_ownerOf ho
    have hmem : (i, d) ∈ l.declarationsOf c.scope d.name.text :=
      mem_declarationsOf.mpr ⟨hi, hd, by rw [hname, if_pos hlocal]⟩
    exact ⟨rfl, Or.inr (Or.inr ⟨c.scope, hmono o _ ho, (i, d), hmem, hexports⟩)⟩
  · rintro site rfl
    exact nameAt_inner hd
  · exact fun halias => absurd (hown.2.symm.trans halias) Bool.false_ne_true
  · rintro - k rfl
    exact ⟨c.scope.inner i, rfl, hkind ▸ kindAt_inner hd⟩
  · rintro site k rfl hk
    refine Or.inl ((hlabel.isA s k).mpr (Or.inr ⟨rfl, ?_⟩))
    exact (Option.some.inj ((kindAt_inner hd).symm.trans hk)).symm.trans hkind

theorem declareAlias_labelled (h : l.Labelled b) (hb : b.Sound known none) (c : Container)
    (name : String) (target : AliasTarget) :
    Gives (Bind.declareAlias c name target) b fun s b' =>
      l.Labelled b' ∧ b'.InTables s ∧ (b'.symbol s).name = name := by
  refine ((Bind.declareAlias_changes c name target).and
    (Bind.declareAlias_relabels c name target)).mono ?_
  rintro s b' ⟨⟨bound, hchanges, hbound, halias, hnamed, -⟩, hlabel⟩
  rcases hlabel with rfl | ⟨-, hlabel, hname, hnew⟩
  · exact ⟨h, Or.inl ⟨_, _, _, hnamed⟩, h.named hnamed⟩
  · refine ⟨h.change hb hchanges hlabel hname (fun g σ m hm => (hbound g σ m hm).1)
      (fun _ _ => False.elim) (fun _ => False.elim) (fun _ _ => id) (fun hown => ?_)
      (fun _ _ => False.elim), Or.inl ⟨_, _, _, hnamed⟩, hname⟩
    exact absurd (hnew.symm.trans hown) Bool.true_eq_false.mp

/-- An import that a body exports becomes a member. -/
theorem addMember_labelled (h : l.Labelled b) (hb : b.Sound known none) {o : SymbolIndex}
    {name : String} (ho : o < b.symbols.size) (hs : b.InTables s)
    (hname : (b.symbol s).name = name) (hreexports : l.Reexports b o name) :
    l.Labelled (b.addMember o name s) := by
  have hgrows : Grows [] b (b.addMember o name s) := Bind.addMember_binds o name s b
  have hlabel := Bindings.addMember_relabels (s := s) (b := b) o name s
  refine h.change hb (Bindings.addMember_changes ho name) hlabel
    ((hlabel.name s (hb.lt_of_inTables hs)).trans hname) (fun _ _ _ => False.elim) ?_
    (fun _ => False.elim) (fun _ _ => False.elim) (fun _ _ => False.elim) (fun _ _ => False.elim)
  rintro o m ⟨rfl, rfl⟩
  exact ⟨rfl, Or.inr (Or.inl (hreexports.mono fun t site => hgrows.sites t (a := site)))⟩

/-- A site that comes to a symbol of its name and kind. -/
theorem addDeclaration_labelled (h : l.Labelled b) (hb : b.Sound known none)
    (hs : s < b.symbols.size) (hd : (l.source σ.fileIndex).declaration? i = some d)
    (hname : (b.symbol s).name = d.name.text)
    (hkind : (b.symbol s).isA d.madeKind = true) :
    l.Labelled (b.addDeclaration s σ.fileIndex i) := by
  have hlabel := Bindings.addDeclaration_relabels (s := s) (b := b) s σ.fileIndex i
  refine h.change hb (Bindings.addDeclaration_changes hs σ.fileIndex i) hlabel
    ((hlabel.name s hs).trans hname) (fun _ _ _ => False.elim) (fun _ _ => False.elim) ?_
    (fun _ _ => False.elim) (fun _ _ => False.elim) ?_
  · rintro site rfl
    exact nameAt_inner (σ := σ) hd
  · rintro site k rfl hk
    obtain rfl := Option.some.inj ((kindAt_inner (σ := σ) hd).symm.trans hk)
    exact Or.inl ((hlabel.isA s _).mpr (Or.inl hkind))

/-- A module that is declared by a name in quotes comes to the one of its name. -/
theorem ambientModule_labelled (h : l.Labelled b) (hb : b.Sound known none)
    (hd : (l.source σ.fileIndex).declaration? i = some d) (hkind : d.madeKind = .ambientModule) :
    Gives (do
      let s ← Bind.ambientModule d.name.text
      modify (·.addDeclaration s σ.fileIndex i)
      return s) b fun s b' => l.Labelled b' ∧ b'.DeclaredAt s (σ.inner i) := by
  let x := Bind.fresh d.name.text .ambientModule none
  let pushed : Bindings := { b with symbols := b.symbols.push x }
  refine .bind (P := fun s b' => b' = b ∧ b.ambient.get? d.name.text = some s ∨
    s = b.symbols.size ∧ b' = { pushed with ambient := b.ambient.insert d.name.text s }) ?_ ?_
  · unfold Gives
    rw [Bind.ambientModule_run]
    split
    · next s hs => exact Or.inl ⟨rfl, hs⟩
    · exact Or.inr ⟨rfl, rfl⟩
  rintro s b' (⟨rfl, hs⟩ | ⟨rfl, rfl⟩)
  · obtain ⟨hname, hisA⟩ := h.ambient hs
    have hlt : s < b'.symbols.size := (hb.ambient _ _ hs).1
    exact ⟨addDeclaration_labelled h hb hlt hd hname (hkind ▸ hisA),
      (Bindings.declaredAt_addDeclaration hlt ..).mpr (Or.inr ⟨rfl, rfl⟩)⟩
  · have hlt : b.symbols.size < pushed.symbols.size := by simp [pushed]
    have hchanges := (Bindings.push_changes (s := b.symbols.size) (x := x) (b := b) rfl rfl).trans
      (Bindings.addDeclaration_changes hlt σ.fileIndex i)
    have hrest := Bindings.addDeclaration_relabels (s := b.symbols.size) (b := pushed)
      b.symbols.size σ.fileIndex i
    have hlabel := (Bindings.push_relabels (b := b) (x := x) List.nodup_nil).trans hrest
    have hx : pushed.symbol b.symbols.size = x := (Bindings.symbol_push b x _).trans (if_pos rfl)
    have hname := (hrest.name b.symbols.size hlt).trans (congrArg Symbol.name hx)
    have hkinds (k : SymbolKind) : x.isA k = true ↔ k = .ambientModule := by
      simp [x, Bind.fresh, Symbol.isA]
    have hisA : ((pushed.addDeclaration b.symbols.size σ.fileIndex i).symbol b.symbols.size).isA
        .ambientModule = true := (hlabel.isA _ _).mpr (Or.inr ⟨rfl, Or.inl ((hkinds _).mpr rfl)⟩)
    have hall : l.Labelled (pushed.addDeclaration b.symbols.size σ.fileIndex i) := by
      refine h.change hb hchanges hlabel hname (fun _ _ _ h => (h.elim id id).elim)
        (fun _ _ h => (h.elim id id).elim) ?_ ?_ ?_ ?_
      · rintro site (hfalse | rfl)
        · exact hfalse.elim
        · exact nameAt_inner (σ := σ) hd
      · have hkeeps := Bindings.addDeclaration_keeps (b := pushed) b.symbols.size σ.fileIndex i
        have hown := (hkeeps.isAlias b.symbols.size hlt).trans (congrArg Symbol.isAlias hx)
        exact fun halias => absurd (hown.symm.trans halias) Bool.false_ne_true
      · rintro - k (hk | hfalse)
        · obtain rfl := (hkinds k).mp hk
          exact ⟨σ.inner i, Or.inr rfl, hkind ▸ kindAt_inner hd⟩
        · exact hfalse.elim
      · rintro site k (hfalse | rfl) hk
        · exact hfalse.elim
        · obtain rfl := Option.some.inj ((kindAt_inner (σ := σ) hd).symm.trans hk)
          exact Or.inl (hkind ▸ hisA)
    exact ⟨hall.quote hname hisA, (hchanges.declaredAt _ _).mpr (Or.inr ⟨rfl, Or.inr rfl⟩)⟩

/-- A member of an enum comes to the member of its name, whatever kind that is of. -/
theorem enumMember_labelled (hl : l.Parsed) (h : l.Labelled b) (hb : b.Sound known none)
    {o : SymbolIndex} (ho : b.DeclaredAt o (σ.inner i))
    (hd : (l.source σ.fileIndex).declaration? i = some d) {members : List DeclIndex}
    (hshape : d.shape = .enum members) {m : DeclIndex} (hm : m ∈ members) :
    Gives (Bind.enumMember σ.fileIndex o m ((l.source σ.fileIndex).enumMember m).1) b
      fun _ b' => l.Labelled b' ∧ ∃ s, b'.DeclaredAt s (σ.inner m) := by
  obtain ⟨e, he, initial, heshape⟩ := hl.members hd hshape hm
  have hname : ((l.source σ.fileIndex).enumMember m).1 = e.name.text := by
    rw [SourceFile.enumMember, he]
  have hkind : l.kindAt? (σ.inner m) = some .enumMember := by
    rw [kindAt_inner he, Declaration.madeKind, Declaration.naming?, heshape]
    rfl
  have hlisted : σ.inner m ∈ l.membersAt (σ.inner i) := by
    change σ.inner m ∈ l.membersAt (.declaration σ.fileIndex i)
    rw [membersAt, hd, Option.map_some, hshape]
    exact List.mem_map_of_mem hm
  rw [hname]
  obtain ⟨s, joins, hchanges, hjoins, hlabel⟩ :=
    Bind.enumMember_changes hb σ.fileIndex (lt_of_declaredAt ho) m e.name.text
  refine ⟨?_, s, (hchanges.declaredAt _ _).mpr (Or.inr ⟨rfl, rfl⟩)⟩
  have hnameAt (site : Site) (hsite : site = σ.inner m) : l.nameAt? site = some e.name.text :=
    hsite ▸ nameAt_inner he
  rcases hlabel with ⟨hfound, hlabel⟩ | ⟨rfl, hlabel, hsname, hown⟩
  · obtain ⟨hsname, hcase⟩ := h.member hfound
    have hlt := hb.lt_of_inTables (Or.inr (Or.inl ⟨o, _, hfound⟩))
    refine h.change hb hchanges hlabel ((hlabel.name s hlt).trans hsname)
      (fun _ _ _ => False.elim) (fun o' n hin => ?_) hnameAt (fun _ _ => False.elim)
      (fun _ _ => False.elim) ?_
    · obtain ⟨rfl, rfl, hnone, -⟩ := hjoins o' n hin
      rw [hfound] at hnone
      cases hnone
    · rintro site k rfl hk
      obtain rfl := Option.some.inj (hkind.symm.trans hk)
      refine hcase.imp (fun hisA => (hlabel.isA s _).mpr (Or.inl hisA)) fun hexports => ⟨rfl, ?_⟩
      have hmono (t : SymbolIndex) (site : Site) (ht : b.DeclaredAt t site) :=
        (hchanges.declaredAt t site).mpr (Or.inl ht)
      exact ⟨o, σ.inner i, _, hmono o _ ho, hlisted, hnameAt _ rfl, hexports.mono hmono⟩
  · have hisA := (hlabel.isA b.symbols.size .enumMember).mpr (Or.inr ⟨rfl, rfl⟩)
    refine h.change hb hchanges hlabel hsname (fun _ _ _ => False.elim) (fun o' n hin => ?_)
      hnameAt (fun halias => absurd (hown.2.symm.trans halias) Bool.false_ne_true) ?_ ?_
    · obtain ⟨-, rfl, -⟩ := hjoins o' n hin
      exact ⟨rfl, Or.inl hisA⟩
    · rintro - k rfl
      exact ⟨σ.inner m, rfl, hkind⟩
    · rintro site k rfl hk
      exact Or.inl (Option.some.inj (hkind.symm.trans hk) ▸ hisA)

/-! ### Statements -/

/-- What is known while a program is bound, after binding came to some sites: each of them is where
a symbol is declared. -/
structure Labelling (l : Loaded) (sites : List Site) (b : Bindings) : Prop where
  sound : b.Sound (fun _ _ => True) none
  labelled : l.Labelled b
  declared : ∀ site ∈ sites, ∃ t, b.DeclaredAt t site

variable {sites added : List Site}

theorem Labelling.grow {more : List Site} (h : l.Labelling sites b) (hgrows : Grows more b b')
    (hsound : b'.Sound (fun _ _ => True) none) (hlabelled : l.Labelled b')
    (hdeclared : ∀ site ∈ added, ∃ t, b'.DeclaredAt t site) : l.Labelling (sites ++ added) b' := by
  refine ⟨hsound, hlabelled, fun site hsite => ?_⟩
  rcases List.mem_append.mp hsite with hsite | hsite
  · obtain ⟨t, ht⟩ := h.declared site hsite
    exact ⟨t, hgrows.sites t ht⟩
  · exact hdeclared site hsite

theorem Labelling.keep (h : l.Labelling sites b) (hgrows : Grows added b b')
    (hsound : b'.Sound (fun _ _ => True) none) (hlabelled : l.Labelled b') :
    l.Labelling sites b' :=
  List.append_nil sites ▸ h.grow hgrows hsound hlabelled fun _ hsite => nomatch hsite

/-- A step for each of some things in order, each of which comes to sites of its own. -/
theorem forM_sites {β : Type} {f : β → Bind Unit} {added : β → List Site}
    {I : List Site → Bindings → Prop} {xs : List β}
    (hf : ∀ x ∈ xs, ∀ sites b, I sites b → Gives (f x) b fun _ b' => I (sites ++ added x) b')
    (h : I sites b) : Gives (xs.forM f) b fun _ b' => I (sites ++ xs.flatMap added) b' := by
  induction xs generalizing sites b with
  | nil =>
    have hend : I (sites ++ []) b := by rwa [List.append_nil]
    exact hend
  | cons x xs ih =>
    refine .bind (hf x List.mem_cons_self sites b h) fun _ b' h' => ?_
    rw [List.flatMap_cons, ← List.append_assoc]
    exact ih (fun y hy => hf y (List.mem_cons_of_mem _ hy)) h'

theorem declareAlias_labelling (h : l.Labelling sites b) (c : Container) (name : String)
    (target : AliasTarget) :
    Gives (Bind.declareAlias c name target) b fun s b' =>
      l.Labelling sites b' ∧ b'.InTables s ∧ (b'.symbol s).name = name ∧ Grows [] b b' := by
  have hgrows : Gives (Bind.declareAlias c name target) b fun _ b' => Grows [] b b' :=
    Bind.declareAlias_binds c name target b
  have hsound := Bind.declareAlias_gives (After.start h.sound) c name target
  obtain ⟨hlabelled, htable, hname⟩ := declareAlias_labelled h.labelled h.sound c name target
  exact ⟨h.keep hgrows hsound.1.sound hlabelled, htable, hname, hgrows⟩

theorem declareSymbol_labelling (h : l.Labelling sites b) (hc : l.Opens b c)
    (hi : i ∈ declaredIn (l.statements c.scope))
    (hd : (l.source c.scope.fileIndex).declaration? i = some d)
    (hname : d.localName? = if Bind.isLocal d then some d.name.text else none)
    {kind : SymbolKind} (hkind : d.madeKind = kind) :
    Gives (Bind.declareSymbol c c.scope.fileIndex i d kind (d.isExported || c.exportsAll)) b
      fun s b' => l.Labelling (sites ++ [c.scope.inner i]) b' ∧
        b'.DeclaredAt s (c.scope.inner i) := by
  have hgrows := Bind.declareSymbol_binds c c.scope.fileIndex i d kind
    (d.isExported || c.exportsAll) b
  have hsound := Bind.declareSymbol_gives (After.start h.sound) c c.scope.fileIndex i d kind
    (d.isExported || c.exportsAll)
  obtain ⟨hlabelled, hsite⟩ := declareSymbol_labelled h.labelled h.sound hc hi hd hname hkind
  exact ⟨h.grow hgrows hsound.1.sound hlabelled fun _ hin =>
    ⟨_, List.mem_singleton.mp hin ▸ hsite⟩, hsite⟩

theorem ambientModule_labelling (h : l.Labelling sites b)
    (hd : (l.source σ.fileIndex).declaration? i = some d) (hkind : d.madeKind = .ambientModule) :
    Gives (do
      let s ← Bind.ambientModule d.name.text
      modify (·.addDeclaration s σ.fileIndex i)
      return s) b fun s b' => l.Labelling (sites ++ [σ.inner i]) b' ∧
        b'.DeclaredAt s (σ.inner i) := by
  have hgrows : Grows [σ.inner i] b _ := Binds.seq (Bind.ambientModule_binds d.name.text)
    (fun s => (Bind.addDeclaration_binds s σ.fileIndex i).then fun _ => Binds.pure s) b
  obtain ⟨hpending, -⟩ := Bind.ambientModule_gives (After.start h.sound) d.name.text
  have hsound : (Bindings.addDeclaration _ _ σ.fileIndex i).Sound (fun _ _ => True) none :=
    hpending.sound.addDeclaration hpending.lt fun _ => trivial
  obtain ⟨hlabelled, hsite⟩ := ambientModule_labelled h.labelled h.sound hd hkind
  exact ⟨h.grow hgrows hsound hlabelled fun _ hin =>
    ⟨_, List.mem_singleton.mp hin ▸ hsite⟩, hsite⟩

theorem members_labelling (hl : l.Parsed) (h : l.Labelling sites b)
    (hs : b.DeclaredAt s (σ.inner i)) (hd : (l.source σ.fileIndex).declaration? i = some d)
    {members : List DeclIndex} (hshape : d.shape = .enum members) :
    Gives (members.forM fun m => Bind.enumMember σ.fileIndex s m
        ((l.source σ.fileIndex).enumMember m).1) b
      fun _ b' => l.Labelling (sites ++ members.map σ.inner) b' := by
  rw [List.map_eq_flatMap]
  refine (forM_sites (I := fun sites b => l.Labelling sites b ∧ b.DeclaredAt s (σ.inner i))
    (fun m hm sites b ⟨h, hs⟩ => ?_) ⟨h, hs⟩).mono fun _ _ h' => h'.1
  have hgrows := Bind.enumMember_binds σ.fileIndex s m ((l.source σ.fileIndex).enumMember m).1 b
  have hsound : Gives (Bind.enumMember σ.fileIndex s m ((l.source σ.fileIndex).enumMember m).1) b
      fun _ b' => After (fun _ _ => True) b b' :=
    Bind.enumMember_gives (After.start h.sound) trivial s _
  obtain ⟨hlabelled, hsite⟩ := enumMember_labelled hl h.labelled h.sound hs hd hshape hm
  exact ⟨h.grow hgrows hsound.sound hlabelled fun _ hin => List.mem_singleton.mp hin ▸ hsite,
    hgrows.sites s hs⟩

/-- Blocks within keep what is known, as long as they are those of scopes of a file. -/
def KeepsLabelling (l : Loaded) (file : FileIndex) (inner : List Statement → List DeclIndex)
    (block : Container → List Statement → Bind Unit) : Prop :=
  ∀ (c : Container) (sites : List Site) (b : Bindings), c.scope.fileIndex = file → l.Opens b c →
    l.Labelling sites b → Gives (block c (l.statements c.scope)) b fun _ b' =>
      l.Labelling (sites ++ (inner (l.statements c.scope)).map c.scope.inner) b'

variable {inner : List Statement → List DeclIndex} {block : Container → List Statement → Bind Unit}

/-- A module comes to its site, and its body is bound in a container of its own. -/
theorem moduleContainer_labelling (hl : l.Parsed) (h : l.Labelling sites b) (hc : l.Opens b c)
    (hi : i ∈ declaredIn (l.statements c.scope))
    (hd : (l.source c.scope.fileIndex).declaration? i = some d) {naming : ModuleNaming}
    {body : Option (List Statement)} (hshape : d.shape = .module naming body) :
    Gives (Bind.moduleContainer c c.scope.fileIndex i d naming body) b fun inner b' =>
      l.Labelling (sites ++ (if naming = .global then [] else [i]).map c.scope.inner) b' ∧
        inner.scope = c.scope.inner i ∧ (body.isSome = true → l.Opens b' inner) := by
  obtain ⟨hscope, hopens⟩ := moduleContainer_opens hl.forest hc hi hd hshape
  cases naming with
  | global =>
    have hall : l.Labelling (sites ++ []) b := by rwa [List.append_nil]
    exact ⟨hall, hscope, fun hbody => hopens hbody nofun⟩
  | string =>
    have hkind : d.madeKind = .ambientModule := by
      rw [Declaration.madeKind, Declaration.naming?, hshape]
      rfl
    obtain ⟨hall, hsite⟩ := ambientModule_labelling h hd hkind
    exact ⟨hall, hscope, fun hbody => hopens hbody fun o ho => Option.some.inj ho ▸ hsite⟩
  | identifier =>
    have hname : d.localName? = if Bind.isLocal d then some d.name.text else none := by
      rw [Declaration.localName?, hshape]
    have hkind : d.madeKind = .nameSpace := by
      rw [Declaration.madeKind, Declaration.naming?, hshape]
      rfl
    obtain ⟨hall, hsite⟩ := declareSymbol_labelling h hc hi hd hname hkind
    exact ⟨hall, hscope, fun hbody => hopens hbody fun o ho => Option.some.inj ho ▸ hsite⟩

theorem module_labelling (hl : l.Parsed) (hblock : l.KeepsLabelling c.scope.fileIndex inner block)
    (h : l.Labelling sites b) (hc : l.Opens b c) (hi : i ∈ declaredIn (l.statements c.scope))
    (hd : (l.source c.scope.fileIndex).declaration? i = some d) {naming : ModuleNaming}
    {body : Option (List Statement)} (hshape : d.shape = .module naming body) :
    Gives (do
      let container ← Bind.moduleContainer c c.scope.fileIndex i d naming body
      body.forM (block container)) b fun _ b' =>
        l.Labelling (sites ++ ((if naming = .global then [] else [i]) ++
          (body.map inner).getD []).map c.scope.inner) b' := by
  rw [List.map_append, ← List.append_assoc]
  refine .bind (moduleContainer_labelling hl h hc hi hd hshape) ?_
  rintro container b' ⟨h', hscope, hopens⟩
  cases body with
  | none => exact .pure (by rwa [Option.map_none, Option.getD_none, List.map_nil, List.append_nil])
  | some statements =>
    have hstatements : l.statements container.scope = statements :=
      hscope ▸ statements_inner hd hshape
    have hinner : container.scope.inner = c.scope.inner := by
      rw [hscope]
      rfl
    have hfile : container.scope.fileIndex = c.scope.fileIndex := by
      rw [hscope]
      rfl
    have hall := hblock container _ b' hfile (hopens rfl) h'
    rwa [hstatements, hinner] at hall

theorem declaration_labelling (hl : l.Parsed)
    (hblock : l.KeepsLabelling c.scope.fileIndex inner block) (h : l.Labelling sites b)
    (hc : l.Opens b c) (hi : i ∈ declaredIn (l.statements c.scope)) :
    Gives (Bind.declaration block (l.source c.scope.fileIndex) c.scope.fileIndex c i) b fun _ b' =>
      l.Labelling (sites ++
        ((l.source c.scope.fileIndex).boundBy inner i).map c.scope.inner) b' := by
  obtain ⟨d, hd, hmember⟩ := hl.stands hi
  unfold Bind.declaration SourceFile.boundBy
  rw [hd, Option.map_some]
  dsimp only
  -- a form that binds a name of its own
  have hplain {kind : SymbolKind}
      (hname : d.localName? = if Bind.isLocal d then some d.name.text else none)
      (hnaming : d.naming? = none) (hshape : d.shape.symbolKind = kind) :=
    have hkind : d.madeKind = kind := by
      rw [Declaration.madeKind, hnaming, if_neg (by simp), hshape]
    declareSymbol_labelling h hc hi hd hname hkind
  cases hshape : d.shape with
  | module naming body => exact module_labelling hl hblock h hc hi hd hshape
  | «enum» members =>
    rw [List.map_cons, List.append_cons]
    have hsymbol := hplain (by rw [Declaration.localName?, hshape])
      (by rw [Declaration.naming?, hshape]) (congrArg DeclarationShape.symbolKind hshape)
    refine .bind hsymbol fun s b' hboth => ?_
    exact members_labelling hl hboth.1 hboth.2 hd hshape
  | enumMember initial => exact absurd ⟨initial, hshape⟩ hmember
  | _ =>
    exact (hplain (by rw [Declaration.localName?, hshape]) (by rw [Declaration.naming?, hshape])
      (congrArg DeclarationShape.symbolKind hshape)).1

theorem statement_labelling (hl : l.Parsed)
    (hblock : l.KeepsLabelling c.scope.fileIndex inner block) (h : l.Labelling sites b)
    (hc : l.Opens b c) {s : Statement} (hs : s ∈ l.statements c.scope) :
    Gives (Bind.statement block (l.source c.scope.fileIndex) c.scope.fileIndex c s) b fun _ b' =>
      l.Labelling (sites ++
        ((l.source c.scope.fileIndex).boundAt inner s).map c.scope.inner) b' := by
  have hkeep {b : Bindings} (h : l.Labelling sites b) :
      l.Labelling (sites ++ ([] : List DeclIndex).map c.scope.inner) b :=
    (List.append_nil sites).symm ▸ h
  have halias {b : Bindings} (h : l.Labelling sites b) (name : String) (target : AliasTarget) :
      Gives (discard (Bind.declareAlias c name target)) b fun _ b' => l.Labelling sites b' :=
    (declareAlias_labelling h c name target).1
  cases s with
  | declaration i =>
    exact declaration_labelling hl hblock h hc (List.mem_filterMap.mpr ⟨_, hs, rfl⟩)
  | importFrom span typeOnly default nameSpace named specifier =>
    refine Gives.mono (P := fun _ b' => l.Labelling sites b') ?_ fun _ _ => hkeep
    refine .bind (.forM_option (fun n _ => halias h _ _) h) fun _ b' h' => ?_
    refine .bind (.forM_option (fun n _ => halias h' _ _) h') fun _ b'' h'' => ?_
    exact .forM (fun n _ b h => halias h _ _) h''
  | importEquals span name isExport target =>
    refine Gives.mono (P := fun _ b' => l.Labelling sites b') ?_ fun _ _ => hkeep
    refine .bind (declareAlias_labelling h c name.text (Bind.equalsTarget target)) ?_
    rintro s b' ⟨h', htable, hname, hgrows⟩
    have hc' : l.Opens b' c := hc.mono fun t site => hgrows.sites t (a := site)
    cases isExport with
    | false => exact .pure h'
    | true =>
      refine .forM_option (fun o ho => Bind.modify_gives ?_) h'
      have hsite := hc'.declaredAt_owner ho
      have hreexports : l.Reexports b' o name.text := ⟨c.scope, hsite, span, name, target, hs, rfl⟩
      exact h'.keep (Bind.addMember_binds o name.text s b')
        (h'.sound.addMember (h'.sound.lt_of_inTables htable) o name.text)
        (addMember_labelled h'.labelled h'.sound (lt_of_declaredAt hsite) htable hname hreexports)
  | _ => exact .pure (hkeep h)

/-- A block keeps what is known. -/
theorem block_labelling (hl : l.Parsed) (file : FileIndex) (k : ℕ) :
    l.KeepsLabelling file ((l.source file).boundIn k) (Bind.block (l.source file) file k) := by
  induction k with
  | zero =>
    intro c sites b _ _ h
    have hall : l.Labelling (sites ++ []) b := by rwa [List.append_nil]
    exact .pure hall
  | succ k ih =>
    rintro c sites b rfl hc h
    rw [SourceFile.boundIn_succ, List.map_flatMap]
    have hstatements {b : Bindings} (h : l.Labelling sites b) (hc : l.Opens b c) := forM_sites
      (I := fun sites b => l.Labelling sites b ∧ l.Opens b c)
      (fun s hs sites b h => (statement_labelling hl ih h.1 h.2 hs).and
        (h.2.mono fun t site => (Bind.statement_binds (f := l.source c.scope.fileIndex)
          (Bind.block_binds k) c s b).sites t (a := site))) ⟨h, hc⟩
    unfold Bind.block
    cases c.exportsAll with
    | false => exact (hstatements h hc).mono fun _ _ h' => h'.1
    | true =>
      refine .bind (P := fun _ b' => l.Labelling sites b' ∧ l.Opens b' c) (Bind.modify_gives ?_)
        fun _ b' h' => (hstatements h'.1 h'.2).mono fun _ _ h' => h'.1
      exact ⟨⟨{ h.sound with }, { h.labelled with }, h.declared⟩, { hc with }⟩

/-! ### Files -/

/-- The symbol of a file that is a module is new. -/
theorem Labelled.openFile (h : l.Labelled b) (hb : b.Sound known none) {i : FileIndex} {x : Symbol}
    (hx : x = { Bind.fresh (Bind.moduleName (l.source i).name) .sourceFile none with
      declarations := [.file i] }) :
    l.Labelled { b with symbols := b.symbols.push x } := by
  let b' : Bindings := { b with symbols := b.symbols.push x }
  have hnew : b'.symbol b.symbols.size = x := (Bindings.symbol_push b x _).trans (if_pos rfl)
  have hdeclarations : x.declarations = [.file i] := hx ▸ rfl
  have hchanges : Changes b.symbols.size (fun _ _ _ => False) (fun _ _ => False) (· = .file i)
      b b' :=
    .of_tables (Bindings.push_keeps x) rfl rfl rfl rfl
      (Bindings.member_push (x := x) (congrArg Symbol.members hx))
      (Bindings.declaredAt_push_site hdeclarations) (fun _ _ h => by cases h) fun _ _ _ => rfl
  have hlabel : Relabels b.symbols.size (fun k => x.isA k = true) b b' :=
    Bindings.push_relabels (hdeclarations ▸ List.nodup_singleton _)
  have hkinds (k : SymbolKind) : x.isA k = true ↔ k = .sourceFile := by
    rw [hx]
    simp [Bind.fresh, Symbol.isA]
  refine h.change hb hchanges hlabel (congrArg Symbol.name hnew) (fun _ _ _ => False.elim)
    (fun _ _ => False.elim) ?_ ?_ ?_ ?_
  · rintro site rfl
    rw [hx]
    rfl
  · rw [hnew, hx]
    intro halias
    cases halias
  · rintro - k hk
    obtain rfl := (hkinds k).mp hk
    exact ⟨.file i, rfl, rfl⟩
  · rintro site k rfl hk
    obtain rfl := Option.some.inj hk
    exact Or.inl ((congrArg (Symbol.isA · .sourceFile) hnew).trans ((hkinds _).mpr rfl))

theorem file_labelling (hl : l.Parsed) (h : l.Labelling sites b) {f : LoadedFile} {i : FileIndex}
    (hf : l.files[i]? = some f) :
    Gives (Bind.file f i) b fun _ b' => l.Labelling (sites ++ f.sites i) b' := by
  have hsource := source_of_getElem? hf
  have hblock (c : Container) (sites : List Site) {b : Bindings} (hscope : c.scope = .file i)
      (hc : l.Opens b c) := block_labelling hl i (f.source.declarations.size + 1) c sites b
        (hscope ▸ rfl) hc
  unfold LoadedFile.sites
  unfold Bind.file
  cases hmodule : f.source.isModule with
  | false =>
    have hall := hblock _ sites rfl (opens_script (b := b) hf hmodule) h
    rw [hsource, statements_file hf] at hall
    exact hall
  | true =>
    rw [if_pos rfl, ← List.append_assoc]
    let x : Symbol := { Bind.fresh (Bind.moduleName f.source.name) .sourceFile none with
      declarations := [Site.file i] }
    let start : Bindings := { b with symbols := b.symbols.push x }
    have hsite : start.DeclaredAt b.symbols.size (.file i) :=
      (Bindings.declaredAt_push_site rfl _ _).mpr (Or.inr ⟨rfl, rfl⟩)
    have hstart : l.Labelling (sites ++ [Site.file i]) start := by
      refine h.grow (Bindings.push_grows rfl) ((h.sound.push rfl).settle fun _ =>
        List.ne_nil_of_mem hsite) (h.labelled.openFile h.sound (by rw [hsource])) fun _ hin => ?_
      exact ⟨_, List.mem_singleton.mp hin ▸ hsite⟩
    have hown : start.IsOwn b.symbols.size := Bindings.isOwn_push rfl
    have hall := hblock _ (sites ++ [Site.file i]) rfl (opens_module hf hmodule hsite) hstart
    rw [hsource, statements_file hf] at hall
    have hkeeps (container : Container) : Gives (Bind.block f.source i
        (f.source.declarations.size + 1) container f.source.statements) start
          fun _ b' => After (fun _ _ => True) start b' :=
      Bind.block_keeping _ container _ (fun _ _ => trivial) start start (.start hstart.sound)
    refine .bind (P := fun s b' => s = b.symbols.size ∧ b' = start) ⟨rfl, rfl⟩ ?_
    rintro _ _ ⟨rfl, rfl⟩
    refine .bind (hall.and (hkeeps _)) ?_
    rintro - b' ⟨h', hkeeps⟩
    have hown : b'.IsOwn b.symbols.size := hown.keep hkeeps.keeps
    refine Bind.modify_gives ⟨{ h'.sound with modules := fun j t ht => ?_ }, { h'.labelled with },
      h'.declared⟩
    rw [Table.get?_insert] at ht
    split at ht
    · exact Option.some.inj ht ▸ hown
    · exact h'.sound.modules j t ht

theorem empty_labelling (l : Loaded) : l.Labelling [] .empty := by
  have hsymbol (t : SymbolIndex) : Bindings.empty.symbol t = default :=
    Bindings.symbol_of_size_le (by simp [Bindings.empty])
  have hnone (t : SymbolIndex) (site : Site) : ¬ Bindings.empty.DeclaredAt t site := by
    rw [Bindings.DeclaredAt, hsymbol]
    exact List.not_mem_nil
  refine ⟨Bindings.sound_empty _, ?_, fun _ hsite => absurd hsite List.not_mem_nil⟩
  constructor
  case named => exact fun {g σ n t} ht => by cases g <;> cases ht
  case member =>
    intro o n t ht
    rw [Bindings.member, hsymbol] at ht
    cases ht
  case ambient => exact fun ht => by cases ht
  case symbolOf => exact fun ht => by cases ht
  case nodup => exact fun t => by rw [hsymbol]; exact List.nodup_nil
  case nameAt => exact fun ht => absurd ht (hnone _ _)
  case imported => exact fun {t k} ht => by rw [hsymbol] at ht; cases ht
  case kindOf => exact fun {t k} _ hk => by rw [hsymbol] at hk; cases hk
  case isA => exact fun ht => absurd ht (hnone _ _)

/-- What is known when all files are bound. -/
theorem bind_labelling (hl : l.Parsed) :
    l.Labelling (l.files.toList.zipIdx.flatMap fun (f, i) => f.sites i) l.bind := by
  refine forM_sites (I := l.Labelling) (fun entry hentry sites b h => ?_) l.empty_labelling
  rw [List.mk_mem_zipIdx_iff_getElem?, Array.getElem?_toList] at hentry
  exact file_labelling hl h hentry

end Loaded

end ApiSurface
