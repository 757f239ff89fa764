import ApiSurface.Proofs.MergedDeclarations
/-!
Binding keeps what is known of the tables, statement by statement and file by file. The sites that
were come to grow along the way, and each of them is new when its turn comes.
-/
namespace ApiSurface

/-- The declarations that a statement makes, as `boundIn` lists them. -/
def SourceFile.boundAt (f : SourceFile) (inner : List Statement → List DeclIndex) :
    Statement → List DeclIndex
  | .declaration i => f.boundBy inner i
  | _ => []

theorem SourceFile.boundIn_succ (f : SourceFile) (n : ℕ) (statements : List Statement) :
    f.boundIn (n + 1) statements = statements.flatMap (f.boundAt (f.boundIn n)) := rfl

theorem SourceFile.mem_boundBy {f : SourceFile} {inner : List Statement → List DeclIndex}
    {i : DeclIndex} {d : Declaration} (hd : f.declaration? i = some d) (hglobal : ¬ d.IsGlobal) :
    i ∈ f.boundBy inner i := by
  rw [boundBy, hd, Option.map_some]
  cases hshape : d.shape with
  | module naming body =>
    have hnaming : naming ≠ .global := by
      rintro rfl
      exact hglobal (by rw [Declaration.IsGlobal, Declaration.naming?, hshape])
    exact List.mem_append_left _ (if_neg hnaming ▸ List.mem_singleton_self _)
  | _ => exact List.mem_cons_self

namespace Loaded

open ApiSurface.Bind (Gives Binds After)
open Bindings (Grows)

variable {l : Loaded} {b b' : Bindings} {sites added : List Site} {σ : Site} {n : String}
  {e : DeclIndex × Declaration}

/-- What is known while a program is bound, after binding came to some sites. -/
structure Merging (l : Loaded) (sites : List Site) (b : Bindings) : Prop where
  nodup : sites.Nodup
  sound : b.Sound (fun _ _ => True) none
  owns : b.Owns sites
  merged : l.Merged b
  declared : ∀ {σ n e}, e ∈ l.declarationsOf σ n → σ.inner e.1 ∈ sites →
    ∃ t, b.DeclaredAt t (σ.inner e.1)

theorem Merging.grow (h : l.Merging sites b) (hgrows : Grows added b b')
    (hnodup : (sites ++ added).Nodup) (hsound : b'.Sound (fun _ _ => True) none)
    (hmerged : l.Merged b')
    (hdeclared : ∀ {σ n e}, e ∈ l.declarationsOf σ n → σ.inner e.1 ∈ added →
      ∃ t, b'.DeclaredAt t (σ.inner e.1)) : l.Merging (sites ++ added) b' where
  nodup := hnodup
  sound := hsound
  owns := hgrows.owns sites hnodup h.owns
  merged := hmerged
  declared he hsite := by
    rcases List.mem_append.mp hsite with hsite | hsite
    · obtain ⟨t, ht⟩ := h.declared he hsite
      exact ⟨t, hgrows.sites t ht⟩
    · exact hdeclared he hsite

theorem Merging.keep (h : l.Merging sites b) (hgrows : Grows [] b b')
    (hsound : b'.Sound (fun _ _ => True) none) (hmerged : l.Merged b') : l.Merging sites b' := by
  have hall := h.grow hgrows ((List.append_nil sites).symm ▸ h.nodup) hsound hmerged
    fun _ hsite => nomatch hsite
  rwa [List.append_nil] at hall

/-- Sites of no declaration with a name may be passed over. -/
theorem Merging.skip (h : l.Merging sites b) (hnodup : (sites ++ added).Nodup)
    (hnone : ∀ {σ n e}, e ∈ l.declarationsOf σ n → σ.inner e.1 ∉ added) :
    l.Merging (sites ++ added) b :=
  h.grow ((Grows.refl b).weaken (List.nil_sublist _)) hnodup h.sound h.merged
    fun he hsite => absurd hsite (hnone he)

/-- A site that is still to come has no symbol. -/
theorem Merging.fresh (h : l.Merging sites b) (hnodup : (sites ++ added).Nodup) {site : Site}
    (hsite : site ∈ added) (t : SymbolIndex) : ¬ b.DeclaredAt t site := fun ht =>
  (List.nodup_append.mp hnodup).2.2 site (h.owns.2 t site ht) site hsite rfl

theorem not_mem_declarationsOf {i : DeclIndex} {d : Declaration}
    (hd : (l.source σ.fileIndex).declaration? i = some d) (hname : d.localName? = none)
    {τ : Site} {n : String} {e : DeclIndex × Declaration} (he : e ∈ l.declarationsOf τ n) :
    τ.inner e.1 ≠ σ.inner i := by
  intro heq
  obtain ⟨hfile, hindex⟩ := Site.declaration.inj heq
  obtain ⟨-, hd', hname'⟩ := mem_declarationsOf.mp he
  rw [hfile, hindex, hd] at hd'
  rw [← Option.some.inj hd', hname] at hname'
  cases hname'

/-! ### Imports -/

theorem declareAlias_merging (h : l.Merging sites b) {c : Container} {name : String}
    (hname : name ∈ l.importNames c.scope) (target : AliasTarget) :
    Gives (Bind.declareAlias c name target) b fun s b' =>
      l.Merging sites b' ∧ b'.InTables s ∧ Grows [] b b' := by
  have hgrows : Gives (Bind.declareAlias c name target) b fun _ b' => Grows [] b b' :=
    Bind.declareAlias_binds c name target b
  have hsound := Bind.declareAlias_gives (After.start h.sound) c name target
  obtain ⟨bound, hchanges, hold, halias, hnamed, htable⟩ :=
    Bind.declareAlias_changes (b := b) c name target
  have hmerged := h.merged.change h.sound hchanges
    (fun σ n t hbound _ ht hown => absurd (hown.2.symm.trans ((hold _ _ _ hbound).2.2.2 t ht))
      Bool.false_ne_true)
    (fun σ n t hbound ht hown => absurd (hown.2.symm.trans ((hold _ _ _ hbound).2.2.2 t ht))
      Bool.false_ne_true)
    (fun σ n _ hbound hown => by
      rcases halias with halias | hnone
      · exact absurd (hown.2.symm.trans halias) Bool.false_ne_true
      · exact absurd hbound (hnone _ _ _))
    (fun σ n _ hbound _ => by
      obtain ⟨rfl, -, hscope, -⟩ := hold _ _ _ hbound
      rwa [hscope.resolve_left Bool.false_ne_true])
    (fun _ _ _ => False.elim) (fun _ _ => False.elim) (fun _ => False.elim)
    (fun _ _ _ _ => False.elim) htable
  exact ⟨h.keep hgrows hsound.1.sound hmerged, Or.inl ⟨_, _, _, hnamed⟩, hgrows⟩

/-- An import that a body exports becomes a member. -/
theorem addMember_merging (h : l.Merging sites b) {o s : SymbolIndex} {name : String}
    (ho : o < b.symbols.size) (hs : b.InTables s) (hreexports : l.Reexports b o name) :
    Gives (modify (·.addMember o name s)) b fun _ b' => l.Merging sites b' := by
  have hgrows : Grows [] b (b.addMember o name s) := Bind.addMember_binds o name s b
  have hsound := h.sound.addMember (h.sound.lt_of_inTables hs) o name
  have hreexports' := hreexports.mono fun t site => hgrows.sites t (a := site)
  refine h.keep hgrows hsound (h.merged.change h.sound (Bindings.addMember_changes ho name)
    (fun _ _ _ => False.elim) (fun _ _ _ => False.elim) (fun _ _ _ => False.elim)
    (fun _ _ _ => False.elim) ?_ ?_ (fun _ => False.elim) (fun _ _ _ _ => False.elim)
    (Or.inl hs))
  · rintro o n t ⟨rfl, rfl⟩ hnone
    exact absurd hreexports' hnone
  · rintro o n ⟨rfl, rfl⟩
    exact Or.inl hreexports'

/-! ### Declarations -/

variable {c : Container} {i : DeclIndex} {d : Declaration}

theorem declareSymbol_merging (hl : ∀ i, (l.source i).IsForest) (h : l.Merging sites b)
    (hc : l.Opens b c) (hi : i ∈ declaredIn (l.statements c.scope))
    (hd : (l.source c.scope.fileIndex).declaration? i = some d)
    (hname : d.localName? = if Bind.isLocal d then some d.name.text else none)
    (hnodup : (sites ++ [c.scope.inner i]).Nodup) (horder : l.InOrder b c.scope)
    (kind : SymbolKind) :
    Gives (Bind.declareSymbol c c.scope.fileIndex i d kind (d.isExported || c.exportsAll)) b
      fun s b' => l.Merging (sites ++ [c.scope.inner i]) b' ∧
        b'.DeclaredAt s (c.scope.inner i) ∧ Grows [c.scope.inner i] b b' := by
  have hgrows := Bind.declareSymbol_binds c c.scope.fileIndex i d kind
    (d.isExported || c.exportsAll) b
  have hsound := Bind.declareSymbol_gives (After.start h.sound) c c.scope.fileIndex i d kind
    (d.isExported || c.exportsAll)
  obtain ⟨hmerged, hsite⟩ := declareSymbol_merged hl h.merged h.sound h.owns.1 hc hi hd hname
    (h.fresh hnodup (List.mem_singleton_self _)) horder kind
  refine ⟨h.grow hgrows hnodup hsound.1.sound hmerged fun _ hin => ?_, hsite, hgrows⟩
  exact ⟨_, List.mem_singleton.mp hin ▸ hsite⟩

/-- A module that is declared by name is found among the ambient ones. -/
theorem ambientModule_merging (h : l.Merging sites b)
    (hd : (l.source σ.fileIndex).declaration? i = some d) (hname : d.localName? = none)
    (hnodup : (sites ++ [σ.inner i]).Nodup) (name : String) :
    Gives (do
      let s ← Bind.ambientModule name
      modify (·.addDeclaration s σ.fileIndex i)
      return s) b fun s b' => l.Merging (sites ++ [σ.inner i]) b' ∧ b'.DeclaredAt s (σ.inner i) := by
  have hgrows : Grows [σ.inner i] b _ := Binds.seq (Bind.ambientModule_binds name)
    (fun s => (Bind.addDeclaration_binds s σ.fileIndex i).then fun _ => Binds.pure s) b
  obtain ⟨hpending, hown⟩ := Bind.ambientModule_gives (After.start h.sound) name
  obtain ⟨hfound, -, htable⟩ := Bind.ambientModule_changes h.sound name
  have hdeclare := Bindings.addDeclaration_changes hpending.lt σ.fileIndex i
  have hall : Bindings.Changes _ (fun _ _ _ => False) (fun _ _ => False) (· = σ.inner i) b _ :=
    (hfound.trans hdeclare).congr (by simp) (by simp) (by simp [Site.inner])
  have hsound : (Bindings.addDeclaration _ _ σ.fileIndex i).Sound (fun _ _ => True) none :=
    hpending.sound.addDeclaration hpending.lt fun _ => trivial
  refine ⟨h.grow hgrows hnodup hsound (h.merged.change h.sound hall (fun _ _ _ => False.elim)
    (fun _ _ _ => False.elim) (fun _ _ _ => False.elim) (fun _ _ _ => False.elim)
    (fun _ _ _ => False.elim) (fun _ _ => False.elim) ?_ ?_ htable)
    fun he hsite => ?_, ?_⟩
  · rintro site rfl
    exact ⟨fun f => Site.noConfusion, h.fresh hnodup (List.mem_singleton_self _)⟩
  · exact fun τ n e he hsite => absurd hsite (not_mem_declarationsOf hd hname he)
  · exact absurd (List.mem_singleton.mp hsite) (not_mem_declarationsOf hd hname he)
  · exact (hall.declaredAt _ _).mpr (Or.inr ⟨rfl, rfl⟩)

/-- A member of an enum is no declaration of a statement. -/
theorem enumMember_merging (hl : ∀ i, (l.source i).IsForest) (h : l.Merging sites b)
    {o : SymbolIndex} (ho : b.DeclaredAt o (σ.inner i))
    (hd : (l.source σ.fileIndex).declaration? i = some d) {members : List DeclIndex}
    (hshape : d.shape = .enum members) {m : DeclIndex} (hm : m ∈ members)
    (hnodup : (sites ++ [σ.inner m]).Nodup) :
    Gives (Bind.enumMember σ.fileIndex o m ((l.source σ.fileIndex).enumMember m).1) b
      fun _ b' => l.Merging (sites ++ [σ.inner m]) b' ∧ Grows [σ.inner m] b b' := by
  let name := ((l.source σ.fileIndex).enumMember m).1
  have hgrows : Grows [σ.inner m] b _ := Bind.enumMember_binds σ.fileIndex o m name b
  have hsound : Gives (Bind.enumMember σ.fileIndex o m name) b _ :=
    Bind.enumMember_gives (After.start h.sound) trivial o name
  obtain ⟨s, joins, hchanges, hjoins, hlabel⟩ :=
    Bind.enumMember_changes h.sound σ.fileIndex (lt_of_declaredAt ho) m name
  have htable : b.InTables s ∨ s = b.symbols.size :=
    hlabel.imp (fun hold => Or.inr (Or.inl ⟨o, name, hold.1⟩)) And.left
  have hname : name ∈ l.enumNames (σ.inner i) := by
    rw [Site.inner, enumNames, hd, Option.map_some, hshape]
    exact List.mem_map_of_mem hm
  have hlisted {τ : Site} {n : String} {e : DeclIndex × Declaration}
      (he : e ∈ l.declarationsOf τ n) : τ.inner e.1 ≠ σ.inner m := by
    intro heq
    obtain ⟨hfile, hindex⟩ := Site.declaration.inj heq
    obtain ⟨hin, hd', -⟩ := mem_declarationsOf.mp he
    have hparent := (hl _).child m e.2 (hfile ▸ hindex ▸ hd') i |>.mpr
      ⟨d, hd, by rw [Declaration.children, hshape]; exact hm⟩
    have hscope := (parent_eq hl hin hd').symm.trans hparent
    have hτ : τ = σ.inner i := by
      cases τ with
      | file f => cases hscope
      | declaration f j => exact congrArg₂ Site.declaration hfile (Option.some.inj hscope)
    rw [hτ, statements_of_enum hname] at hin
    cases hin
  refine ⟨h.grow hgrows hnodup hsound.sound (h.merged.change h.sound hchanges
    (fun _ _ _ => False.elim) (fun _ _ _ => False.elim) (fun _ _ _ => False.elim)
    (fun _ _ _ => False.elim) ?_ ?_ ?_ ?_ htable) fun he hsite => ?_, hgrows⟩
  · intro o' n t hin _ ht
    rw [(hjoins o' n hin).2.2.1] at ht
    cases ht
  · intro o' n hin
    obtain ⟨rfl, rfl, -, hown⟩ := hjoins o' n hin
    exact Or.inr (Or.inr ⟨hown, σ.inner i, hgrows.sites _ ho, hname⟩)
  · rintro site rfl
    exact ⟨fun f => Site.noConfusion, h.fresh hnodup (List.mem_singleton_self _)⟩
  · exact fun τ n e he hsite => absurd hsite (hlisted he)
  · exact absurd (List.mem_singleton.mp hsite) (hlisted he)

/-! ### Modules -/

theorem isAmbient_inner (hl : ∀ i, (l.source i).IsForest) (hi : i ∈ declaredIn (l.statements σ))
    (hd : (l.source σ.fileIndex).declaration? i = some d) :
    l.isAmbient (σ.inner i) = (l.isAmbient σ || d.opensAmbient) := by
  have hparent := parent_eq hl hi hd
  change (_ || ((l.source σ.fileIndex).enclosing i).any _) = _
  rw [SourceFile.enclosing_eq hd, List.any_cons, hd, Option.any_some]
  cases σ with
  | file f =>
    rw [hparent]
    exact congrArg (_ || ·) (Bool.or_false _)
  | declaration f j =>
    rw [hparent, Site.index?, Option.elim, if_pos ((hl f).older i d hd j hparent)]
    exact (congrArg (_ || ·) (Bool.or_comm ..)).trans (Bool.or_assoc ..).symm

theorem statements_inner {naming : ModuleNaming} {statements : List Statement}
    (hd : (l.source σ.fileIndex).declaration? i = some d)
    (hshape : d.shape = .module naming (some statements)) :
    l.statements (σ.inner i) = statements := by
  change (((l.source σ.fileIndex).declaration? i).bind Declaration.body?).getD [] = statements
  rw [hd, Option.bind_some, Declaration.body?, hshape]
  rfl

theorem isGlobal_inner {naming : ModuleNaming} {body : Option (List Statement)}
    (hd : (l.source σ.fileIndex).declaration? i = some d) (hshape : d.shape = .module naming body) :
    l.isGlobal (σ.inner i) = (naming == .global) := by
  change (((l.source σ.fileIndex).declaration? i).bind (·.naming?) == some .global) = _
  rw [hd, Option.bind_some, Declaration.naming?, hshape]
  rfl

/-- The container in which the body of a module is bound is that of the body, as soon as its owner is
declared there. -/
theorem moduleContainer_opens (hl : ∀ i, (l.source i).IsForest) (hc : l.Opens b c)
    (hi : i ∈ declaredIn (l.statements c.scope))
    (hd : (l.source c.scope.fileIndex).declaration? i = some d) {naming : ModuleNaming}
    {body : Option (List Statement)} (hshape : d.shape = .module naming body) :
    Gives (Bind.moduleContainer c c.scope.fileIndex i d naming body) b fun inner b' =>
      inner.scope = c.scope.inner i ∧ (body.isSome = true →
        (∀ o, inner.owner = some o → b'.DeclaredAt o inner.scope) → l.Opens b' inner) := by
  have hambient := isAmbient_inner hl hi hd
  have hglobal := isGlobal_inner hd hshape
  have hnaming : d.naming? = some naming := by rw [Declaration.naming?, hshape]
  have hexports (hbody : body.isSome = true) : l.exportsAll (c.scope.inner i) =
      (!(naming == .global) && (l.isAmbient (c.scope.inner i) &&
        body.any fun statements => !Bind.listsExports statements)) := by
    obtain ⟨statements, rfl⟩ := Option.isSome_iff_exists.mp hbody
    rw [exportsAll, hglobal, statements_inner hd hshape, Bool.and_assoc, Option.any_some]
  rw [Declaration.opensAmbient, hnaming] at hambient
  cases naming with
  | global =>
    refine ⟨rfl, fun hbody _ => ⟨hglobal.symm, (hexports hbody).symm, ?_,
      (absurd · Bool.noConfusion), fun _ => rfl⟩⟩
    exact (Bool.or_true _).symm.trans hambient.symm
  | string =>
    have hambient : l.isAmbient (c.scope.inner i) = true := hambient.trans (Bool.or_true _)
    refine ⟨rfl, fun hbody howner => ⟨hglobal.symm, ?_, hambient.symm,
      fun _ => ⟨_, rfl, howner _ rfl⟩, (absurd · Bool.noConfusion)⟩⟩
    have hexports := hexports hbody
    rw [hambient] at hexports
    exact hexports.symm
  | identifier =>
    rw [← hc.isAmbient] at hambient
    refine ⟨rfl, fun hbody howner => ⟨hglobal.symm, ?_, hambient.symm,
      fun _ => ⟨_, rfl, howner _ rfl⟩, (absurd · Bool.noConfusion)⟩⟩
    have hexports := hexports hbody
    rw [hambient] at hexports
    exact hexports.symm

/-- A module comes to its site, and its body is bound in a container of its own. -/
theorem moduleContainer_merging (hl : ∀ i, (l.source i).IsForest) (h : l.Merging sites b)
    (hc : l.Opens b c) (hi : i ∈ declaredIn (l.statements c.scope))
    (hd : (l.source c.scope.fileIndex).declaration? i = some d) {naming : ModuleNaming}
    {body : Option (List Statement)} (hshape : d.shape = .module naming body)
    (hnodup : (sites ++ (if naming = .global then [] else [i]).map c.scope.inner).Nodup)
    (horder : l.InOrder b c.scope) :
    Gives (Bind.moduleContainer c c.scope.fileIndex i d naming body) b fun inner b' =>
      l.Merging (sites ++ (if naming = .global then [] else [i]).map c.scope.inner) b' ∧
        inner.scope = c.scope.inner i ∧ (body.isSome = true → l.Opens b' inner) := by
  obtain ⟨hscope, hopens⟩ := moduleContainer_opens hl hc hi hd hshape
  cases naming with
  | global =>
    have hall : l.Merging (sites ++ []) b := by rwa [List.append_nil]
    exact ⟨hall, hscope, fun hbody => hopens hbody nofun⟩
  | string =>
    have hname : d.localName? = none := by rw [Declaration.localName?, hshape]
    obtain ⟨hall, hsite⟩ := ambientModule_merging h hd hname hnodup d.name.text
    exact ⟨hall, hscope, fun hbody => hopens hbody fun o ho => Option.some.inj ho ▸ hsite⟩
  | identifier =>
    have hname : d.localName? = if Bind.isLocal d then some d.name.text else none := by
      rw [Declaration.localName?, hshape]
    obtain ⟨hall, hsite, -⟩ := declareSymbol_merging hl h hc hi hd hname hnodup horder .nameSpace
    exact ⟨hall, hscope, fun hbody => hopens hbody fun o ho => Option.some.inj ho ▸ hsite⟩

/-! ### Statements -/

/-- A step for each of some things in order, each of which comes to sites of its own. -/
theorem forM_merging {β : Type} {f : β → Bind Unit} {added : β → List Site} {all : List β}
    {I : List β → List Site → Bindings → Prop}
    (hf : ∀ done x rest, all = done ++ x :: rest → ∀ sites b,
      (sites ++ (x :: rest).flatMap added).Nodup → I done sites b →
        Gives (f x) b fun _ b' => I (done ++ [x]) (sites ++ added x) b')
    {done xs : List β} (hall : all = done ++ xs) (hnodup : (sites ++ xs.flatMap added).Nodup)
    (h : I done sites b) :
    Gives (xs.forM f) b fun _ b' => I all (sites ++ xs.flatMap added) b' := by
  induction xs generalizing done sites b with
  | nil =>
    have hend : I all (sites ++ []) b := by rwa [hall, List.append_nil, List.append_nil]
    exact hend
  | cons x xs ih =>
    refine .bind (hf done x xs hall sites b hnodup h) fun _ b' h' => ?_
    rw [List.flatMap_cons, ← List.append_assoc] at hnodup ⊢
    exact ih (hall.trans (List.append_cons ..)) hnodup h'

/-- Blocks within keep what is known, as long as they are those of scopes of a file. -/
def KeepsMerging (l : Loaded) (file : FileIndex) (inner : List Statement → List DeclIndex)
    (block : Container → List Statement → Bind Unit) : Prop :=
  ∀ (c : Container) (sites : List Site) (b : Bindings), c.scope.fileIndex = file → l.Opens b c →
    (sites ++ (inner (l.statements c.scope)).map c.scope.inner).Nodup → l.Merging sites b →
      Gives (block c (l.statements c.scope)) b fun _ b' =>
        l.Merging (sites ++ (inner (l.statements c.scope)).map c.scope.inner) b'

variable {inner : List Statement → List DeclIndex} {block : Container → List Statement → Bind Unit}

theorem members_merging (hl : ∀ i, (l.source i).IsForest) (h : l.Merging sites b)
    {s : SymbolIndex} (hs : b.DeclaredAt s (σ.inner i))
    (hd : (l.source σ.fileIndex).declaration? i = some d) {members : List DeclIndex}
    (hshape : d.shape = .enum members) (hnodup : (sites ++ members.map σ.inner).Nodup) :
    Gives (members.forM fun m => Bind.enumMember σ.fileIndex s m
        ((l.source σ.fileIndex).enumMember m).1) b
      fun _ b' => l.Merging (sites ++ members.map σ.inner) b' := by
  rw [List.map_eq_flatMap] at hnodup ⊢
  refine (forM_merging (I := fun _ sites b => l.Merging sites b ∧ b.DeclaredAt s (σ.inner i))
    (fun done m rest hall sites b hnodup ⟨h, hs⟩ => ?_) (List.nil_append _).symm hnodup
    ⟨h, hs⟩).mono fun _ _ h' => h'.1
  have hm : m ∈ members := hall ▸ List.mem_append_right _ List.mem_cons_self
  rw [List.flatMap_cons, ← List.append_assoc] at hnodup
  refine (enumMember_merging hl h hs hd hshape hm hnodup.of_append_left).mono ?_
  exact fun _ b' ⟨h', hgrows⟩ => ⟨h', hgrows.sites s hs⟩

theorem module_merging (hl : ∀ i, (l.source i).IsForest)
    (hblock : l.KeepsMerging c.scope.fileIndex inner block) (h : l.Merging sites b)
    (hc : l.Opens b c) (hi : i ∈ declaredIn (l.statements c.scope))
    (hd : (l.source c.scope.fileIndex).declaration? i = some d) {naming : ModuleNaming}
    {body : Option (List Statement)} (hshape : d.shape = .module naming body)
    (hnodup : (sites ++ ((if naming = .global then [] else [i]) ++
      (body.map inner).getD []).map c.scope.inner).Nodup) (horder : l.InOrder b c.scope) :
    Gives (do
      let container ← Bind.moduleContainer c c.scope.fileIndex i d naming body
      body.forM (block container)) b fun _ b' =>
        l.Merging (sites ++ ((if naming = .global then [] else [i]) ++
          (body.map inner).getD []).map c.scope.inner) b' := by
  rw [List.map_append, ← List.append_assoc] at hnodup ⊢
  refine .bind (moduleContainer_merging hl h hc hi hd hshape hnodup.of_append_left horder) ?_
  rintro container b' ⟨h', hscope, hopens⟩
  cases body with
  | none => exact .pure (by rwa [Option.map_none, Option.getD_none, List.map_nil, List.append_nil])
  | some statements =>
    have hstatements : l.statements container.scope = statements :=
      hscope ▸ statements_inner hd hshape
    have hinner : container.scope.inner = c.scope.inner := by
      rw [hscope]
      rfl
    have hfile : container.scope.fileIndex = c.scope.fileIndex := by
      rw [hscope]
      rfl
    have hall := hblock container
      (sites ++ (if naming = .global then [] else [i]).map c.scope.inner) b' hfile (hopens rfl)
    rw [hstatements, hinner] at hall
    exact hall hnodup h'

theorem declaration_merging (hl : ∀ i, (l.source i).IsForest)
    (hblock : l.KeepsMerging c.scope.fileIndex inner block) (h : l.Merging sites b)
    (hc : l.Opens b c) (hi : i ∈ declaredIn (l.statements c.scope))
    (hnodup : (sites ++ ((l.source c.scope.fileIndex).boundBy inner i).map c.scope.inner).Nodup)
    (horder : l.InOrder b c.scope) :
    Gives (Bind.declaration block (l.source c.scope.fileIndex) c.scope.fileIndex c i) b fun _ b' =>
      l.Merging (sites ++ ((l.source c.scope.fileIndex).boundBy inner i).map c.scope.inner) b' := by
  unfold Bind.declaration
  unfold SourceFile.boundBy at hnodup ⊢
  cases hd : (l.source c.scope.fileIndex).declaration? i with
  | none =>
    rw [hd] at hnodup
    refine Gives.pure (h.skip hnodup fun {τ n e} he hsite => ?_)
    obtain ⟨hfile, hindex⟩ := Site.declaration.inj (List.mem_singleton.mp hsite)
    obtain ⟨-, hd', -⟩ := mem_declarationsOf.mp he
    rw [hfile, hindex, hd] at hd'
    cases hd'
  | some d =>
    rw [hd, Option.map_some] at hnodup
    rw [Option.map_some]
    have hplain (hname : d.localName? = if Bind.isLocal d then some d.name.text else none)
        (hnodup : (sites ++ [c.scope.inner i]).Nodup) (kind : SymbolKind) :=
      declareSymbol_merging hl h hc hi hd hname hnodup horder kind
    dsimp only
    cases hshape : d.shape with
    | module naming body =>
      rw [hshape] at hnodup
      exact module_merging hl hblock h hc hi hd hshape hnodup horder
    | «enum» members =>
      rw [hshape] at hnodup
      rw [List.map_cons, List.append_cons] at hnodup ⊢
      have hname : d.localName? = if Bind.isLocal d then some d.name.text else none := by
        rw [Declaration.localName?, hshape]
      refine .bind (hplain hname hnodup.of_append_left .enum) fun s b' ⟨h', hs, _⟩ => ?_
      exact members_merging hl h' hs hd hshape hnodup
    | enumMember initial =>
      rw [hshape] at hnodup
      have hname : d.localName? = none := by rw [Declaration.localName?, hshape]
      exact .pure (h.skip hnodup fun he hsite =>
        not_mem_declarationsOf hd hname he (List.mem_singleton.mp hsite))
    | _ =>
      rw [hshape] at hnodup
      have hname : d.localName? = if Bind.isLocal d then some d.name.text else none := by
        rw [Declaration.localName?, hshape]
      exact (hplain hname hnodup _).1

theorem importFrom_merging (h : l.Merging sites b) {span : Span} {typeOnly : Bool}
    {default nameSpace : Option Ident} {named : List ImportSpecifier} {specifier : String}
    (hs : Statement.importFrom span typeOnly default nameSpace named specifier ∈
      l.statements c.scope) (f : SourceFile) (file : FileIndex) :
    Gives (Bind.statement block f file c
      (.importFrom span typeOnly default nameSpace named specifier)) b
      fun _ b' => l.Merging sites b' := by
  have halias {b : Bindings} (h : l.Merging sites b) {name : String}
      (hname : name ∈ default.toList.map Ident.text ++ nameSpace.toList.map Ident.text ++
        named.map (·.bound.text)) (target : AliasTarget) :
      Gives (discard (Bind.declareAlias c name target)) b fun _ b' => l.Merging sites b' :=
    (declareAlias_merging h (List.mem_flatMap.mpr ⟨_, hs, hname⟩) target).1
  have hlist {o : Option Ident} {n : Ident} (hn : o = some n) : n.text ∈ o.toList.map Ident.text :=
    List.mem_map_of_mem (Option.mem_toList.mpr hn)
  refine .bind (.forM_option (fun n hn => halias h ?_ _) h) fun _ b' h' => ?_
  · exact List.mem_append_left _ (List.mem_append_left _ (hlist hn))
  refine .bind (.forM_option (fun n hn => halias h' ?_ _) h') fun _ b'' h'' => ?_
  · exact List.mem_append_left _ (List.mem_append_right _ (hlist hn))
  exact .forM (fun n hn b h => halias h
    (List.mem_append_right _ (List.mem_map_of_mem (f := (·.bound.text)) hn)) _) h''

theorem importEquals_merging (h : l.Merging sites b) (hc : l.Opens b c) {span : Span} {name : Ident}
    {isExport : Bool} {target : ImportTarget}
    (hs : Statement.importEquals span name isExport target ∈ l.statements c.scope)
    (f : SourceFile) (file : FileIndex) :
    Gives (Bind.statement block f file c (.importEquals span name isExport target)) b
      fun _ b' => l.Merging sites b' := by
  have hname : name.text ∈ l.importNames c.scope :=
    List.mem_flatMap.mpr ⟨_, hs, List.mem_singleton_self _⟩
  refine .bind (declareAlias_merging h hname (Bind.equalsTarget target)) ?_
  rintro s b' ⟨h', htable, hgrows⟩
  have hc' : l.Opens b' c := hc.mono fun t site => hgrows.sites t (a := site)
  cases isExport with
  | false => exact .pure h'
  | true =>
    refine .forM_option (fun o ho => ?_) h'
    cases hglobal : c.isGlobal with
    | true =>
      rw [hc.ownerless hglobal] at ho
      cases ho
    | false =>
      obtain ⟨o', ho', hsite⟩ := hc'.owner hglobal
      obtain rfl := Option.some.inj (ho'.symm.trans ho)
      exact addMember_merging h' (lt_of_declaredAt hsite) htable
        ⟨c.scope, hsite, span, name, target, hs, rfl⟩

theorem statement_merging (hl : ∀ i, (l.source i).IsForest)
    (hblock : l.KeepsMerging c.scope.fileIndex inner block) (h : l.Merging sites b)
    (hc : l.Opens b c) {s : Statement} (hs : s ∈ l.statements c.scope)
    (hnodup : (sites ++ ((l.source c.scope.fileIndex).boundAt inner s).map c.scope.inner).Nodup)
    (horder : l.InOrder b c.scope) :
    Gives (Bind.statement block (l.source c.scope.fileIndex) c.scope.fileIndex c s) b fun _ b' =>
      l.Merging (sites ++ ((l.source c.scope.fileIndex).boundAt inner s).map c.scope.inner) b' := by
  have hkeep {b : Bindings} (h : l.Merging sites b) :
      l.Merging (sites ++ ([] : List DeclIndex).map c.scope.inner) b :=
    (List.append_nil sites).symm ▸ h
  cases s with
  | declaration i =>
    have hi : i ∈ declaredIn (l.statements c.scope) := List.mem_filterMap.mpr ⟨_, hs, rfl⟩
    exact declaration_merging hl hblock h hc hi hnodup horder
  | importFrom span typeOnly default nameSpace named specifier =>
    exact (importFrom_merging h hs _ _).mono fun _ _ => hkeep
  | importEquals span name isExport target =>
    exact (importEquals_merging h hc hs _ _).mono fun _ _ => hkeep
  | _ => exact .pure (hkeep h)

theorem mem_boundBy (he : e ∈ l.declarationsOf σ n) :
    e.1 ∈ (l.source σ.fileIndex).boundBy inner e.1 := by
  obtain ⟨-, hd, hname⟩ := mem_declarationsOf.mp he
  refine SourceFile.mem_boundBy hd fun hglobal => ?_
  rw [Declaration.localName?] at hname
  unfold Declaration.IsGlobal Declaration.naming? at hglobal
  split at hglobal
  · next hshape =>
    obtain rfl := Option.some.inj hglobal
    rw [hshape] at hname
    cases hname
  · cases hglobal

theorem mem_boundAt (inner : List Statement → List DeclIndex) (he : e ∈ l.declarationsOf σ n)
    {statements : List Statement} (hin : e.1 ∈ declaredIn statements) :
    ∃ s ∈ statements, e.1 ∈ (l.source σ.fileIndex).boundAt inner s := by
  obtain ⟨s, hs, hsome⟩ := List.mem_filterMap.mp hin
  refine ⟨s, hs, ?_⟩
  split at hsome
  · obtain rfl := Option.some.inj hsome
    exact mem_boundBy he
  · cases hsome

/-- What is known in a block when some of its statements are bound. -/
structure Underway (l : Loaded) (c : Container) (done : List Statement) (sites : List Site)
    (b : Bindings) : Prop where
  merging : l.Merging sites b
  opens : l.Opens b c
  bound : ∀ {n e}, e ∈ l.declarationsOf c.scope n → e.1 ∈ declaredIn done →
    c.scope.inner e.1 ∈ sites

/-- The declarations of a block are bound in order, so those that are bound come before those that
are still to come. -/
theorem Underway.inOrder {done rest : List Statement} (h : l.Underway c done sites b)
    (hall : l.statements c.scope = done ++ rest)
    (hnodup : (sites ++ rest.flatMap fun s =>
      ((l.source c.scope.fileIndex).boundAt inner s).map c.scope.inner).Nodup) :
    l.InOrder b c.scope := by
  intro n e he t ht
  have hbefore : e.1 ∈ declaredIn done := by
    have hin := (mem_declarationsOf.mp he).1
    rw [hall, declaredIn_append] at hin
    refine (List.mem_append.mp hin).resolve_right fun hrest => ?_
    obtain ⟨s, hs, hsite⟩ := mem_boundAt inner he hrest
    exact h.merging.fresh hnodup (List.mem_flatMap.mpr ⟨s, hs, List.mem_map_of_mem hsite⟩) t ht
  let find (i : DeclIndex) : Option (DeclIndex × Declaration) :=
    (((l.source c.scope.fileIndex).declaration? i).filter (·.localName? == some n)).map (i, ·)
  have hsplit : l.declarationsOf c.scope n =
      (declaredIn done).filterMap find ++ (declaredIn rest).filterMap find := by
    rw [declarationsOf, hall, declaredIn_append, List.filterMap_append]
  have hfind {e : DeclIndex × Declaration} {is : List DeclIndex} (he : e ∈ is.filterMap find) :
      e.1 ∈ is := by
    obtain ⟨i, hi, hfound⟩ := List.mem_filterMap.mp he
    obtain ⟨d, -, rfl⟩ := Option.map_eq_some_iff.mp hfound
    exact hi
  cases hfirst : (declaredIn done).filterMap find with
  | nil =>
    obtain ⟨-, hd, hname⟩ := mem_declarationsOf.mp he
    have hmem : e ∈ (declaredIn done).filterMap find := by
      refine List.mem_filterMap.mpr ⟨e.1, hbefore, ?_⟩
      simp only [find, hd, Option.filter_some, hname, beq_self_eq_true, if_true, Option.map_some]
    rw [hfirst] at hmem
    cases hmem
  | cons first others =>
    have hmem : first ∈ (declaredIn done).filterMap find := hfirst ▸ List.mem_cons_self
    have hlisted : first ∈ l.declarationsOf c.scope n := hsplit ▸ List.mem_append_left _ hmem
    obtain ⟨u, hu⟩ := h.merging.declared hlisted (h.bound hlisted (hfind hmem))
    exact ⟨first, u, by rw [hsplit, hfirst]; rfl, hu⟩

/-- One more statement of a block is bound. -/
theorem Underway.next (hl : ∀ i, (l.source i).IsForest)
    (hblock : l.KeepsMerging c.scope.fileIndex inner block)
    (hbinds : ∀ container statements, Binds ((inner statements).map c.scope.inner)
      (block container statements)) {done rest : List Statement} {s : Statement}
    (h : l.Underway c done sites b) (hall : l.statements c.scope = done ++ s :: rest)
    (hnodup : (sites ++ (s :: rest).flatMap fun s =>
      ((l.source c.scope.fileIndex).boundAt inner s).map c.scope.inner).Nodup) :
    Gives (Bind.statement block (l.source c.scope.fileIndex) c.scope.fileIndex c s) b fun _ b' =>
      l.Underway c (done ++ [s])
        (sites ++ ((l.source c.scope.fileIndex).boundAt inner s).map c.scope.inner) b' := by
  have horder := h.inOrder hall hnodup
  have hs : s ∈ l.statements c.scope := hall ▸ List.mem_append_right _ List.mem_cons_self
  have hgrows := Bind.statement_binds (f := l.source c.scope.fileIndex) hbinds c s b
  rw [List.flatMap_cons, ← List.append_assoc] at hnodup
  refine ⟨statement_merging hl hblock h.merging h.opens hs hnodup.of_append_left horder,
    h.opens.mono fun t site => hgrows.sites t (a := site), fun {n e} he hin => ?_⟩
  rw [declaredIn_append] at hin
  refine List.mem_append.mpr ((List.mem_append.mp hin).imp (h.bound he) fun hin => ?_)
  obtain ⟨s', hs', hsite⟩ := mem_boundAt inner he hin
  obtain rfl := List.mem_singleton.mp hs'
  exact List.mem_map_of_mem hsite

/-- A block keeps what is known. -/
theorem block_merging (hl : ∀ i, (l.source i).IsForest) (file : FileIndex) (k : ℕ) :
    l.KeepsMerging file ((l.source file).boundIn k) (Bind.block (l.source file) file k) := by
  induction k with
  | zero =>
    intro c sites b _ _ _ h
    have hall : l.Merging (sites ++ []) b := by rwa [List.append_nil]
    exact .pure hall
  | succ k ih =>
    rintro c sites b rfl hc hnodup h
    rw [SourceFile.boundIn_succ, List.map_flatMap] at hnodup ⊢
    have hstatements {b : Bindings} (h : l.Merging sites b) (hc : l.Opens b c) :=
      forM_merging (I := l.Underway c) (fun done s rest hall sites b hnodup h =>
        h.next hl ih (Bind.block_binds k) hall hnodup) (List.nil_append _).symm hnodup
        ⟨h, hc, fun _ hin => nomatch hin⟩
    unfold Bind.block
    cases hall : c.exportsAll with
    | false => exact (hstatements h hc).mono fun _ _ h' => h'.merging
    | true =>
      have hsilent : ∀ σ ∈ b.exportingAll ++ [c.scope], l.exportsAll σ = true := fun σ hσ =>
        (List.mem_append.mp hσ).elim (h.merged.silent σ) fun hσ =>
          List.mem_singleton.mp hσ ▸ hc.exportsAll.symm.trans hall
      refine .bind (P := fun _ b' => l.Merging sites b' ∧ l.Opens b' c) (Bind.modify_gives ?_)
        fun _ b' h' => (hstatements h'.1 h'.2).mono fun _ _ h' => h'.merging
      exact ⟨⟨h.nodup, { h.sound with }, h.owns, { h.merged with silent := hsilent }, h.declared⟩,
        { hc with }⟩

end Loaded

end ApiSurface
