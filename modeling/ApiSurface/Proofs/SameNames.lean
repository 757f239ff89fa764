import ApiSurface.Proofs.MergingBlocks
/-!
Declarations of one name in a bound program. Those of one scope make one symbol unless exports part
them, and so do exported ones in all bodies of a module that exports no import of the name.
-/
namespace ApiSurface

namespace Loaded

open ApiSurface.Bind (Gives After)
open Bindings (Grows)

variable {l : Loaded} {b : Bindings} {sites : List Site} {known : FileIndex → DeclIndex → Prop}

/-! ### Files -/

/-- The symbol of a file that is a module is found under no name, and has no other site. -/
theorem Merged.openFile (h : l.Merged b) (hb : b.Sound known none) {f : FileIndex}
    (hnew : ∀ t, ¬ b.DeclaredAt t (.file f)) {x : Symbol} (hmembers : x.members = [])
    (hsites : x.declarations = [.file f]) :
    l.Merged { b with symbols := b.symbols.push x } := by
  let b' : Bindings := { b with symbols := b.symbols.push x }
  have hdeclared (t : SymbolIndex) (site : Site) :
      b'.DeclaredAt t site ↔ b.DeclaredAt t site ∨ t = b.symbols.size ∧ site = .file f :=
    Bindings.declaredAt_push_site hsites t site
  have hmono (t : SymbolIndex) (site : Site) (ht : b.DeclaredAt t site) : b'.DeclaredAt t site :=
    (hdeclared t site).mpr (Or.inl ht)
  have hinner {t : SymbolIndex} {σ : Site} {i : DeclIndex} (ht : b'.DeclaredAt t (σ.inner i)) :
      b.DeclaredAt t (σ.inner i) :=
    ((hdeclared t _).mp ht).resolve_right fun hlast => Site.noConfusion hlast.2
  have hmember (o : SymbolIndex) (n : String) : b'.member o n = b.member o n :=
    Bindings.member_push hmembers o n
  have hkeeps : b.Keeps b' := Bindings.push_keeps x
  constructor
  case own => exact fun he ht => (h.own he (hinner ht)).keep hkeeps
  case opened =>
    intro σ n i d t he hglobal ht
    obtain ⟨o, ho⟩ := h.opened he hglobal (hinner ht)
    exact ⟨o, hmono o σ ho⟩
  case named => exact fun he hmerges ht => h.named he (hmerges.anti hmono) (hinner ht)
  case owned =>
    intro σ n i d t he ht
    obtain ⟨u, hname, hown⟩ := h.owned he (hinner ht)
    exact ⟨u, hname, hown.keep hkeeps⟩
  case member =>
    intro σ n i d o t he hexports hglobal ho hreexports ht
    have ho : b.DeclaredAt o σ := by
      refine ((hdeclared o σ).mp ho).resolve_right ?_
      rintro ⟨-, rfl⟩
      obtain ⟨o', ho'⟩ := h.opened he hglobal (hinner ht)
      exact hnew o' ho'
    rw [hmember]
    exact h.member he hexports hglobal ho (fun hr => hreexports (hr.mono hmono)) (hinner ht)
  case origin =>
    intro σ n t hglobal ht hown
    have hlt : t < b.symbols.size := hb.lt_of_inTables (Or.inl ⟨false, σ, n, ht⟩)
    obtain ⟨e, he, hsite⟩ := h.origin hglobal ht
      ⟨hlt, (hkeeps.isAlias t hlt).symm.trans hown.2⟩
    exact ⟨e, he, hmono t _ hsite⟩
  case source =>
    intro o n t ht
    rw [hmember] at ht
    rcases h.source ht with hr | ⟨σ, hσ, e, he, hexports, hsite⟩ | ⟨hown, σ, hσ, hname⟩
    · exact Or.inl (hr.mono hmono)
    · exact Or.inr (Or.inl ⟨σ, hmono o σ hσ, e, he, hexports, hmono t _ hsite⟩)
    · exact Or.inr (Or.inr ⟨hown.keep hkeeps, σ, hmono o σ hσ, hname⟩)
  case apart =>
    intro t ht g hg
    have ht : b.InTables t := by
      rcases ht with ht | ⟨o, n, ht⟩ | ht
      · exact Or.inl ht
      · exact Or.inr (Or.inl ⟨o, n, hmember o n ▸ ht⟩)
      · exact Or.inr (Or.inr ht)
    rcases (hdeclared t _).mp hg with hg | ⟨rfl, -⟩
    · exact h.apart ht g hg
    · exact absurd (hb.lt_of_inTables ht) (Nat.lt_irrefl _)
  case file =>
    intro o g σ ho hσ
    rcases (hdeclared o _).mp ho with ho | ⟨rfl, hg⟩
    · have hσ := ((hdeclared o σ).mp hσ).resolve_right fun hlast =>
        absurd (hlast.1 ▸ lt_of_declaredAt ho) (Nat.lt_irrefl _)
      exact h.file ho hσ
    · rcases (hdeclared _ σ).mp hσ with hσ | ⟨-, hσ⟩
      · exact absurd (lt_of_declaredAt hσ) (Nat.lt_irrefl _)
      · exact hσ.trans hg.symm
  case symbolOf => exact fun ht => h.symbolOf (((hdeclared _ _).mp ht).resolve_right nofun)
  case imported =>
    intro σ n t hglobal ht halias
    have hlt : t < b.symbols.size := hb.lt_of_inTables (Or.inl ⟨false, σ, n, ht⟩)
    exact h.imported hglobal ht ((hkeeps.isAlias t hlt).symm.trans halias)
  case silent => exact h.silent

theorem source_of_getElem? {f : LoadedFile} {i : FileIndex} (hf : l.files[i]? = some f) :
    l.source i = f.source := by
  rw [source, Array.getD_eq_getD_getElem?, hf, Option.getD_some]

theorem statements_file {f : LoadedFile} {i : FileIndex} (hf : l.files[i]? = some f) :
    l.statements (.file i) = f.source.statements :=
  congrArg SourceFile.statements (source_of_getElem? hf)

theorem isAmbient_file {f : LoadedFile} {i : FileIndex} (hf : l.files[i]? = some f) :
    l.isAmbient (.file i) = f.declares := by
  rw [isAmbient, Array.getD_eq_getD_getElem?, hf, Option.getD_some]

theorem isGlobal_file {f : LoadedFile} {i : FileIndex} (hf : l.files[i]? = some f) :
    l.isGlobal (.file i) = !f.source.isModule :=
  congrArg (!SourceFile.isModule ·) (source_of_getElem? hf)

/-- The statements of a script are bound for the whole program. -/
theorem opens_script {f : LoadedFile} {i : FileIndex} (hf : l.files[i]? = some f)
    (hmodule : f.source.isModule = false) :
    l.Opens b ⟨.file i, none, true, false, f.declares⟩ := by
  have hglobal := isGlobal_file hf
  rw [hmodule] at hglobal
  exact ⟨hglobal.symm, by rw [exportsAll, hglobal]; rfl, (isAmbient_file hf).symm,
    (absurd · Bool.noConfusion), fun _ => rfl⟩

/-- The statements of a module are bound in its file. -/
theorem opens_module {f : LoadedFile} {i : FileIndex} {s : SymbolIndex}
    (hf : l.files[i]? = some f) (hmodule : f.source.isModule = true)
    (hsite : b.DeclaredAt s (.file i)) : l.Opens b ⟨.file i, some s, false,
      f.declares && !Bind.listsExports f.source.statements, f.declares⟩ := by
  have hglobal := isGlobal_file hf
  rw [hmodule] at hglobal
  exact ⟨hglobal.symm, by rw [exportsAll, hglobal, isAmbient_file hf, statements_file hf]; rfl,
    (isAmbient_file hf).symm, fun _ => ⟨_, rfl, hsite⟩, (absurd · Bool.noConfusion)⟩

theorem file_merging (hl : ∀ i, (l.source i).IsForest) (h : l.Merging sites b) {f : LoadedFile}
    {i : FileIndex} (hf : l.files[i]? = some f) (hnodup : (sites ++ f.sites i).Nodup) :
    Gives (Bind.file f i) b fun _ b' => l.Merging (sites ++ f.sites i) b' := by
  have hblock (c : Container) (sites : List Site) {b : Bindings} (hscope : c.scope = .file i)
      (hc : l.Opens b c) := block_merging hl i (f.source.declarations.size + 1) c sites b
        (hscope ▸ rfl) hc
  unfold LoadedFile.sites at hnodup ⊢
  unfold Bind.file
  cases hmodule : f.source.isModule with
  | false =>
    rw [hmodule] at hnodup
    have hall := hblock _ sites rfl (opens_script (b := b) hf hmodule)
    rw [source_of_getElem? hf, statements_file hf] at hall
    exact hall hnodup h
  | true =>
    rw [hmodule] at hnodup
    rw [if_pos rfl, ← List.append_assoc] at hnodup ⊢
    let x : Symbol := { Bind.fresh (Bind.moduleName f.source.name) .sourceFile none with
      declarations := [Site.file i] }
    let start : Bindings := { b with symbols := b.symbols.push x }
    have hsite : start.DeclaredAt b.symbols.size (.file i) :=
      (Bindings.declaredAt_push_site rfl _ _).mpr (Or.inr ⟨rfl, rfl⟩)
    have hstart : l.Merging (sites ++ [Site.file i]) start := by
      have hnodup : (sites ++ [Site.file i]).Nodup := hnodup.of_append_left
      exact h.grow (Bindings.push_grows rfl) hnodup
        ((h.sound.push rfl).settle fun _ => List.ne_nil_of_mem hsite)
        (h.merged.openFile h.sound (h.fresh hnodup (List.mem_singleton_self _)) rfl rfl)
        fun _ hsite => Site.noConfusion (List.mem_singleton.mp hsite)
    have hown : start.IsOwn b.symbols.size := Bindings.isOwn_push rfl
    have hall := hblock _ (sites ++ [Site.file i]) rfl (opens_module hf hmodule hsite)
    rw [source_of_getElem? hf, statements_file hf] at hall
    have hkeeps (container : Container) : Gives (Bind.block f.source i
        (f.source.declarations.size + 1) container f.source.statements) start
          fun _ b' => After (fun _ _ => True) start b' :=
      Bind.block_keeping _ container _ (fun _ _ => trivial) start start (.start hstart.sound)
    refine .bind (P := fun s b' => s = b.symbols.size ∧ b' = start) ⟨rfl, rfl⟩ ?_
    rintro _ _ ⟨rfl, rfl⟩
    refine .bind (P := fun _ b' => l.Merging _ b' ∧ After (fun _ _ => True) start b')
      ⟨hall hnodup hstart, hkeeps _⟩ ?_
    rintro - b' ⟨h', hkeeps⟩
    refine Bind.modify_gives ?_
    have hown : b'.IsOwn b.symbols.size := hown.keep hkeeps.keeps
    refine ⟨h'.nodup, { h'.sound with modules := fun j t ht => ?_ }, h'.owns, { h'.merged with },
      h'.declared⟩
    rw [Table.get?_insert] at ht
    split at ht
    · exact Option.some.inj ht ▸ hown
    · exact h'.sound.modules j t ht

theorem empty_merging (l : Loaded) : l.Merging [] .empty := by
  have hnone (s : SymbolIndex) (site : Site) : ¬ Bindings.empty.DeclaredAt s site := by
    rw [Bindings.DeclaredAt, Bindings.symbol_of_size_le (by simp [Bindings.empty])]
    exact List.not_mem_nil
  have hmember (o : SymbolIndex) (n : String) : Bindings.empty.member o n = none := by
    rw [Bindings.member, Bindings.symbol_of_size_le (by simp [Bindings.empty])]
    rfl
  have hnamed (g : Bool) (σ : Site) (n : String) : Bindings.empty.named g σ n = none := by
    cases g <;> rfl
  refine ⟨List.nodup_nil, Bindings.sound_empty _, ⟨fun s t site hs => absurd hs (hnone s site),
    fun s site hs => absurd hs (hnone s site)⟩, ?_,
    fun _ hsite => absurd hsite List.not_mem_nil⟩
  constructor
  case own => exact fun _ ht => absurd ht (hnone _ _)
  case opened => exact fun _ _ ht => absurd ht (hnone _ _)
  case named => exact fun _ _ ht => absurd ht (hnone _ _)
  case owned => exact fun _ ht => absurd ht (hnone _ _)
  case member => exact fun _ _ _ _ _ ht => absurd ht (hnone _ _)
  case origin =>
    exact fun _ ht => absurd (hnamed ..) (ne_of_eq_of_ne ht (Option.some_ne_none _))
  case source =>
    exact fun ht => absurd (hmember ..) (ne_of_eq_of_ne ht (Option.some_ne_none _))
  case apart => exact fun _ f => hnone _ _
  case file => exact fun ho => absurd ho (hnone _ _)
  case symbolOf => exact fun ht => absurd ht (hnone _ _)
  case imported =>
    exact fun _ ht => absurd (hnamed ..) (ne_of_eq_of_ne ht (Option.some_ne_none _))
  case silent => exact fun _ hσ => absurd hσ List.not_mem_nil

/-- What is known when all files are bound. -/
theorem bind_merging (hl : ∀ i, (l.source i).IsForest)
    (hnodup : (l.files.toList.zipIdx.flatMap fun (f, i) => f.sites i).Nodup) :
    l.Merging (l.files.toList.zipIdx.flatMap fun (f, i) => f.sites i) l.bind := by
  refine forM_merging (I := fun _ sites b => l.Merging sites b)
    (fun done entry rest hall sites b hnodup h => ?_) (List.nil_append _).symm hnodup
    l.empty_merging
  have hentry : entry ∈ l.files.toList.zipIdx :=
    hall ▸ List.mem_append_right _ List.mem_cons_self
  rw [List.mk_mem_zipIdx_iff_getElem?, Array.getElem?_toList] at hentry
  rw [List.flatMap_cons, ← List.append_assoc] at hnodup
  exact file_merging hl h hentry hnodup.of_append_left

end Loaded

/-! ### What a file binds -/

namespace SourceFile

variable {f : SourceFile} {inner : List Statement → List DeclIndex} {i : DeclIndex}
  {d : Declaration}

theorem boundIn_mono {k m : ℕ} (h : k ≤ m) (statements : List Statement) :
    f.boundIn k statements ⊆ f.boundIn m statements := by
  rw [← placedIn_fst, ← placedIn_fst]
  exact List.map_subset _ (placedIn_mono h statements)

theorem subset_boundBy (hd : f.declaration? i = some d) {statements : List Statement}
    (hbody : d.body? = some statements) : inner statements ⊆ f.boundBy inner i := by
  unfold Declaration.body? at hbody
  unfold boundBy
  rw [hd, Option.map_some]
  split at hbody
  · next naming body hshape =>
    subst hbody
    rw [hshape]
    exact List.subset_append_right _ _
  · cases hbody

theorem boundBy_subset {statements : List Statement} (hi : i ∈ declaredIn statements) (k : ℕ) :
    f.boundBy (f.boundIn k) i ⊆ f.boundIn (k + 1) statements := by
  obtain ⟨s, hs, hsome⟩ := List.mem_filterMap.mp hi
  intro j hj
  refine List.mem_flatMap.mpr ⟨s, hs, ?_⟩
  split at hsome
  · obtain rfl := Option.some.inj hsome
    exact hj
  · cases hsome

/-- A body is nested less deep than its module stands in the table, so binding reaches it. -/
theorem body_reached (h : f.IsForest) (htidy : f.Tidy) {statements : List Statement}
    (hd : f.declaration? i = some d) (hbody : d.body? = some statements) :
    f.boundIn (f.declarations.size - i) statements ⊆
      f.boundIn (f.declarations.size + 1) f.statements := by
  induction i using Nat.strong_induction_on generalizing d statements with
  | _ i ih =>
    have hlt : i < f.declarations.size := (Array.getElem?_eq_some_iff.mp hd).1
    cases hparent : d.parent with
    | none =>
      have hi : i ∈ declaredIn f.statements := (h.root i d hd).mp hparent
      have hin := List.Subset.trans (subset_boundBy hd hbody)
        (boundBy_subset hi f.declarations.size)
      exact List.Subset.trans (boundIn_mono (Nat.sub_le _ _) statements) hin
    | some j =>
      have hji := h.older i d hd j hparent
      obtain ⟨e, he, hchild⟩ := (h.child i d hd j).mp hparent
      unfold Declaration.children at hchild
      split at hchild
      · next members hshape =>
        -- a member of an enum has no body
        obtain ⟨d', hd', initial, hshape'⟩ := htidy.members j e he members hshape i hchild
        obtain rfl := Option.some.inj (hd.symm.trans hd')
        rw [Declaration.body?, hshape'] at hbody
        cases hbody
      · next naming outer hshape =>
        have houter : e.body? = some outer := by rw [Declaration.body?, hshape]
        have hin := List.Subset.trans (subset_boundBy hd hbody)
          (boundBy_subset hchild (f.declarations.size - i))
        have hdeep : f.declarations.size - i + 1 ≤ f.declarations.size - j :=
          Nat.sub_lt_sub_left (Nat.lt_trans hji hlt) hji
        have hstep := List.Subset.trans hin (boundIn_mono hdeep outer)
        exact List.Subset.trans hstep (ih j hji he houter)
      · cases hchild

theorem boundBy_mono {inner' : List Statement → List DeclIndex}
    (h : ∀ statements, inner statements ⊆ inner' statements) (i : DeclIndex) :
    f.boundBy inner i ⊆ f.boundBy inner' i := by
  unfold boundBy
  cases (f.declaration? i).map Declaration.shape with
  | none => exact List.Subset.refl _
  | some shape =>
    cases shape with
    | module naming body =>
      cases body with
      | none => exact List.Subset.refl _
      | some statements =>
        exact List.append_subset_of_subset_of_subset (List.subset_append_left _ _)
          (List.Subset.trans (h statements) (List.subset_append_right _ _))
    | _ => exact List.Subset.refl _

/-- Binding reaches what a declaration in a list of statements makes. -/
theorem boundBy_reached (h : f.IsForest) (htidy : f.Tidy) (hd : f.declaration? i = some d)
    (hmember : ¬ d.IsMember) :
    f.boundBy (f.boundIn 0) i ⊆ f.boundIn (f.declarations.size + 1) f.statements := by
  have hmono (k : ℕ) : f.boundBy (f.boundIn 0) i ⊆ f.boundBy (f.boundIn k) i :=
    boundBy_mono (boundIn_mono k.zero_le) i
  cases hparent : d.parent with
  | none => exact List.Subset.trans (hmono _) (boundBy_subset ((h.root i d hd).mp hparent) _)
  | some j =>
    obtain ⟨e, he, hchild⟩ := (h.child i d hd j).mp hparent
    unfold Declaration.children at hchild
    split at hchild
    · next members hshape =>
      obtain ⟨d', hd', hmember'⟩ := htidy.members j e he members hshape i hchild
      exact absurd (Option.some.inj (hd.symm.trans hd') ▸ hmember') hmember
    · next naming outer hshape =>
      have houter : e.body? = some outer := by rw [Declaration.body?, hshape]
      have hlt : j < f.declarations.size := (Array.getElem?_eq_some_iff.mp he).1
      obtain ⟨k, hk⟩ := Nat.exists_eq_add_of_lt hlt
      have hdeep : k + 1 ≤ f.declarations.size - j := by omega
      have hin : f.boundBy (f.boundIn k) i ⊆ f.boundIn (f.declarations.size - j) outer :=
        List.Subset.trans (boundBy_subset hchild k) (boundIn_mono hdeep outer)
      exact List.Subset.trans (List.Subset.trans (hmono k) hin) (body_reached h htidy he houter)
    · cases hchild

end SourceFile

namespace Loaded

variable {l : Loaded} {σ : Site} {n : String} {e : DeclIndex × Declaration}

theorem mem_files_sites {i : FileIndex} {f : LoadedFile} {j : DeclIndex} (hf : l.files[i]? = some f)
    (hj : j ∈ f.source.boundIn (f.source.declarations.size + 1) f.source.statements) :
    .declaration i j ∈ l.files.toList.zipIdx.flatMap fun (f, i) => f.sites i := by
  refine List.mem_flatMap.mpr ⟨(f, i), ?_, List.mem_append_right _ (List.mem_map_of_mem hj)⟩
  rw [List.mk_mem_zipIdx_iff_getElem?, Array.getElem?_toList]
  exact hf

/-- Binding reaches all declarations with a name. -/
theorem listed_reached (hforest : ∀ i, (l.source i).IsForest)
    (htidy : ∀ (i : FileIndex) (f : LoadedFile), l.files[i]? = some f → f.source.Tidy)
    (he : e ∈ l.declarationsOf σ n) :
    σ.inner e.1 ∈ l.files.toList.zipIdx.flatMap fun (f, i) => f.sites i := by
  obtain ⟨-, hd, hname⟩ := mem_declarationsOf.mp he
  have hf : l.files[σ.fileIndex]? ≠ none := by
    intro hnone
    rw [source, Array.getD_eq_getD_getElem?, hnone] at hd
    cases hd
  obtain ⟨f, hf⟩ := Option.ne_none_iff_exists'.mp hf
  have hsource := source_of_getElem? hf
  have hmember : ¬ e.2.IsMember := by
    rintro ⟨initial, hshape⟩
    rw [Declaration.localName?, hshape] at hname
    cases hname
  have hreached := SourceFile.boundBy_reached (hforest _) (hsource ▸ htidy _ f hf) hd hmember
    (mem_boundBy he)
  exact mem_files_sites hf (hsource ▸ hreached)

end Loaded

namespace Program

variable {fs : FileSystem} {root : Path} {names : List String} {p : Program}

theorem load_forest (h : load fs root names = .ok p) (i : FileIndex) :
    (p.toLoaded.source i).IsForest := by
  cases hf : p.files[i]? with
  | none =>
    have hdefault : p.toLoaded.source i = default := by
      rw [Loaded.source, Array.getD_eq_getD_getElem?, hf]
      rfl
    rw [hdefault]
    exact ⟨.refl _, nofun, nofun, nofun⟩
  | some f =>
    obtain ⟨text, -, hsource⟩ := (Loaded.load_filed (load_bind h).1).1.read f
      (Array.mem_toList_iff.mpr (Array.mem_of_getElem? hf))
    rw [Loaded.source_of_getElem? hf, hsource]
    exact (SourceFile.parse_forest _ _).1

theorem load_merging (h : load fs root names = .ok p) :
    p.toLoaded.Merging (p.files.toList.zipIdx.flatMap fun (f, i) => f.sites i) p.toBindings :=
  (load_bind h).2 ▸ Loaded.bind_merging (load_forest h)
    (sites_nodup_of_tidy fun _ _ hf => load_tidy h hf)

/-- A scope that a symbol is declared at binds names of its own. -/
theorem isGlobal_of_declaredAt (h : load fs root names = .ok p) {o : SymbolIndex} {σ : Site}
    (ho : p.DeclaredAt o σ) : p.isGlobal σ = false := by
  obtain ⟨f, hf, hsite⟩ := exists_file_of_declaredAt h ho
  have hsource := Loaded.source_of_getElem? (l := p.toLoaded) hf
  rcases LoadedFile.mem_sites.mp hsite with ⟨hmodule, hσ⟩ | ⟨j, hj, hσ⟩
  · rw [hσ, Loaded.isGlobal, hsource, hmodule]
    rfl
  · obtain ⟨d, hd, hglobal⟩ := (load_tidy h hf).bound _ j hj
    rw [hσ, Loaded.isGlobal, hsource, hd]
    exact beq_false_of_ne hglobal

/-- Declarations of one name in one scope are declarations of one symbol, whatever their order, as
long as exports do not part them. So are all exported ones in the bodies of a module, as long as
none of the bodies exports an import of the name. -/
theorem same_name_symbols (h : load fs root names = .ok p) :
    (∀ σ n, p.Merges p.toBindings σ n → ∃ s, ∀ e ∈ p.declarationsOf σ n,
      p.symbolOf.get? (σ.fileIndex, e.1) = some s ∧ p.DeclaredAt s (σ.inner e.1)) ∧
    ∀ o n, ¬ p.Reexports p.toBindings o n → ∃ s, ∀ σ, p.DeclaredAt o σ →
      ∀ e ∈ p.declarationsOf σ n, p.exports σ e.2 = true →
        p.symbolOf.get? (σ.fileIndex, e.1) = some s ∧ p.DeclaredAt s (σ.inner e.1) := by
  have hall := load_merging h
  have hdeclared {σ : Site} {n : String} {e : DeclIndex × Declaration}
      (he : e ∈ p.declarationsOf σ n) : ∃ t, p.DeclaredAt t (σ.inner e.1) :=
    hall.declared he (Loaded.listed_reached (load_forest h) (fun _ _ hf => load_tidy h hf) he)
  constructor
  · intro σ n hmerges
    cases hname : p.named (p.isGlobal σ) σ n with
    | none =>
      refine ⟨default, fun e he => ?_⟩
      obtain ⟨t, ht⟩ := hdeclared he
      cases hname.symm.trans (hall.merged.named he hmerges ht)
    | some s =>
      refine ⟨s, fun e he => ?_⟩
      obtain ⟨t, ht⟩ := hdeclared he
      obtain rfl := Option.some.inj (hname.symm.trans (hall.merged.named he hmerges ht))
      exact ⟨hall.merged.symbolOf ht, ht⟩
  · intro o n hreexports
    have hmember {σ : Site} {e : DeclIndex × Declaration} {t : SymbolIndex}
        (ho : p.DeclaredAt o σ) (he : e ∈ p.declarationsOf σ n) (hexports : p.exports σ e.2 = true)
        (ht : p.DeclaredAt t (σ.inner e.1)) : p.toBindings.member o n = some t :=
      hall.merged.member he hexports (isGlobal_of_declaredAt h ho) ho hreexports ht
    cases hname : p.toBindings.member o n with
    | none =>
      refine ⟨default, fun σ ho e he hexports => ?_⟩
      obtain ⟨t, ht⟩ := hdeclared he
      cases hname.symm.trans (hmember ho he hexports ht)
    | some s =>
      refine ⟨s, fun σ ho e he hexports => ?_⟩
      obtain ⟨t, ht⟩ := hdeclared he
      obtain rfl := Option.some.inj (hname.symm.trans (hmember ho he hexports ht))
      exact ⟨hall.merged.symbolOf ht, ht⟩

/-- A module with two bodies, in the first of which an interface is declared twice. -/
def bodiesFiles : FileTree := .ofList
  [("/p/index.ts", "export namespace N \x7b export interface X \x7b\x7d interface X \x7b\x7d \x7d\n" ++
    "export namespace N \x7b export interface X \x7b\x7d \x7d")]

theorem bodies_same_symbol : ∃ p,
    load bodiesFiles.fileSystem (.ofText "/p") ["index.ts"] = .ok p ∧
      ∃ s, ∀ i ∈ [1, 2, 4], p.symbolOf.get? (0, i) = some s := by
  have hrun : (load bodiesFiles.fileSystem (.ofText "/p") ["index.ts"]).toOption.map (fun p =>
      ((p.declarationsOf (.declaration 0 0) "X").map fun e =>
          (e.1, p.exports (.declaration 0 0) e.2),
        (p.declarationsOf (.declaration 0 3) "X").map fun e =>
          (e.1, p.exports (.declaration 0 3) e.2),
        (p.symbol 1).declarations, (p.symbol 1).declarations.all fun σ => (p.statements σ).all fun
          | .importEquals .. => false
          | _ => true)) =
      some ([(1, true), (2, false)], [(4, true)], [.declaration 0 0, .declaration 0 3], true) := by
    decide +kernel
  obtain ⟨p, hload, hrun⟩ := Walk.exists_of_toOption_map hrun
  simp only [Prod.mk.injEq] at hrun
  obtain ⟨hfirst, hlast, hsites, hplain⟩ := hrun
  have hopens (σ : Site) : p.DeclaredAt 1 σ ↔ σ = .declaration 0 0 ∨ σ = .declaration 0 3 := by
    rw [Bindings.DeclaredAt, hsites]
    simp
  have hreexports : ¬ p.Reexports p.toBindings 1 "X" := by
    rintro ⟨σ, hσ, span, name, target, hin, -⟩
    exact Bool.false_ne_true (List.all_eq_true.mp (List.all_eq_true.mp hplain σ hσ) _ hin)
  have hmerges : p.Merges p.toBindings (.declaration 0 0) "X" := by
    refine Or.inr (Or.inr fun o ho => ?_)
    obtain rfl := (load_merging hload).owns.1 o 1 _ ho ((hopens _).mpr (Or.inl rfl))
    refine ⟨hreexports, Or.inr (Or.inl fun e he => ?_)⟩
    have hhead := congrArg List.head? hfirst
    rw [List.head?_map, he] at hhead
    exact (Prod.mk.inj (Option.some.inj hhead)).2
  obtain ⟨hscope, hbodies⟩ := same_name_symbols hload
  obtain ⟨s, hs⟩ := hscope _ "X" hmerges
  obtain ⟨t, ht⟩ := hbodies 1 "X" hreexports
  have hmem (σ : Site) (entry : DeclIndex × Bool)
      (h : entry ∈ (p.declarationsOf σ "X").map fun e => (e.1, p.exports σ e.2)) :
      ∃ e ∈ p.declarationsOf σ "X", e.1 = entry.1 ∧ p.exports σ e.2 = entry.2 := by
    obtain ⟨e, he, rfl⟩ := List.mem_map.mp h
    exact ⟨e, he, rfl, rfl⟩
  obtain ⟨e₁, he₁, hi₁, hexported₁⟩ := hmem (.declaration 0 0) (1, true) (hfirst ▸ by simp)
  obtain ⟨e₂, he₂, hi₂, -⟩ := hmem (.declaration 0 0) (2, false) (hfirst ▸ by simp)
  obtain ⟨e₃, he₃, hi₃, hexported₃⟩ := hmem (.declaration 0 3) (4, true) (hlast ▸ by simp)
  have hs₁ := (hs e₁ he₁).1
  have hs₂ := (hs e₂ he₂).1
  have ht₁ := (ht _ ((hopens _).mpr (Or.inl rfl)) e₁ he₁ hexported₁).1
  have ht₃ := (ht _ ((hopens _).mpr (Or.inr rfl)) e₃ he₃ hexported₃).1
  -- the first declaration is in the body and among the exported ones
  obtain rfl := Option.some.inj (hs₁.symm.trans ht₁)
  rw [hi₁] at hs₁
  rw [hi₂] at hs₂
  rw [hi₃] at ht₃
  refine ⟨p, hload, s, fun i hi => ?_⟩
  rcases List.mem_cons.mp hi with rfl | hi
  · exact hs₁
  rcases List.mem_cons.mp hi with rfl | hi
  · exact hs₂
  · exact List.mem_singleton.mp hi ▸ ht₃

/-- The second body of a module declares an interface for itself and then exports one. -/
def partedFiles : FileTree := .ofList
  [("/p/index.ts", "export namespace N \x7b export interface X \x7b\x7d \x7d\n" ++
    "export namespace N \x7b interface X \x7b\x7d  export interface X \x7b\x7d \x7d")]

/-- Two interfaces of one name in one body are two symbols. -/
theorem exported_interface_parts : ∃ p,
    load partedFiles.fileSystem (.ofText "/p") ["index.ts"] = .ok p ∧
      (p.declarationsOf (.declaration 0 2) "X").map Prod.fst = [3, 4] ∧
      p.symbolOf.get? (0, 3) = some 3 ∧ p.symbolOf.get? (0, 4) = some 2 := by
  have hrun : (load partedFiles.fileSystem (.ofText "/p") ["index.ts"]).toOption.map (fun p =>
      ((p.declarationsOf (.declaration 0 2) "X").map Prod.fst, p.symbolOf.get? (0, 3),
        p.symbolOf.get? (0, 4))) = some ([3, 4], some 3, some 2) := by
    decide +kernel
  obtain ⟨p, hload, hrun⟩ := Walk.exists_of_toOption_map hrun
  simp only [Prod.mk.injEq] at hrun
  exact ⟨p, hload, hrun⟩

end Program

end ApiSurface
