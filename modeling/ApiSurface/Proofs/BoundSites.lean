import ApiSurface.Proofs.Tables
import ApiSurface.Program
import Mathlib
/-!
Which sites the symbols of a program are declared at. Binding only adds to what symbols have, and it
adds each site that it comes to at most once, so no site belongs to two symbols.
-/
namespace ApiSurface

namespace SourceFile

/-- The declarations in one: itself, unless it is a block for the whole program, and the members of
an enum or what the body of a module makes. -/
def boundBy (f : SourceFile) (inner : List Statement → List DeclIndex) (i : DeclIndex) :
    List DeclIndex :=
  match (f.declaration? i).map Declaration.shape with
  | some (.module naming body) =>
    (if naming = .global then [] else [i]) ++ (body.map inner).getD []
  | some (.enum members) => i :: members
  | _ => [i]

/-- The declarations that some statements make in order, bodies in them at most `n` deep. -/
def boundIn (f : SourceFile) : ℕ → List Statement → List DeclIndex
  | 0, _ => []
  | n+1, statements => statements.flatMap fun s =>
    match s with
    | .declaration i => f.boundBy (f.boundIn n) i
    | _ => []

end SourceFile

namespace Bindings

variable {b b' b'' : Bindings}

/-- The site is one of those that a symbol is declared at. -/
def DeclaredAt (b : Bindings) (s : SymbolIndex) (site : Site) : Prop :=
  site ∈ (b.symbol s).declarations

/-- No site belongs to two symbols, and all that belong to one are among some given ones. -/
def Owns (b : Bindings) (sites : List Site) : Prop :=
  (∀ s t site, b.DeclaredAt s site → b.DeclaredAt t site → s = t) ∧
    ∀ s site, b.DeclaredAt s site → site ∈ sites

/-- What binding does when it comes to some sites: nothing that symbols have is taken from them,
modules by name come to be ambient modules, and each of the sites is given to at most one symbol. -/
structure Grows (added : List Site) (b b' : Bindings) : Prop where
  size : b.symbols.size ≤ b'.symbols.size
  sites : ∀ s, (b.symbol s).declarations ⊆ (b'.symbol s).declarations
  kinds : ∀ s, (b.symbol s).kinds ⊆ (b'.symbol s).kinds
  modules : b'.modules = b.modules
  ambient : ∀ name s, b'.ambient.get? name = some s →
    b.ambient.get? name = some s ∨ (b'.symbol s).isA .ambientModule = true
  owns : ∀ sites, (sites ++ added).Nodup → b.Owns sites → b'.Owns (sites ++ added)

theorem Owns.mono {sites sites' : List Site} (h : b.Owns sites) (hsub : sites ⊆ sites') :
    b.Owns sites' :=
  ⟨h.1, fun s site hsite => hsub (h.2 s site hsite)⟩

theorem Grows.refl (b : Bindings) : Grows [] b b where
  size := le_refl _
  sites _ := List.Subset.refl _
  kinds _ := List.Subset.refl _
  modules := rfl
  ambient _ _ := Or.inl
  owns sites _ h := by simpa using h

theorem isA_mono {s t : Symbol} (h : s.kinds ⊆ t.kinds) {k : SymbolKind}
    (hs : s.isA k = true) : t.isA k = true := by
  simp only [Symbol.isA, List.contains_iff_mem] at hs ⊢
  exact h hs

theorem Grows.trans {added added' : List Site} (h : Grows added b b') (h' : Grows added' b' b'') :
    Grows (added ++ added') b b'' where
  size := h.size.trans h'.size
  sites s := List.Subset.trans (h.sites s) (h'.sites s)
  kinds s := List.Subset.trans (h.kinds s) (h'.kinds s)
  modules := h'.modules.trans h.modules
  ambient name s hs := by
    rcases h'.ambient name s hs with hs | hs
    · exact (h.ambient name s hs).imp (fun hs => hs) (isA_mono (h'.kinds s))
    · exact Or.inr hs
  owns sites hd hb := by
    rw [← List.append_assoc] at hd ⊢
    exact h'.owns _ hd (h.owns _ (List.Nodup.of_append_left hd) hb)

/-- Fewer sites may be added than are come to. -/
theorem Grows.weaken {added added' : List Site} (h : Grows added b b')
    (hsub : added.Sublist added') : Grows added' b b' where
  size := h.size
  sites := h.sites
  kinds := h.kinds
  modules := h.modules
  ambient := h.ambient
  owns sites hd hb := by
    have hd' : (sites ++ added).Nodup := hd.sublist (hsub.append_left sites)
    exact (h.owns sites hd' hb).mono (hsub.append_left sites).subset

theorem symbol_update (b : Bindings) (s t : SymbolIndex) (f : Symbol → Symbol) :
    (b.update s f).symbol t =
      if t = s ∧ s < b.symbols.size then f (b.symbol s) else b.symbol t := by
  simp only [symbol, update, Array.getD_eq_getD_getElem?, Array.getElem?_modify]
  by_cases hts : s = t
  · subst hts
    by_cases hs : s < b.symbols.size <;> simp [hs]
  · simp [hts, Ne.symm hts]

/-- A symbol that changes otherwise than in its sites. -/
theorem update_grows (s : SymbolIndex) {f : Symbol → Symbol}
    (hsites : ∀ o, (f o).declarations = o.declarations) (hkinds : ∀ o, o.kinds ⊆ (f o).kinds) :
    Grows [] b (b.update s f) := by
  have hsame (t : SymbolIndex) :
      ((b.update s f).symbol t).declarations = (b.symbol t).declarations := by
    rw [symbol_update]
    split
    · next h => rw [hsites, h.1]
    · rfl
  constructor
  case size => simp [update]
  case sites => exact fun t => by rw [hsame t]; exact List.Subset.refl _
  case kinds =>
    intro t
    rw [symbol_update]
    split
    · next h => exact h.1 ▸ hkinds _
    · exact List.Subset.refl _
  case modules => rfl
  case ambient => exact fun name s => Or.inl
  case owns =>
    intro sites _ hb
    rw [List.append_nil]
    unfold Owns DeclaredAt at hb ⊢
    simpa only [hsame] using hb

/-- What is known of names and members says nothing of symbols. -/
theorem Grows.of_symbols {b' : Bindings} (hsymbols : b'.symbols = b.symbols)
    (hmodules : b'.modules = b.modules) (hambient : b'.ambient = b.ambient) : Grows [] b b' := by
  have hsame (s : SymbolIndex) : b'.symbol s = b.symbol s := by rw [symbol, symbol, hsymbols]
  constructor
  case size => rw [hsymbols]
  case sites => exact fun s => by rw [hsame]; exact List.Subset.refl _
  case kinds => exact fun s => by rw [hsame]; exact List.Subset.refl _
  case modules => exact hmodules
  case ambient => exact fun name s hs => Or.inl (hambient ▸ hs)
  case owns =>
    intro sites _ hb
    rw [List.append_nil]
    unfold Owns DeclaredAt at hb ⊢
    simpa only [hsame] using hb

/-- A module that gets a name. -/
theorem ambient_grows {s : SymbolIndex} (hs : (b.symbol s).isA .ambientModule = true)
    (name : String) : Grows [] b { b with ambient := b.ambient.insert name s } where
  size := le_refl _
  sites _ := List.Subset.refl _
  kinds _ := List.Subset.refl _
  modules := rfl
  ambient other t ht := by
    rw [Table.get?_insert] at ht
    split at ht
    · exact Or.inr (Option.some.inj ht ▸ hs)
    · exact Or.inl ht
  owns sites _ hb := by
    rw [List.append_nil]
    exact hb

theorem symbol_push (b : Bindings) (s : Symbol) (t : SymbolIndex) :
    ({ b with symbols := b.symbols.push s } : Bindings).symbol t =
      if t = b.symbols.size then s else b.symbol t := by
  simp only [symbol, Array.getD_eq_getD_getElem?, Array.getElem?_push]
  split <;> rfl

/-- A new symbol is the first to come to the sites that it comes with. -/
theorem push_grows {s : Symbol} {added : List Site} (hs : s.declarations = added) :
    Grows added b { b with symbols := b.symbols.push s } := by
  have hnone : b.symbol b.symbols.size = default := symbol_of_size_le (le_refl _)
  constructor
  case size => simp
  case sites =>
    intro t
    rw [symbol_push]
    split
    · next h =>
      rw [h, hnone]
      exact List.nil_subset _
    · exact List.Subset.refl _
  case kinds =>
    intro t
    rw [symbol_push]
    split
    · next h =>
      rw [h, hnone]
      exact List.nil_subset _
    · exact List.Subset.refl _
  case modules => rfl
  case ambient => exact fun name s => Or.inl
  case owns =>
    intro sites hd hb
    have hnew : ∀ site ∈ added, site ∉ sites := fun site hsite hin =>
      (List.nodup_append.mp hd).2.2 _ hin _ hsite rfl
    unfold Owns DeclaredAt
    simp only [symbol_push]
    refine ⟨fun t u site ht hu => ?_, fun t site ht => ?_⟩
    · split at ht <;> split at hu
      · next h h' => exact h.trans h'.symm
      · exact absurd (hb.2 u site hu) (hnew site (hs ▸ ht))
      · exact absurd (hb.2 t site ht) (hnew site (hs ▸ hu))
      · exact hb.1 t u site ht hu
    · split at ht
      · exact List.mem_append_right _ (hs ▸ ht)
      · exact List.mem_append_left _ (hb.2 t site ht)

/-- A site that comes to a symbol comes to no other one. -/
theorem addDeclaration_grows (s : SymbolIndex) (file : FileIndex) (i : DeclIndex) :
    Grows [.declaration file i] b (b.addDeclaration s file i) := by
  have hmem (t : SymbolIndex) (site : Site) (h : (b.addDeclaration s file i).DeclaredAt t site) :
      b.DeclaredAt t site ∨ t = s ∧ site = .declaration file i := by
    change site ∈ ((b.update s _).symbol t).declarations at h
    rw [symbol_update] at h
    split at h
    · next hts =>
      unfold Symbol.addSite at h
      split at h
      · exact Or.inl (hts.1 ▸ h)
      · rcases List.mem_append.mp h with h | h
        · exact Or.inl (hts.1 ▸ h)
        · exact Or.inr ⟨hts.1, List.mem_singleton.mp h⟩
    · exact Or.inl h
  constructor
  case size => simp [addDeclaration, update]
  case sites =>
    intro t
    change _ ⊆ ((b.update s _).symbol t).declarations
    rw [symbol_update]
    split
    · next hts =>
      rw [hts.1, Symbol.addSite]
      split
      · exact List.Subset.refl _
      · exact List.subset_append_left _ _
    · exact List.Subset.refl _
  case kinds =>
    intro t
    change _ ⊆ ((b.update s _).symbol t).kinds
    rw [symbol_update]
    split
    · next hts =>
      rw [hts.1, Symbol.addSite]
      split <;> exact List.Subset.refl _
    · exact List.Subset.refl _
  case modules => rfl
  case ambient => exact fun name s => Or.inl
  case owns =>
    intro sites hd hb
    have hnew : Site.declaration file i ∉ sites := by
      intro hin
      exact (List.nodup_append.mp hd).2.2 _ hin _ (List.mem_singleton_self _) rfl
    refine ⟨fun t u site ht hu => ?_, fun t site ht => ?_⟩
    · rcases hmem t site ht with hold | ⟨rfl, rfl⟩
      · rcases hmem u site hu with hold' | ⟨rfl, rfl⟩
        · exact hb.1 t u site hold hold'
        · exact absurd (hb.2 t _ hold) hnew
      · rcases hmem u _ hu with hold' | ⟨rfl, -⟩
        · exact absurd (hb.2 u _ hold') hnew
        · rfl
    · rcases hmem t site ht with ht | ⟨-, rfl⟩
      · exact List.mem_append_left _ (hb.2 t site ht)
      · exact List.mem_append_right _ (List.mem_singleton_self _)

end Bindings

namespace Bind

open Bindings

variable {α β : Type}

/-- A step that comes to some sites. -/
def Binds (added : List Site) (x : Bind α) : Prop := ∀ b, Grows added b (x.run b).2

variable {added added' : List Site}

theorem Binds.weaken {x : Bind α} (h : Binds added x) (hsub : added.Sublist added') :
    Binds added' x :=
  fun b => (h b).weaken hsub

theorem Binds.pure (a : α) : Binds [] (Pure.pure a : Bind α) := Grows.refl

theorem Binds.bind {x : Bind α} {f : α → Bind β} (hx : Binds added x)
    (hf : ∀ a, Binds added' (f a)) : Binds (added ++ added') (x >>= f) :=
  fun b => (hx b).trans (hf _ _)

theorem Binds.seq {x : Bind α} {f : α → Bind β} (hx : Binds [] x)
    (hf : ∀ a, Binds added (f a)) : Binds added (x >>= f) :=
  hx.bind hf

theorem Binds.then {x : Bind α} {f : α → Bind β} (hx : Binds added x)
    (hf : ∀ a, Binds [] (f a)) : Binds added (x >>= f) :=
  (hx.bind hf).weaken (by simp)

/-- What depends on all that is bound so far. -/
theorem Binds.get {f : Bindings → Bind β} (hf : ∀ b, Binds added (f b)) :
    Binds added ((MonadState.get : Bind Bindings) >>= f) :=
  fun b => hf b b

theorem modify_binds {f : Bindings → Bindings} (hf : ∀ b, Grows added b (f b)) :
    Binds added (modify f : Bind Unit) :=
  hf

theorem Binds.discard {x : Bind α} (h : Binds added x) : Binds added (Functor.discard x) := h

theorem Binds.forM {f : β → Bind Unit} {sites : β → List Site} (hf : ∀ x, Binds (sites x) (f x))
    (l : List β) : Binds (l.flatMap sites) (l.forM f) := by
  induction l with
  | nil => exact .pure ()
  | cons x l ih => exact (hf x).bind fun _ => ih

theorem Binds.forM_option {f : β → Bind Unit} (hf : ∀ x, Binds added (f x)) (o : Option β) :
    Binds added (o.forM f) := by
  cases o with
  | none => exact Binds.weaken (.pure ()) (List.nil_sublist _)
  | some x => exact hf x

theorem allocate_binds {s : Symbol} (hs : s.declarations = added) : Binds added (allocate s) :=
  fun _ => push_grows hs

theorem fresh_binds (name : String) (kind : SymbolKind) (parent : Option SymbolIndex) :
    Binds [] (allocate (fresh name kind parent)) :=
  allocate_binds rfl

theorem bindName_binds (c : Container) (name : String) (s : SymbolIndex) :
    Binds [] (modify (·.bindName c name s)) := by
  apply modify_binds
  intro b
  unfold bindName
  split <;> exact .of_symbols rfl rfl rfl

theorem addMember_binds (owner : SymbolIndex) (name : String) (s : SymbolIndex) :
    Binds [] (modify (·.addMember owner name s)) :=
  modify_binds fun _ => update_grows owner (fun _ => rfl) fun _ => List.Subset.refl _

theorem addDeclaration_binds (s : SymbolIndex) (file : FileIndex) (i : DeclIndex) :
    Binds [.declaration file i] (modify (·.addDeclaration s file i)) :=
  modify_binds fun _ => addDeclaration_grows s file i

theorem addKind_binds (s : SymbolIndex) (kind : SymbolKind) :
    Binds [] (modify (·.update s (·.addKind kind))) := by
  apply modify_binds
  intro b
  refine update_grows s (fun o => ?_) fun o => ?_
  · unfold Symbol.addKind
    split <;> rfl
  · unfold Symbol.addKind
    split
    · exact List.Subset.refl _
    · exact List.subset_append_left _ _

/-- The names under which a symbol is found after it got a site. -/
theorem name_binds (c : Container) (name : String) (s : SymbolIndex) (isLocal : Bool)
    (owner : Option SymbolIndex) :
    Binds [] (do
      if isLocal then modify (·.bindName c name s)
      if let some o := owner then modify (·.addMember o name s)
      return s) := by
  have hmember : Binds [] (do
      if let some o := owner then modify (·.addMember o name s)
      return s) := by
    cases owner with
    | none => exact .pure s
    | some o => exact (addMember_binds o name s).seq fun _ => .pure s
  cases isLocal with
  | false => exact hmember
  | true => exact (bindName_binds c name s).seq fun _ => hmember

theorem declareSymbol_binds (c : Container) (file : FileIndex) (i : DeclIndex) (d : Declaration)
    (kind : SymbolKind) (exported : Bool) :
    Binds [.declaration file i] (declareSymbol c file i d kind exported) := by
  apply Binds.get
  intro b
  dsimp only
  split
  · exact (addKind_binds _ kind).seq fun _ => (Binds.pure _).seq fun s =>
      (addDeclaration_binds s file i).then fun _ => name_binds c _ s _ _
  · exact (fresh_binds _ _ _).seq fun s =>
      (addDeclaration_binds s file i).then fun _ => name_binds c _ s _ _

theorem declareAlias_binds (c : Container) (name : String) (target : AliasTarget) :
    Binds [] (declareAlias c name target) := by
  apply Binds.get
  intro b
  dsimp only
  split
  · exact .pure _
  · refine Binds.seq (allocate_binds ?_) fun s => (bindName_binds c name s).seq fun _ => .pure s
    rfl

theorem ambientModule_run (name : String) (b : Bindings) :
    (ambientModule name).run b = match b.ambient.get? name with
      | some s => (s, b)
      | none => (b.symbols.size,
          { b with
            symbols := b.symbols.push (fresh name .ambientModule none)
            ambient := b.ambient.insert name b.symbols.size }) := by
  have hget (f : Bindings → Bind SymbolIndex) : (do f (← MonadState.get)).run b = (f b).run b := rfl
  rw [ambientModule, hget]
  cases b.ambient.get? name <;> rfl

theorem ambientModule_binds (name : String) : Binds [] (ambientModule name) := by
  intro b
  rw [ambientModule_run]
  split
  · exact .refl b
  · have hpush := push_grows (b := b) (s := fresh name .ambientModule none) rfl
    refine hpush.trans (ambient_grows ?_ name)
    rw [symbol_push, if_pos rfl]
    rfl

theorem enumMember_binds (file : FileIndex) (owner : SymbolIndex) (i : DeclIndex)
    (name : String) : Binds [.declaration file i] (enumMember file owner i name) := by
  apply Binds.get
  intro b
  dsimp only
  split
  · exact (Binds.pure _).seq fun s => addDeclaration_binds s file i
  · exact (fresh_binds _ _ _).seq fun s => (addMember_binds owner name s).seq fun _ =>
      (Binds.pure _).seq fun s => addDeclaration_binds s file i

theorem moduleContainer_binds (c : Container) (file : FileIndex) (i : DeclIndex) (d : Declaration)
    (naming : ModuleNaming) (body : Option (List Statement)) :
    Binds ((if naming = .global then [] else [i]).map (.declaration file))
      (moduleContainer c file i d naming body) := by
  unfold moduleContainer
  cases naming with
  | global => exact .pure _
  | string =>
    exact (ambientModule_binds _).seq fun s => (addDeclaration_binds s file i).then fun _ => .pure _
  | identifier => exact (declareSymbol_binds c file i d _ _).then fun s => .pure _

variable {f : SourceFile} {file : FileIndex}

/-- A declaration comes to its own site and to those in it. -/
theorem declaration_binds {block : Container → List Statement → Bind Unit}
    {inner : List Statement → List DeclIndex}
    (hblock : ∀ c statements,
      Binds ((inner statements).map (Site.declaration file)) (block c statements))
    (c : Container) (i : DeclIndex) :
    Binds ((f.boundBy inner i).map (Site.declaration file)) (declaration block f file c i) := by
  unfold declaration SourceFile.boundBy
  cases hd : f.declaration? i with
  | none => exact Binds.weaken (.pure _) (List.nil_sublist _)
  | some d =>
    rw [Option.map_some]
    dsimp only
    cases d.shape with
    | module naming body =>
      rw [List.map_append]
      refine (moduleContainer_binds c file i d naming body).bind fun container => ?_
      cases body with
      | none => exact .pure _
      | some statements => exact hblock container statements
    | «enum» members =>
      refine (declareSymbol_binds c file i d _ _).bind fun s => ?_
      have hmembers := Binds.forM (fun m => enumMember_binds file s m (f.enumMember m).1) members
      rwa [← List.map_eq_flatMap] at hmembers
    | enumMember initial => exact Binds.weaken (.pure _) (List.nil_sublist _)
    | _ => exact Binds.discard (declareSymbol_binds c file i d _ _)

theorem statement_binds {block : Container → List Statement → Bind Unit}
    {inner : List Statement → List DeclIndex}
    (hblock : ∀ c statements,
      Binds ((inner statements).map (Site.declaration file)) (block c statements))
    (c : Container) (s : Statement) :
    Binds ((match s with
      | .declaration i => f.boundBy inner i
      | _ => []).map (Site.declaration file)) (statement block f file c s) := by
  have halias (name : String) (target : AliasTarget) :
      Binds [] (discard (declareAlias c name target)) :=
    (declareAlias_binds c name target).discard
  cases s with
  | declaration i => exact declaration_binds hblock c i
  | importFrom span typeOnly default nameSpace named specifier =>
    refine (Binds.forM_option (fun n => halias _ _) default).seq fun _ => ?_
    refine (Binds.forM_option (fun n => halias _ _) nameSpace).seq fun _ => ?_
    have hnamed := Binds.forM (fun n : ImportSpecifier =>
      halias n.bound.text (.export specifier n.imported.text)) named
    exact hnamed.weaken (by simp)
  | importEquals span name isExport target =>
    refine (declareAlias_binds c name.text (equalsTarget target)).seq fun s => ?_
    cases isExport with
    | false => exact .pure _
    | true => exact Binds.forM_option (fun o => addMember_binds o name.text s) c.owner
  | _ => exact .pure _

/-- A block comes to the sites of its statements in order. -/
theorem block_binds (n : ℕ) (c : Container) (statements : List Statement) :
    Binds ((f.boundIn n statements).map (Site.declaration file)) (block f file n c statements) := by
  induction n generalizing c statements with
  | zero => exact .pure _
  | succ n ih =>
    have hstatements := Binds.forM (f := statement (block f file n) f file c)
      (statement_binds ih c) statements
    rw [← List.map_flatMap] at hstatements
    have hexporting : Binds [] (modify fun b : Bindings =>
        { b with exportingAll := b.exportingAll ++ [c.scope] } : Bind Unit) :=
      modify_binds fun b => .of_symbols rfl rfl rfl
    unfold block
    cases c.exportsAll with
    | false => exact hstatements
    | true => exact hexporting.seq fun _ => hstatements

end Bind

/-- The sites that binding comes to in a file: the file itself if it is a module, and what its
statements declare. -/
def LoadedFile.sites (f : LoadedFile) (i : FileIndex) : List Site :=
  (if f.source.isModule then [.file i] else []) ++
    (f.source.boundIn (f.source.declarations.size+1) f.source.statements).map (.declaration i)

namespace Bind

open Bindings

/-- A file that is a module gets a symbol of its own. -/
theorem file_run_module {f : LoadedFile} (hf : f.source.isModule = true) (i : FileIndex)
    (b : Bindings) : ∃ b', Grows (f.sites i) b b' ∧
      ((Bind.file f i).run b).2 = { b' with modules := b'.modules.insert i b.symbols.size } ∧
      b'.DeclaredAt b.symbols.size (.file i) ∧
      (b'.symbol b.symbols.size).isA .sourceFile = true := by
  let symbol : Symbol :=
    { fresh (moduleName f.source.name) .sourceFile none with declarations := [.file i] }
  let start : Bindings := { b with symbols := b.symbols.push symbol }
  have hpush : Grows [.file i] b start := push_grows rfl
  let container : Container :=
    ⟨.file i, some b.symbols.size, false, f.declares && !listsExports f.source.statements,
      f.declares⟩
  let after := ((block f.source i (f.source.declarations.size+1) container
    f.source.statements).run start).2
  have hblock : Grows ((f.source.boundIn (f.source.declarations.size+1)
      f.source.statements).map (.declaration i)) start after :=
    block_binds _ container f.source.statements start
  have hsymbol : start.symbol b.symbols.size = symbol := by rw [symbol_push, if_pos rfl]
  refine ⟨after, ?_, ?_, hblock.sites _ ?_, isA_mono (hblock.kinds _) ?_⟩
  · unfold LoadedFile.sites
    rw [if_pos hf]
    exact hpush.trans hblock
  · unfold Bind.file
    simp only [hf, if_true]
    rfl
  · rw [hsymbol]
    exact List.mem_singleton_self _
  · rw [hsymbol]
    rfl

theorem file_run_script {f : LoadedFile} (hf : f.source.isModule = false) (i : FileIndex)
    (b : Bindings) : Grows (f.sites i) b ((Bind.file f i).run b).2 := by
  let container : Container := ⟨.file i, none, true, false, f.declares⟩
  have hblock : Grows ((f.source.boundIn (f.source.declarations.size+1)
      f.source.statements).map (.declaration i)) b ((block f.source i
        (f.source.declarations.size+1) container f.source.statements).run b).2 :=
    block_binds _ container f.source.statements b
  unfold Bind.file LoadedFile.sites
  simp only [hf, Bool.false_eq_true, if_false, List.nil_append]
  exact hblock

/-- What is known when some files are bound. -/
structure FilesBound (files : List LoadedFile) (b : Bindings) : Prop where
  exists_module : ∀ i f, files[i]? = some f → f.source.isModule = true →
    ∃ s, b.modules.get? i = some s
  isModule : ∀ i s, b.modules.get? i = some s →
    ∃ f, files[i]? = some f ∧ f.source.isModule = true
  declaredAt : ∀ i s, b.modules.get? i = some s → b.DeclaredAt s (.file i)
  isSourceFile : ∀ i s, b.modules.get? i = some s → (b.symbol s).isA .sourceFile = true
  isAmbient : ∀ name s, b.ambient.get? name = some s → (b.symbol s).isA .ambientModule = true
  owns : (files.zipIdx.flatMap fun (f, i) => f.sites i).Nodup →
    b.Owns (files.zipIdx.flatMap fun (f, i) => f.sites i)

theorem sites_append (files : List LoadedFile) (f : LoadedFile) :
    ((files ++ [f]).zipIdx.flatMap fun (f, i) => f.sites i) =
      (files.zipIdx.flatMap fun (f, i) => f.sites i) ++ f.sites files.length := by
  simp [List.zipIdx_append]

/-- One more file keeps what is known of those before it. -/
theorem FilesBound.grow {files : List LoadedFile} {b b' : Bindings} (h : FilesBound files b)
    {f : LoadedFile} (hg : Grows (f.sites files.length) b b') :
    (∀ i s, b.modules.get? i = some s → b'.DeclaredAt s (.file i)) ∧
      (∀ i s, b.modules.get? i = some s → (b'.symbol s).isA .sourceFile = true) ∧
      (∀ name s, b'.ambient.get? name = some s → (b'.symbol s).isA .ambientModule = true) ∧
      (((files ++ [f]).zipIdx.flatMap fun (f, i) => f.sites i).Nodup →
        b'.Owns ((files ++ [f]).zipIdx.flatMap fun (f, i) => f.sites i)) := by
  refine ⟨fun i s hs => hg.sites s (h.declaredAt i s hs),
    fun i s hs => isA_mono (hg.kinds s) (h.isSourceFile i s hs), fun name s hs => ?_, fun hd => ?_⟩
  · rcases hg.ambient name s hs with hs | hs
    · exact isA_mono (hg.kinds s) (h.isAmbient name s hs)
    · exact hs
  · rw [sites_append] at hd ⊢
    exact hg.owns _ hd (h.owns hd.of_append_left)

theorem FilesBound.append {files : List LoadedFile} {b : Bindings} (h : FilesBound files b)
    (f : LoadedFile) : FilesBound (files ++ [f]) ((Bind.file f files.length).run b).2 := by
  have hlast {i : FileIndex} {g : LoadedFile} (hi : (files ++ [f])[i]? = some g) :
      files[i]? = some g ∨ i = files.length ∧ g = f := by
    rcases Nat.lt_trichotomy i files.length with hlt | rfl | hgt
    · rw [List.getElem?_append_left hlt] at hi
      exact Or.inl hi
    · rw [List.getElem?_concat_length] at hi
      exact Or.inr ⟨rfl, (Option.some.inj hi).symm⟩
    · rw [List.getElem?_eq_none (by simp; omega)] at hi
      cases hi
  have hbefore {i : FileIndex} {g : LoadedFile} (hi : files[i]? = some g) :
      (files ++ [f])[i]? = some g := by
    rw [List.getElem?_append_left (List.getElem?_eq_some_iff.mp hi).1, hi]
  cases hf : f.source.isModule with
  | false =>
    have hg := file_run_script hf files.length b
    obtain ⟨hdeclared, hsource, hambient, howns⟩ := h.grow hg
    refine ⟨fun i g hi hmodule => ?_, fun i s hs => ?_, ?_, ?_, hambient, howns⟩
    · rw [hg.modules]
      rcases hlast hi with hi | ⟨-, rfl⟩
      · exact h.exists_module i g hi hmodule
      · rw [hf] at hmodule
        cases hmodule
    · rw [hg.modules] at hs
      obtain ⟨g, hg, hmodule⟩ := h.isModule i s hs
      exact ⟨g, hbefore hg, hmodule⟩
    · rwa [hg.modules]
    · rwa [hg.modules]
  | true =>
    obtain ⟨b', hg, hrun, hfile, hfileKind⟩ := file_run_module hf files.length b
    obtain ⟨hdeclared, hsource, hambient, howns⟩ := h.grow hg
    rw [hrun]
    -- the table of modules has what it had and the new file
    have hget (i : FileIndex) (s : SymbolIndex)
        (hs : (b'.modules.insert files.length b.symbols.size).get? i = some s) :
        i = files.length ∧ s = b.symbols.size ∨ b.modules.get? i = some s := by
      rw [Table.get?_insert, hg.modules] at hs
      split at hs
      · next heq => exact Or.inl ⟨eq_of_beq heq, (Option.some.inj hs).symm⟩
      · exact Or.inr hs
    refine ⟨fun i g hi hmodule => ?_, fun i s hs => ?_, fun i s hs => ?_, fun i s hs => ?_,
      hambient, howns⟩
    · rw [← Table.mem_keys_iff, Table.mem_keys_insert, hg.modules, Table.mem_keys_iff]
      rcases hlast hi with hi | ⟨rfl, -⟩
      · exact Or.inr (h.exists_module i g hi hmodule)
      · exact Or.inl rfl
    · rcases hget i s hs with ⟨rfl, rfl⟩ | hs
      · exact ⟨f, List.getElem?_concat_length, hf⟩
      · obtain ⟨g, hg, hmodule⟩ := h.isModule i s hs
        exact ⟨g, hbefore hg, hmodule⟩
    · rcases hget i s hs with ⟨rfl, rfl⟩ | hs
      · exact hfile
      · exact hdeclared i s hs
    · rcases hget i s hs with ⟨rfl, rfl⟩ | hs
      · exact hfileKind
      · exact hsource i s hs

theorem filesBound_nil : FilesBound [] .empty where
  exists_module i f hi := absurd hi (by simp)
  isModule i s hs := absurd hs (by simp [empty, Table.get?])
  declaredAt i s hs := absurd hs (by simp [empty, Table.get?])
  isSourceFile i s hs := absurd hs (by simp [empty, Table.get?])
  isAmbient name s hs := absurd hs (by simp [empty, Table.get?])
  owns _ := by
    have hnone (s : SymbolIndex) (site : Site) : ¬ Bindings.empty.DeclaredAt s site := by
      rw [DeclaredAt, symbol_of_size_le (by simp [empty])]
      exact List.not_mem_nil
    exact ⟨fun s t site hs => absurd hs (hnone s site), fun s site hs => absurd hs (hnone s site)⟩

end Bind

/-- What is known when all files of a program are bound. -/
theorem Loaded.bind_filesBound (l : Loaded) : Bind.FilesBound l.files.toList l.bind := by
  have hall (files : List LoadedFile) : Bind.FilesBound files
      ((files.zipIdx.forM fun (f, i) => Bind.file f i : Bind Unit) .empty).2 := by
    -- file by file, from the first on
    induction files using List.reverseRecOn with
    | nil => exact Bind.filesBound_nil
    | append_singleton files f ih =>
      have hlast := ih.append f
      rw [List.forM_eq_forM] at hlast ⊢
      rw [List.zipIdx_append, List.forM_append, List.zipIdx_singleton, Nat.zero_add]
      exact hlast
  exact hall l.files.toList

namespace Program

variable {fs : FileSystem} {root : Path} {names : List String} {p : Program}

theorem load_bind (h : load fs root names = .ok p) :
    Loaded.load fs root names = .ok p.toLoaded ∧ p.toBindings = p.toLoaded.bind := by
  unfold load at h
  cases hl : Loaded.load fs root names with
  | error e =>
    rw [hl] at h
    cases h
  | ok l =>
    rw [hl] at h
    obtain rfl := Except.ok.inj h
    exact ⟨rfl, rfl⟩

/-- The program of a package that can be loaded. -/
theorem load_of_isOk (h : (load fs root names).isOk = true) :
    load fs root names = .ok ((load fs root names).toOption.getD default) := by
  cases hl : load fs root names with
  | error e =>
    rw [hl] at h
    cases h
  | ok p => rfl

theorem load_filesBound (h : load fs root names = .ok p) :
    Bind.FilesBound p.files.toList p.toBindings :=
  (load_bind h).2 ▸ p.toLoaded.bind_filesBound

end Program

end ApiSurface
