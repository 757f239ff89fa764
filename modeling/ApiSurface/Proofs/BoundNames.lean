import ApiSurface.Proofs.BoundSymbols
/-!
What one step of binding changes: which names are found in a scope and among the members of a
symbol, which sites symbols are declared at, and what symbols are called and are.
-/
namespace ApiSurface

namespace Bindings

variable {b b' b'' : Bindings}

/-- What a name is bound to in a scope, or for the whole program. -/
def named (b : Bindings) (isGlobal : Bool) (scope : Site) (name : String) : Option SymbolIndex :=
  (if isGlobal then b.globals else (b.locals.get? scope).getD []).get? name

/-- The member of a symbol that has a name. -/
def member (b : Bindings) (owner : SymbolIndex) (name : String) : Option SymbolIndex :=
  (b.symbol owner).members.get? name

/-! ### Single changes -/

theorem named_bindName (c : Container) (name : String) (s : SymbolIndex) (isGlobal : Bool)
    (scope : Site) (other : String) :
    (b.bindName c name s).named isGlobal scope other =
      if isGlobal = c.isGlobal ∧ (isGlobal = true ∨ scope = c.scope) ∧ other = name then some s
      else b.named isGlobal scope other := by
  unfold bindName named names
  cases c.isGlobal with
  | true => cases isGlobal <;> simp [Table.get?_insert]
  | false =>
    cases isGlobal with
    | true => simp
    | false => by_cases hscope : scope = c.scope <;> simp [Table.get?_insert, hscope]

theorem member_addMember {owner : SymbolIndex} (howner : owner < b.symbols.size) (name : String)
    (s other : SymbolIndex) (otherName : String) :
    (b.addMember owner name s).member other otherName =
      if other = owner ∧ otherName = name then some s else b.member other otherName := by
  unfold addMember member
  rw [symbol_update]
  by_cases hother : other = owner
  · subst hother
    simp [howner, Table.get?_insert]
  · simp [hother]

theorem member_push {x : Symbol} (hx : x.members = []) (owner : SymbolIndex) (name : String) :
    ({ b with symbols := b.symbols.push x } : Bindings).member owner name =
      b.member owner name := by
  unfold member
  rw [symbol_push]
  split
  · next h =>
    rw [h, symbol_of_size_le (Nat.le_refl _), hx]
    rfl
  · rfl

theorem declaredAt_push {x : Symbol} (hx : x.declarations = []) (s : SymbolIndex) (site : Site) :
    ({ b with symbols := b.symbols.push x } : Bindings).DeclaredAt s site ↔
      b.DeclaredAt s site := by
  unfold DeclaredAt
  rw [symbol_push]
  split
  · next h =>
    rw [h, symbol_of_size_le (Nat.le_refl _), hx]
    exact Iff.rfl
  · exact Iff.rfl

/-- A new symbol that comes with a site. -/
theorem declaredAt_push_site {x : Symbol} {site : Site} (hx : x.declarations = [site])
    (s : SymbolIndex) (other : Site) :
    ({ b with symbols := b.symbols.push x } : Bindings).DeclaredAt s other ↔
      b.DeclaredAt s other ∨ s = b.symbols.size ∧ other = site := by
  unfold DeclaredAt
  rw [symbol_push]
  by_cases hs : s = b.symbols.size
  · rw [if_pos hs, hx, List.mem_singleton, hs, symbol_of_size_le (Nat.le_refl _)]
    exact ⟨fun hsite => Or.inr ⟨rfl, hsite⟩, fun hsite => (hsite.resolve_left nofun).2⟩
  · rw [if_neg hs]
    exact ⟨Or.inl, fun hsite => hsite.resolve_right fun hlast => hs hlast.1⟩

theorem addKind_declarations (x : Symbol) (kind : SymbolKind) :
    (x.addKind kind).declarations = x.declarations := by
  unfold Symbol.addKind
  split <;> rfl

theorem addKind_members (x : Symbol) (kind : SymbolKind) :
    (x.addKind kind).members = x.members := by
  unfold Symbol.addKind
  split <;> rfl

theorem addSite_members (x : Symbol) (site : Site) : (x.addSite site).members = x.members := by
  unfold Symbol.addSite
  split <;> rfl

theorem mem_addSite_iff {x : Symbol} {site other : Site} :
    other ∈ (x.addSite site).declarations ↔ other ∈ x.declarations ∨ other = site := by
  unfold Symbol.addSite
  split
  · next h => exact ⟨Or.inl, fun ho => ho.elim id fun heq => heq ▸ h⟩
  · rw [List.mem_append, List.mem_singleton]

theorem member_update {change : Symbol → Symbol} (hchange : ∀ x, (change x).members = x.members)
    (s owner : SymbolIndex) (name : String) :
    (b.update s change).member owner name = b.member owner name := by
  unfold member
  rw [symbol_update]
  split
  · next h => rw [hchange, h.1]
  · rfl

theorem declaredAt_update {change : Symbol → Symbol}
    (hchange : ∀ x, (change x).declarations = x.declarations) (s t : SymbolIndex) (site : Site) :
    (b.update s change).DeclaredAt t site ↔ b.DeclaredAt t site := by
  unfold DeclaredAt
  rw [symbol_update]
  split
  · next h => rw [hchange, h.1]
  · rfl

theorem declaredAt_addDeclaration {s : SymbolIndex} (hs : s < b.symbols.size) (file : FileIndex)
    (i : DeclIndex) (t : SymbolIndex) (site : Site) :
    (b.addDeclaration s file i).DeclaredAt t site ↔
      b.DeclaredAt t site ∨ t = s ∧ site = .declaration file i := by
  change site ∈ ((b.update s _).symbol t).declarations ↔ _
  rw [symbol_update]
  by_cases ht : t = s
  · subst ht
    rw [if_pos ⟨rfl, hs⟩, mem_addSite_iff]
    simp [DeclaredAt]
  · rw [if_neg (fun h => ht h.1)]
    simp [DeclaredAt, ht]

/-- A symbol that is found under some name. -/
def InTables (b : Bindings) (s : SymbolIndex) : Prop :=
  (∃ isGlobal scope name, b.named isGlobal scope name = some s) ∨
    (∃ owner name, b.member owner name = some s) ∨ ∃ name, b.ambient.get? name = some s

theorem Sound.lt_of_inTables {known : FileIndex → DeclIndex → Prop} {pending : Option SymbolIndex}
    {s : SymbolIndex} (h : b.Sound known pending) (hs : b.InTables s) : s < b.symbols.size := by
  rcases hs with ⟨isGlobal, scope, name, hs⟩ | ⟨owner, name, hs⟩ | ⟨name, hs⟩
  · exact h.names (c := ⟨scope, none, isGlobal, false, false⟩) hs
  · exact h.members owner name s hs
  · exact (h.ambient name s hs).1

/-! ### Steps -/

/-- What a step does for one symbol `s`: it is found under the names in `bound`, becomes a member of
others as in `joins`, and is declared at the `sites`. Nothing else changes in the tables. -/
structure Changes (s : SymbolIndex) (bound : Bool → Site → String → Prop)
    (joins : SymbolIndex → String → Prop) (sites : Site → Prop) (b b' : Bindings) : Prop where
  keeps : b.Keeps b'
  named_of : ∀ g scope name, bound g scope name → b'.named g scope name = some s
  named_else : ∀ g scope name, ¬ bound g scope name →
    b'.named g scope name = b.named g scope name
  member_of : ∀ o name, joins o name → b'.member o name = some s
  member_else : ∀ o name, ¬ joins o name → b'.member o name = b.member o name
  declaredAt : ∀ t site, b'.DeclaredAt t site ↔ b.DeclaredAt t site ∨ t = s ∧ sites site
  symbolOf_of : ∀ file i, sites (.declaration file i) → b'.symbolOf.get? (file, i) = some s
  symbolOf_else : ∀ file i, ¬ sites (.declaration file i) →
    b'.symbolOf.get? (file, i) = b.symbolOf.get? (file, i)
  ambient : ∀ name t, b'.ambient.get? name = some t → b.ambient.get? name = some t ∨ t = s
  silent : b'.exportingAll = b.exportingAll

variable {s : SymbolIndex} {bound bound' : Bool → Site → String → Prop}
  {joins joins' : SymbolIndex → String → Prop} {sites sites' : Site → Prop}

theorem Changes.refl (s : SymbolIndex) (b : Bindings) :
    Changes s (fun _ _ _ => False) (fun _ _ => False) (fun _ => False) b b where
  keeps := .refl b
  named_of _ _ _ := False.elim
  named_else _ _ _ _ := rfl
  member_of _ _ := False.elim
  member_else _ _ _ := rfl
  declaredAt _ _ := by simp
  symbolOf_of _ _ := False.elim
  symbolOf_else _ _ _ := rfl
  ambient _ _ := Or.inl
  silent := rfl

theorem Changes.trans (h : Changes s bound joins sites b b')
    (h' : Changes s bound' joins' sites' b' b'') :
    Changes s (fun g scope name => bound g scope name ∨ bound' g scope name)
      (fun o name => joins o name ∨ joins' o name) (fun site => sites site ∨ sites' site) b b'' where
  keeps := h.keeps.trans h'.keeps
  named_of g scope name hbound := by
    by_cases hlast : bound' g scope name
    · exact h'.named_of g scope name hlast
    · rw [h'.named_else g scope name hlast]
      exact h.named_of g scope name (hbound.resolve_right hlast)
  named_else g scope name hbound := by
    rw [h'.named_else g scope name fun hlast => hbound (Or.inr hlast)]
    exact h.named_else g scope name fun hfirst => hbound (Or.inl hfirst)
  member_of o name hjoins := by
    by_cases hlast : joins' o name
    · exact h'.member_of o name hlast
    · rw [h'.member_else o name hlast]
      exact h.member_of o name (hjoins.resolve_right hlast)
  member_else o name hjoins := by
    rw [h'.member_else o name fun hlast => hjoins (Or.inr hlast)]
    exact h.member_else o name fun hfirst => hjoins (Or.inl hfirst)
  declaredAt t site := by
    rw [h'.declaredAt, h.declaredAt]
    tauto
  symbolOf_of file i hsite := by
    by_cases hlast : sites' (.declaration file i)
    · exact h'.symbolOf_of file i hlast
    · rw [h'.symbolOf_else file i hlast]
      exact h.symbolOf_of file i (hsite.resolve_right hlast)
  symbolOf_else file i hsite := by
    rw [h'.symbolOf_else file i fun hlast => hsite (Or.inr hlast)]
    exact h.symbolOf_else file i fun hfirst => hsite (Or.inl hfirst)
  ambient name t ht := by
    rcases h'.ambient name t ht with ht | ht
    · exact h.ambient name t ht
    · exact Or.inr ht
  silent := h'.silent.trans h.silent

/-- The same changes in other words. -/
theorem Changes.congr (h : Changes s bound joins sites b b')
    (hbound : ∀ g scope name, bound g scope name ↔ bound' g scope name)
    (hjoins : ∀ o name, joins o name ↔ joins' o name)
    (hsites : ∀ site, sites site ↔ sites' site) : Changes s bound' joins' sites' b b' where
  keeps := h.keeps
  named_of g scope name hname := h.named_of g scope name ((hbound g scope name).mpr hname)
  named_else g scope name hname :=
    h.named_else g scope name fun hold => hname ((hbound g scope name).mp hold)
  member_of o name hjoin := h.member_of o name ((hjoins o name).mpr hjoin)
  member_else o name hjoin := h.member_else o name fun hold => hjoin ((hjoins o name).mp hold)
  declaredAt t site := by rw [h.declaredAt, hsites]
  symbolOf_of file i hsite := h.symbolOf_of file i ((hsites _).mpr hsite)
  symbolOf_else file i hsite := h.symbolOf_else file i fun hold => hsite ((hsites _).mp hold)
  ambient := h.ambient
  silent := h.silent

/-- Symbols may change where no name comes to them and none joins another. -/
theorem Changes.of_tables (hkeeps : b.Keeps b') (hglobals : b'.globals = b.globals)
    (hlocals : b'.locals = b.locals) (hambient : b'.ambient = b.ambient)
    (hsilent : b'.exportingAll = b.exportingAll)
    (hmember : ∀ o name, b'.member o name = b.member o name)
    (hdeclared : ∀ t site, b'.DeclaredAt t site ↔ b.DeclaredAt t site ∨ t = s ∧ sites site)
    (hof : ∀ file i, sites (.declaration file i) → b'.symbolOf.get? (file, i) = some s)
    (helse : ∀ file i, ¬ sites (.declaration file i) →
      b'.symbolOf.get? (file, i) = b.symbolOf.get? (file, i)) :
    Changes s (fun _ _ _ => False) (fun _ _ => False) sites b b' where
  keeps := hkeeps
  named_of _ _ _ := False.elim
  named_else g scope name _ := by rw [named, named, hglobals, hlocals]
  member_of _ _ := False.elim
  member_else o name _ := hmember o name
  declaredAt := hdeclared
  symbolOf_of := hof
  symbolOf_else := helse
  ambient name t ht := Or.inl (hambient ▸ ht)
  silent := hsilent

theorem push_changes {x : Symbol} (hmembers : x.members = []) (hsites : x.declarations = []) :
    Changes s (fun _ _ _ => False) (fun _ _ => False) (fun _ => False) b
      { b with symbols := b.symbols.push x } :=
  .of_tables (push_keeps x) rfl rfl rfl rfl (member_push hmembers)
    (fun t site => by simp [declaredAt_push hsites]) (fun _ _ => False.elim) fun _ _ _ => rfl

theorem isOwn_push {x : Symbol} (hx : x.isAlias = false) :
    ({ b with symbols := b.symbols.push x } : Bindings).IsOwn b.symbols.size := by
  refine ⟨by simp, ?_⟩
  rw [symbol_push, if_pos rfl, hx]

theorem ambient_changes (name : String) :
    Changes s (fun _ _ _ => False) (fun _ _ => False) (fun _ => False) b
      { b with ambient := b.ambient.insert name s } where
  keeps := ⟨Nat.le_refl _, fun _ _ => rfl⟩
  named_of _ _ _ := False.elim
  named_else _ _ _ _ := rfl
  member_of _ _ := False.elim
  member_else _ _ _ := rfl
  declaredAt t site := by simp [DeclaredAt, symbol]
  symbolOf_of _ _ := False.elim
  symbolOf_else _ _ _ := rfl
  ambient other t ht := by
    rw [Table.get?_insert] at ht
    split at ht
    · exact Or.inr (Option.some.inj ht).symm
    · exact Or.inl ht
  silent := rfl

theorem addKind_changes (kind : SymbolKind) :
    Changes s (fun _ _ _ => False) (fun _ _ => False) (fun _ => False) b
      (b.update s (·.addKind kind)) :=
  .of_tables (update_keeps _ (fun x => addKind_aliasOf x kind) s) rfl rfl rfl rfl
    (member_update (fun x => addKind_members x kind) s)
    (fun t site => by simp [declaredAt_update (fun x => addKind_declarations x kind)])
    (fun _ _ => False.elim) fun _ _ _ => rfl

theorem addDeclaration_changes (hs : s < b.symbols.size) (file : FileIndex) (i : DeclIndex) :
    Changes s (fun _ _ _ => False) (fun _ _ => False) (· = .declaration file i) b
      (b.addDeclaration s file i) := by
  have hget (file' : FileIndex) (i' : DeclIndex) :
      (b.addDeclaration s file i).symbolOf.get? (file', i') =
        if (file', i') == (file, i) then some s else b.symbolOf.get? (file', i') :=
    Table.get?_insert ..
  refine .of_tables (addDeclaration_keeps s file i) rfl rfl rfl rfl
    (member_update (fun x => addSite_members x _) s) (declaredAt_addDeclaration hs file i)
    (fun file' i' hsite => ?_) fun file' i' hsite => ?_
  · obtain ⟨rfl, rfl⟩ := Site.declaration.inj hsite
    rw [hget, if_pos (beq_self_eq_true _)]
  · rw [hget, if_neg fun heq => hsite ?_]
    obtain ⟨rfl, rfl⟩ := Prod.mk.inj (eq_of_beq heq)
    rfl

theorem bindName_changes (c : Container) (name : String) :
    Changes s
      (fun g scope other => g = c.isGlobal ∧ (g = true ∨ scope = c.scope) ∧ other = name)
      (fun _ _ => False) (fun _ => False) b (b.bindName c name s) where
  keeps := bindName_keeps c name s
  named_of g scope other h := by rw [named_bindName, if_pos h]
  named_else g scope other h := by rw [named_bindName, if_neg h]
  member_of _ _ := False.elim
  member_else o other _ := by
    unfold bindName
    split <;> rfl
  declaredAt t site := by
    unfold bindName
    split <;> simp [DeclaredAt, symbol]
  symbolOf_of _ _ := False.elim
  symbolOf_else file i _ := by
    unfold bindName
    split <;> rfl
  ambient other t ht := by
    unfold bindName at ht
    split at ht <;> exact Or.inl ht
  silent := by
    unfold bindName
    split <;> rfl

theorem addMember_changes {owner : SymbolIndex} (howner : owner < b.symbols.size)
    (name : String) : Changes s (fun _ _ _ => False) (fun o other => o = owner ∧ other = name)
      (fun _ => False) b (b.addMember owner name s) where
  keeps := addMember_keeps owner name s
  named_of _ _ _ := False.elim
  named_else _ _ _ _ := rfl
  member_of o other h := by rw [member_addMember howner, if_pos h]
  member_else o other h := by rw [member_addMember howner, if_neg h]
  declaredAt t site := by
    have h : (b.addMember owner name s).DeclaredAt t site ↔ b.DeclaredAt t site := by
      have hchange (x : Symbol) :
          ({ x with members := x.members.insert name s } : Symbol).declarations =
            x.declarations := rfl
      exact declaredAt_update hchange owner t site
    simp [h]
  symbolOf_of _ _ := False.elim
  symbolOf_else _ _ _ := rfl
  ambient _ _ := Or.inl
  silent := rfl

/-- What a step makes of symbols: `s` comes to be of more kinds, no other symbol does, those that are
there keep their names and are declared nowhere twice, and no module gets a name in quotes. -/
structure Relabels (s : SymbolIndex) (kinds : SymbolKind → Prop) (b b' : Bindings) : Prop where
  size : b.symbols.size ≤ b'.symbols.size
  name : ∀ t < b.symbols.size, (b'.symbol t).name = (b.symbol t).name
  isA : ∀ t k, (b'.symbol t).isA k = true ↔ (b.symbol t).isA k = true ∨ t = s ∧ kinds k
  nodup : ∀ t, (b.symbol t).declarations.Nodup → (b'.symbol t).declarations.Nodup
  ambient : b'.ambient = b.ambient

variable {kinds kinds' : SymbolKind → Prop}

theorem Relabels.trans (h : Relabels s kinds b b') (h' : Relabels s kinds' b' b'') :
    Relabels s (fun k => kinds k ∨ kinds' k) b b'' where
  size := h.size.trans h'.size
  name t ht := (h'.name t (Nat.lt_of_lt_of_le ht h.size)).trans (h.name t ht)
  isA t k := by
    rw [h'.isA, h.isA]
    tauto
  nodup t ht := h'.nodup t (h.nodup t ht)
  ambient := h'.ambient.trans h.ambient

/-- The same kinds in other words. -/
theorem Relabels.congr (h : Relabels s kinds b b') (hkinds : ∀ k, kinds k ↔ kinds' k) :
    Relabels s kinds' b b' :=
  { h with isA := fun t k => by rw [h.isA, hkinds] }

theorem Relabels.of_symbols (hsymbols : b'.symbols = b.symbols)
    (hambient : b'.ambient = b.ambient) : Relabels s (fun _ => False) b b' := by
  have hsame (t : SymbolIndex) : b'.symbol t = b.symbol t := by rw [symbol, symbol, hsymbols]
  exact ⟨Nat.le_of_eq (congrArg Array.size hsymbols.symm), fun t _ => by rw [hsame],
    fun t k => by simp [hsame], fun t => by rw [hsame]; exact id, hambient⟩

theorem Relabels.refl (s : SymbolIndex) (b : Bindings) : Relabels s (fun _ => False) b b :=
  .of_symbols rfl rfl

theorem push_relabels {x : Symbol} (hx : x.declarations.Nodup) :
    Relabels b.symbols.size (fun k => x.isA k = true) b
      { b with symbols := b.symbols.push x } where
  size := by simp
  name t ht := by rw [symbol_push, if_neg (Nat.ne_of_lt ht)]
  isA t k := by
    rw [symbol_push]
    split
    · next h =>
      rw [h, symbol_of_size_le (Nat.le_refl _)]
      exact ⟨fun hk => Or.inr ⟨rfl, hk⟩, fun hk => (hk.resolve_left Bool.false_ne_true).2⟩
    · next h => exact ⟨Or.inl, fun hk => hk.resolve_right fun hlast => h hlast.1⟩
  nodup t ht := by
    rw [symbol_push]
    split
    · exact hx
    · exact ht
  ambient := rfl

/-- A symbol that changes otherwise than in its name and kinds. -/
theorem update_relabels (o : SymbolIndex) (change : Symbol → Symbol)
    (hname : ∀ x, (change x).name = x.name) (hkinds : ∀ x, (change x).kinds = x.kinds)
    (hnodup : ∀ x, x.declarations.Nodup → (change x).declarations.Nodup) :
    Relabels s (fun _ => False) b (b.update o change) where
  size := by simp [update]
  name t _ := by
    rw [symbol_update]
    split
    · next h => rw [hname, h.1]
    · rfl
  isA t k := by
    rw [symbol_update]
    split
    · next h => simp [Symbol.isA, hkinds, h.1]
    · simp
  nodup t ht := by
    rw [symbol_update]
    split
    · next h => exact hnodup _ (h.1 ▸ ht)
    · exact ht
  ambient := rfl

theorem addMember_relabels (o : SymbolIndex) (name : String) (t : SymbolIndex) :
    Relabels s (fun _ => False) b (b.addMember o name t) :=
  update_relabels o _ (fun _ => rfl) (fun _ => rfl) fun _ => id

theorem bindName_relabels (c : Container) (name : String) (t : SymbolIndex) :
    Relabels s (fun _ => False) b (b.bindName c name t) := by
  unfold bindName
  split <;> exact .of_symbols rfl rfl

theorem addSite_nodup {x : Symbol} (h : x.declarations.Nodup) (site : Site) :
    (x.addSite site).declarations.Nodup := by
  unfold Symbol.addSite
  split
  · exact h
  · next hnew => exact List.concat_eq_append ▸ h.concat hnew

theorem addDeclaration_relabels (t : SymbolIndex) (file : FileIndex) (i : DeclIndex) :
    Relabels s (fun _ => False) b (b.addDeclaration t file i) := by
  have hname (x : Symbol) : (x.addSite (.declaration file i)).name = x.name := by
    unfold Symbol.addSite
    split <;> rfl
  have hkinds (x : Symbol) : (x.addSite (.declaration file i)).kinds = x.kinds := by
    unfold Symbol.addSite
    split <;> rfl
  have hsite := update_relabels (s := s) (b := b) t _ hname hkinds
    fun x hx => addSite_nodup hx (.declaration file i)
  exact ⟨hsite.size, hsite.name, hsite.isA, hsite.nodup, rfl⟩

theorem isA_addKind (x : Symbol) (kind k : SymbolKind) :
    (x.addKind kind).isA k = true ↔ x.isA k = true ∨ k = kind := by
  unfold Symbol.addKind
  split
  · next h => exact ⟨Or.inl, fun hk => hk.elim id fun heq => heq ▸ h⟩
  · simp [Symbol.isA]

theorem addKind_relabels (hs : s < b.symbols.size) (kind : SymbolKind) :
    Relabels s (· = kind) b (b.update s (·.addKind kind)) where
  size := by simp [update]
  name t _ := by
    rw [symbol_update]
    split
    · next h =>
      rw [h.1, Symbol.addKind]
      split <;> rfl
    · rfl
  isA t k := by
    rw [symbol_update]
    split
    · next h => simp [isA_addKind, h.1]
    · next h => exact ⟨Or.inl, fun hk => hk.resolve_right fun hlast => h ⟨hlast.1, hs⟩⟩
  nodup t ht := by
    rw [symbol_update]
    split
    · next h => rwa [addKind_declarations, ← h.1]
    · exact ht
  ambient := rfl

end Bindings

namespace Bind

open Bindings

variable {b : Bindings} {known : FileIndex → DeclIndex → Prop} {pending : Option SymbolIndex}

theorem Gives.mono {α : Type} {x : Bind α} {P Q : α → Bindings → Prop} (hx : Gives x b P)
    (h : ∀ a b', P a b' → Q a b') : Gives x b Q := h _ _ hx

/-- The names of a symbol that is declared in a container: in its scope, and among the members of
an owner. -/
theorem name_changes {s : SymbolIndex} (c : Container) (name : String) (isLocal : Bool)
    (owner : Option SymbolIndex) (howner : ∀ o ∈ owner, o < b.symbols.size) :
    Gives (do
      if isLocal then modify (·.bindName c name s)
      if let some o := owner then modify (·.addMember o name s)
      return s) b fun t b' => t = s ∧ Changes s
        (fun g scope other => isLocal = true ∧ g = c.isGlobal ∧ (g = true ∨ scope = c.scope) ∧
          other = name)
        (fun o other => owner = some o ∧ other = name) (fun _ => False) b b' := by
  have hmember {b : Bindings} (howner : ∀ o ∈ owner, o < b.symbols.size) : Gives (do
      if let some o := owner then modify (·.addMember o name s)
      return s) b fun t b' => t = s ∧ Changes s (fun _ _ _ => False)
        (fun o other => owner = some o ∧ other = name) (fun _ => False) b b' := by
    cases owner with
    | none => exact ⟨rfl, (Changes.refl s b).congr (by simp) (by simp) (by simp)⟩
    | some o =>
      exact ⟨rfl, (addMember_changes (howner o rfl) name).congr (by simp)
        (fun _ _ => by simp [eq_comm]) (by simp)⟩
  cases isLocal with
  | false =>
    obtain ⟨hs, hchanges⟩ := hmember howner
    exact ⟨hs, hchanges.congr (by simp) (by simp) (by simp)⟩
  | true =>
    have hkeeps : b.Keeps (b.bindName c name s) := bindName_keeps c name s
    obtain ⟨hs, hchanges⟩ := hmember (b := b.bindName c name s) fun o ho =>
      Nat.lt_of_lt_of_le (howner o ho) hkeeps.size
    exact ⟨hs, ((bindName_changes c name).trans hchanges).congr (by simp) (by simp) (by simp)⟩

/-- The owner that an exported declaration of a container joins. -/
def ownerOf (c : Container) (d : Declaration) (exported : Bool) : Option SymbolIndex :=
  if exported && !c.isGlobal && !d.isDefaultExport then c.owner else none

/-- Whether a declaration binds its name in its scope: all but a nameless default export do. -/
def isLocal (d : Declaration) : Bool := !(d.isDefaultExport && d.name.text == "default")

/-- The symbol that a declaration finds under its name. -/
def earlier (b : Bindings) (c : Container) (d : Declaration) (exported : Bool) :
    Option SymbolIndex :=
  ((ownerOf c d exported).bind fun o => b.member o d.name.text) <|>
    (if isLocal d then b.named c.isGlobal c.scope d.name.text else none)

theorem inTables_of_earlier {c : Container} {d : Declaration} {exported : Bool} {s : SymbolIndex}
    (hs : earlier b c d exported = some s) : b.InTables s := by
  rcases (Option.orElse_eq_some ..).mp hs with hs | ⟨-, hs⟩
  · obtain ⟨o, -, hs⟩ := Option.bind_eq_some_iff.mp hs
    exact Or.inr (Or.inl ⟨o, _, hs⟩)
  · split at hs
    · exact Or.inl ⟨c.isGlobal, c.scope, _, hs⟩
    · cases hs

/-- A declaration comes to the symbol that it finds, unless that is an import, or else to a new
one. -/
theorem declareSymbol_changes (h : b.Sound known none) {c : Container}
    (howner : ∀ o ∈ c.owner, o < b.symbols.size) (file : FileIndex) (i : DeclIndex)
    (d : Declaration) (kind : SymbolKind) (exported : Bool) :
    Gives (declareSymbol c file i d kind exported) b fun s b' =>
      Changes s
        (fun g scope other => isLocal d = true ∧ g = c.isGlobal ∧ (g = true ∨ scope = c.scope) ∧
          other = d.name.text)
        (fun o other => ownerOf c d exported = some o ∧ other = d.name.text)
        (· = .declaration file i) b b' ∧
      b'.IsOwn s ∧
      ((earlier b c d exported = some s ∧ b.IsOwn s) ∨ s = b.symbols.size ∧
        ∀ t, earlier b c d exported = some t → (b.symbol t).isAlias = true) := by
  have howner' : ∀ o ∈ ownerOf c d exported, o < b.symbols.size := by
    intro o ho
    unfold ownerOf at ho
    split at ho
    · exact howner o ho
    · cases ho
  -- whichever the symbol is, it then gets the site and the names
  have hrest {s : SymbolIndex} {b₁ : Bindings}
      (hs : Changes s (fun _ _ _ => False) (fun _ _ => False) (fun _ => False) b b₁)
      (hown : b₁.IsOwn s)
      (hfound : (earlier b c d exported = some s ∧ b.IsOwn s) ∨ s = b.symbols.size ∧
        ∀ t, earlier b c d exported = some t → (b.symbol t).isAlias = true) :
      Gives (do
        modify (·.addDeclaration s file i)
        if isLocal d then modify (·.bindName c d.name.text s)
        if let some o := ownerOf c d exported then modify (·.addMember o d.name.text s)
        return s) b₁ fun s b' => Changes s
          (fun g scope other => isLocal d = true ∧ g = c.isGlobal ∧ (g = true ∨ scope = c.scope) ∧
            other = d.name.text)
          (fun o other => ownerOf c d exported = some o ∧ other = d.name.text)
          (· = .declaration file i) b b' ∧ b'.IsOwn s ∧
          ((earlier b c d exported = some s ∧ b.IsOwn s) ∨ s = b.symbols.size ∧
            ∀ t, earlier b c d exported = some t → (b.symbol t).isAlias = true) := by
    have hsite := addDeclaration_changes hown.1 file i
    have hsize := (hs.trans hsite).keeps.size
    have hnames := name_changes (s := s) c d.name.text (isLocal d) (ownerOf c d exported)
      fun o ho => Nat.lt_of_lt_of_le (howner' o ho) hsize
    refine .bind (modify_gives (Q := fun _ b₂ => b₂ = b₁.addDeclaration s file i) rfl) ?_
    rintro - _ rfl
    refine hnames.mono ?_
    rintro _ b' ⟨rfl, hnames⟩
    exact ⟨((hs.trans hsite).trans hnames).congr (by simp) (by simp) (by simp),
      (hown.keep hsite.keeps).keep hnames.keeps, hfound⟩
  unfold declareSymbol
  refine .get ?_
  dsimp only
  split
  · next s hfound =>
    change (earlier b c d exported).filter _ = some s at hfound
    obtain ⟨hs, halias⟩ := Option.filter_eq_some_iff.mp hfound
    have hown : b.IsOwn s := ⟨h.lt_of_inTables (inTables_of_earlier hs), by simpa using halias⟩
    have hkind := addKind_changes (b := b) (s := s) kind
    exact hrest hkind (hown.keep hkind.keeps) (Or.inl ⟨hs, hown⟩)
  · next hfound =>
    change (earlier b c d exported).filter _ = none at hfound
    let x := fresh d.name.text kind c.owner
    have hpush := push_changes (b := b) (s := b.symbols.size) (x := x) rfl rfl
    have hnew := isOwn_push (b := b) (x := x) rfl
    refine hrest hpush hnew (Or.inr ⟨rfl, fun t hearlier => ?_⟩)
    rw [hearlier, Option.filter_eq_none_iff] at hfound
    simpa using hfound t rfl

theorem name_relabels {s : SymbolIndex} (c : Container) (name : String) (isLocal : Bool)
    (owner : Option SymbolIndex) :
    Gives (do
      if isLocal then modify (·.bindName c name s)
      if let some o := owner then modify (·.addMember o name s)
      return s) b fun t b' => t = s ∧ Relabels s (fun _ => False) b b' := by
  have hmember (b : Bindings) : Gives (do
      if let some o := owner then modify (·.addMember o name s)
      return s) b fun t b' => t = s ∧ Relabels s (fun _ => False) b b' := by
    cases owner with
    | none => exact ⟨rfl, .refl s b⟩
    | some o => exact ⟨rfl, addMember_relabels o name s⟩
  cases isLocal with
  | false => exact hmember b
  | true =>
    obtain ⟨hs, hlabel⟩ := hmember (b.bindName c name s)
    exact ⟨hs, ((bindName_relabels c name s).trans hlabel).congr (by simp)⟩

/-- The symbol of a declaration comes to be of its kind, and a new one is called what the
declaration is. -/
theorem declareSymbol_relabels (h : b.Sound known none) (c : Container) (file : FileIndex)
    (i : DeclIndex) (d : Declaration) (kind : SymbolKind) (exported : Bool) :
    Gives (declareSymbol c file i d kind exported) b fun s b' => Relabels s (· = kind) b b' ∧
      (s = b.symbols.size → (b'.symbol s).name = d.name.text) := by
  have hrest {s : SymbolIndex} (b₁ : Bindings) (hs : s < b₁.symbols.size)
      (hlabel : Relabels s (· = kind) b b₁)
      (hname : s = b.symbols.size → (b₁.symbol s).name = d.name.text) : Gives (do
        modify (·.addDeclaration s file i)
        if isLocal d then modify (·.bindName c d.name.text s)
        if let some o := ownerOf c d exported then modify (·.addMember o d.name.text s)
        return s) b₁ fun s b' => Relabels s (· = kind) b b' ∧
          (s = b.symbols.size → (b'.symbol s).name = d.name.text) := by
    refine .bind (modify_gives (Q := fun _ b₂ => b₂ = b₁.addDeclaration s file i) rfl) ?_
    rintro - _ rfl
    refine (name_relabels (s := s) c d.name.text (isLocal d) (ownerOf c d exported)).mono ?_
    rintro _ b' ⟨rfl, hnames⟩
    have hkept := (addDeclaration_relabels _ file i).trans hnames
    exact ⟨(hlabel.trans hkept).congr (by simp), fun hnew => (hkept.name _ hs).trans (hname hnew)⟩
  unfold declareSymbol
  refine .get ?_
  dsimp only
  split
  · next s hfound =>
    change (earlier b c d exported).filter _ = some s at hfound
    have hs := h.lt_of_inTables (inTables_of_earlier (Option.filter_eq_some_iff.mp hfound).1)
    have hlabel := addKind_relabels hs kind
    exact hrest _ (Nat.lt_of_lt_of_le hs hlabel.size) hlabel fun hnew =>
      absurd hnew (Nat.ne_of_lt hs)
  · let x := fresh d.name.text kind c.owner
    refine hrest { b with symbols := b.symbols.push x } (by simp)
      ((push_relabels (x := x) List.nodup_nil).congr (by simp [x, fresh, Symbol.isA])) fun _ => ?_
    rw [symbol_push, if_pos rfl]
    rfl

/-- An import comes to a declared symbol of its name, or to a new import. -/
theorem declareAlias_changes (c : Container) (name : String) (target : AliasTarget) :
    Gives (declareAlias c name target) b fun s b' =>
      ∃ bound : Bool → Site → String → Prop,
        Changes s bound (fun _ _ => False) (fun _ => False) b b' ∧
        (∀ g scope other, bound g scope other → other = name ∧ g = c.isGlobal ∧
          (g = true ∨ scope = c.scope) ∧
          ∀ t, b.named g scope other = some t → (b.symbol t).isAlias = true) ∧
        ((b'.symbol s).isAlias = true ∨ ∀ g scope other, ¬ bound g scope other) ∧
        b'.named c.isGlobal c.scope name = some s ∧ (b.InTables s ∨ s = b.symbols.size) := by
  unfold declareAlias
  refine .get ?_
  cases hfound : ((b.names c).get? name).filter fun s => !(b.symbol s).isAlias with
  | some s =>
    obtain ⟨hs, -⟩ := Option.filter_eq_some_iff.mp hfound
    exact ⟨_, .refl s b, by simp, Or.inr (by simp), hs,
      Or.inl (Or.inl ⟨c.isGlobal, c.scope, name, hs⟩)⟩
  | none =>
    let x : Symbol := { fresh name .importAlias c.owner with aliasOf := some ⟨target, c.scope⟩ }
    have hpush := push_changes (b := b) (s := b.symbols.size) (x := x) rfl rfl
    have hname := bindName_changes (s := b.symbols.size)
      (b := { b with symbols := b.symbols.push x }) c name
    have halias : ((({ b with symbols := b.symbols.push x } : Bindings).bindName c name
        b.symbols.size).symbol b.symbols.size).isAlias = true := by
      rw [hname.keeps.isAlias _ (by simp), symbol_push, if_pos rfl]
      rfl
    refine ⟨_, (hpush.trans hname).congr (fun _ _ _ => Iff.rfl) (by simp) (by simp), ?_,
      Or.inl halias, hname.named_of _ _ _ (by simp), Or.inr rfl⟩
    · rintro g scope other (hfalse | ⟨rfl, hscope, rfl⟩)
      · exact hfalse.elim
      · refine ⟨rfl, rfl, hscope, fun t ht => ?_⟩
        have hname : (b.names c).get? other = some t := by
          rcases hscope with hglobal | rfl
          · unfold named at ht
            unfold names
            rw [hglobal] at ht ⊢
            exact ht
          · exact ht
        rw [hname, Option.filter_eq_none_iff] at hfound
        simpa using hfound t rfl

/-- Where there is no declared symbol of its name, the import is a new symbol of that name. -/
theorem declareAlias_relabels (c : Container) (name : String) (target : AliasTarget) :
    Gives (declareAlias c name target) b fun s b' => b' = b ∨ s = b.symbols.size ∧
      Relabels s (· = .importAlias) b b' ∧ (b'.symbol s).name = name ∧
        (b'.symbol s).isAlias = true := by
  unfold declareAlias
  refine .get ?_
  cases ((b.names c).get? name).filter fun s => !(b.symbol s).isAlias with
  | some s => exact Or.inl rfl
  | none =>
    let x : Symbol := { fresh name .importAlias c.owner with aliasOf := some ⟨target, c.scope⟩ }
    have hnames := bindName_relabels (s := b.symbols.size)
      (b := { b with symbols := b.symbols.push x }) c name b.symbols.size
    refine Or.inr ⟨rfl, ((push_relabels (x := x) List.nodup_nil).trans hnames).congr
      (by simp [x, fresh, Symbol.isA]), (hnames.name b.symbols.size (by simp)).trans ?_, ?_⟩
    · rw [symbol_push, if_pos rfl]
      rfl
    · have hkeeps : Keeps { b with symbols := b.symbols.push x } _ :=
        bindName_keeps c name b.symbols.size
      refine (hkeeps.isAlias b.symbols.size (by simp)).trans ?_
      rw [symbol_push, if_pos rfl]
      rfl

theorem ambientModule_changes (h : b.Sound known none) (name : String) :
    Gives (ambientModule name) b fun s b' =>
      Changes s (fun _ _ _ => False) (fun _ _ => False) (fun _ => False) b b' ∧ b'.IsOwn s ∧
        (b.InTables s ∨ s = b.symbols.size) := by
  unfold ambientModule
  refine .get ?_
  cases hfound : b.ambient.get? name with
  | some s =>
    exact ⟨.refl s b, h.ambient name s hfound, Or.inl (Or.inr (Or.inr ⟨name, hfound⟩))⟩
  | none =>
    let x := fresh name .ambientModule none
    have hpush := push_changes (b := b) (s := b.symbols.size) (x := x) rfl rfl
    have hnew := isOwn_push (b := b) (x := x) rfl
    exact ⟨(hpush.trans (ambient_changes name)).congr (by simp) (by simp) (by simp),
      hnew.keep (ambient_changes name).keeps, Or.inr rfl⟩

/-- A member of an enum comes to the member that its name has there, or to a new one. -/
theorem enumMember_changes (h : b.Sound known none) (file : FileIndex) {owner : SymbolIndex}
    (howner : owner < b.symbols.size) (i : DeclIndex) (name : String) :
    Gives (enumMember file owner i name) b fun _ b' =>
      ∃ s, ∃ joins : SymbolIndex → String → Prop,
        Changes s (fun _ _ _ => False) joins (· = .declaration file i) b b' ∧
        (∀ o other, joins o other →
          o = owner ∧ other = name ∧ b.member o other = none ∧ b'.IsOwn s) ∧
        (b.member owner name = some s ∧ Relabels s (fun _ => False) b b' ∨ s = b.symbols.size ∧
          Relabels s (· = .enumMember) b b' ∧ (b'.symbol s).name = name ∧ b'.IsOwn s) := by
  unfold enumMember
  refine .get ?_
  cases hfound : (b.symbol owner).members.get? name with
  | some s =>
    have hlt : s < b.symbols.size := h.members owner name s hfound
    exact ⟨s, _, addDeclaration_changes hlt file i, fun _ _ => False.elim,
      Or.inl ⟨hfound, addDeclaration_relabels s file i⟩⟩
  | none =>
    let x := fresh name .enumMember (some owner)
    have hpush := push_changes (b := b) (s := b.symbols.size) (x := x) rfl rfl
    have hnew := isOwn_push (b := b) (x := x) rfl
    have hjoin := addMember_changes (s := b.symbols.size)
      (Nat.lt_of_lt_of_le howner hpush.keeps.size) name
    have hown := hnew.keep hjoin.keeps
    have hsite := addDeclaration_changes hown.1 file i
    have hrest := (addMember_relabels (s := b.symbols.size)
      (b := { b with symbols := b.symbols.push x }) owner name b.symbols.size).trans
        (addDeclaration_relabels b.symbols.size file i)
    have hname := hrest.name b.symbols.size hnew.1
    rw [symbol_push, if_pos rfl] at hname
    refine ⟨b.symbols.size, _, ((hpush.trans hjoin).trans hsite).congr (by simp)
      (fun _ _ => Iff.rfl) (by simp), ?_, Or.inr ⟨rfl, ?_, hname, hown.keep hsite.keeps⟩⟩
    case refine_2 =>
      exact ((push_relabels List.nodup_nil).trans hrest).congr (by simp [x, fresh, Symbol.isA])
    rintro o other ((hfalse | ⟨rfl, rfl⟩) | hfalse)
    · exact hfalse.elim
    · exact ⟨rfl, rfl, hfound, hown.keep hsite.keeps⟩
    · exact hfalse.elim

end Bind

end ApiSurface
