import ApiSurface.Proofs.DeclaredKinds
import ApiSurface.Proofs.TablesComputedOnce
import ApiSurface.Proofs.ExportRules
/-!
What the bodies of a module see of each other. A name in a body is looked up among the members of
the module, which its declarations join when they are bound; what the module exports is worked out
from its statements. The two agree on a name that is exported by declarations, as long as nothing
else is exported under it.
-/
namespace ApiSurface

namespace Statement

/-- Whether the statement exports something under a name by other means than a declaration. A list
in which the name stands for itself does not. -/
def redefines (n : String) : Statement → Bool
  | .importEquals _ name true _ => name.text == n
  | .exportNamed _ _ specifiers source =>
    specifiers.any fun x => x.exported.text == n && (source.isSome || x.source.text != n)
  | .exportAll _ (some name) _ => name.text == n
  | .exportAssignment _ isEquals _ => n == if isEquals then exportEquals else "default"
  | _ => false

/-- Whether the statement is a list of exports in which a name stands for itself. -/
def lists (n : String) : Statement → Bool
  | .exportNamed _ _ specifiers none =>
    specifiers.any fun x => x.exported.text == n && x.source.text == n
  | _ => false

end Statement

namespace Loaded

variable {l : Loaded} {b : Bindings} {n : String} {o : SymbolIndex}

/-- A body leaves a name to its module: all its declarations of the name are exported, and it only
imports the name where they hide the import. -/
def Defers (l : Loaded) (σ : Site) (n : String) : Prop :=
  (∀ e ∈ l.declarationsOf σ n, l.exports σ e.2 = true) ∧
    (n ∈ l.importNames σ → l.declarationsOf σ n ≠ [])

/-- No body of a symbol exports anything under a name but declarations. A body may list the name as
an export if it leaves the name to the module. -/
def OnlyDeclares (l : Loaded) (b : Bindings) (o : SymbolIndex) (n : String) : Prop :=
  ∀ σ, b.DeclaredAt o σ → ∀ statement ∈ l.statements σ,
    statement.redefines n = false ∧ (statement.lists n = true → l.Defers σ n)

theorem OnlyDeclares.not_reexports (h : l.OnlyDeclares b o n) : ¬ l.Reexports b o n := by
  rintro ⟨σ, hσ, span, name, target, hmem, hname⟩
  have hredefines := (h σ hσ _ hmem).1
  rw [Statement.redefines, hname, beq_self_eq_true] at hredefines
  cases hredefines

end Loaded

namespace Program

variable {fs : FileSystem} {root : Path} {names : List String} {p : Program} {σ τ : Site}
  {n : String} {o t : SymbolIndex} {e : DeclIndex × Declaration}

/-! ### What is found in a body -/

theorem exists_declaredAt (h : load fs root names = .ok p) (he : e ∈ p.declarationsOf σ n) :
    ∃ t, p.DeclaredAt t (σ.inner e.1) :=
  (load_merging h).declared he
    (Loaded.listed_reached (load_forest h) (fun _ _ hf => load_tidy h hf) he)

/-- What a body exports by a declaration is a member of its module. -/
theorem exists_member (h : load fs root names = .ok p) (hreexports : ¬ p.Reexports p.toBindings o n)
    (hσ : p.DeclaredAt o σ) (he : e ∈ p.declarationsOf σ n) (hexports : p.exports σ e.2 = true) :
    ∃ t, p.toBindings.member o n = some t ∧ p.IsOwn t ∧ p.DeclaredAt t (σ.inner e.1) := by
  have hmerged := (load_merging h).merged
  obtain ⟨t, ht⟩ := exists_declaredAt h he
  exact ⟨t, hmerged.member he hexports (isGlobal_of_declaredAt h hσ) hσ hreexports ht,
    hmerged.own he ht, ht⟩

/-- The symbol that a body of a module binds a name to, if it leaves the name to the module. -/
theorem named_of_defers (h : load fs root names = .ok p)
    (hreexports : ¬ p.Reexports p.toBindings o n) (hσ : p.DeclaredAt o σ)
    (hdefers : p.Defers σ n) (ht : p.toBindings.member o n = some t) :
    p.toBindings.named false σ n = (if p.declarationsOf σ n = [] then none else some t) := by
  have hall := load_merging h
  have hglobal := isGlobal_of_declaredAt h hσ
  have hown {u : SymbolIndex} (hu : p.toBindings.named false σ n = some u) (howned : p.IsOwn u) :
      ∃ e ∈ p.declarationsOf σ n, u = t := by
    obtain ⟨e, he, hsite⟩ := hall.merged.origin hglobal hu howned
    have hmember := hall.merged.member he (hdefers.1 e he) hglobal hσ hreexports hsite
    exact ⟨e, he, Option.some.inj (hmember.symm.trans ht)⟩
  split
  · next hnone =>
    cases hname : p.toBindings.named false σ n with
    | none => rfl
    | some u =>
      have hlt : u < p.symbols.size := hall.sound.lt_of_inTables (Or.inl ⟨false, σ, n, hname⟩)
      cases halias : (p.symbol u).isAlias with
      | true => exact absurd hnone (hdefers.2 (hall.merged.imported hglobal hname halias))
      | false =>
        obtain ⟨e, he, -⟩ := hown hname ⟨hlt, halias⟩
        exact absurd he (hnone ▸ List.not_mem_nil)
  · next hsome =>
    obtain ⟨e, he⟩ := List.exists_mem_of_ne_nil _ hsome
    obtain ⟨v, hv⟩ := exists_declaredAt h he
    obtain ⟨u, hname, howned⟩ := hall.merged.owned he hv
    rw [hglobal] at hname
    obtain ⟨-, -, rfl⟩ := hown hname howned
    exact hname

theorem of_mem_bodies {statements : List Statement} (hbody : (σ, statements) ∈ p.bodies o) :
    p.DeclaredAt o σ ∧ p.statements σ = statements ∧
      ∀ j, σ.index? = some j → (p.source σ.fileIndex).body? j = some statements := by
  obtain ⟨site, hsite, hsome⟩ := List.mem_filterMap.mp hbody
  cases site with
  | file f =>
    obtain ⟨rfl, rfl⟩ := Prod.mk.inj (Option.some.inj hsome)
    exact ⟨hsite, rfl, nofun⟩
  | declaration f j =>
    obtain ⟨body, hsource, heq⟩ := Option.map_eq_some_iff.mp hsome
    obtain ⟨rfl, rfl⟩ := Prod.mk.inj heq
    have hstatements : ((p.source f).body? j).getD [] = body := by rw [hsource, Option.getD_some]
    refine ⟨hsite, hstatements, ?_⟩
    rintro _ ⟨⟩
    exact hsource

/-- The body of a module is no block for the whole program. -/
theorem naming_of_mem_bodies (h : load fs root names = .ok p) {f : FileIndex} {j : DeclIndex}
    {statements : List Statement} (hbody : (.declaration f j, statements) ∈ p.bodies o) :
    ∃ naming, ((p.source f).declaration? j).bind (·.naming?) = some naming ∧ naming ≠ .global := by
  obtain ⟨hsite, -, hbody⟩ := of_mem_bodies hbody
  obtain ⟨d, hd, hbody⟩ := Option.bind_eq_some_iff.mp (hbody j rfl)
  unfold Declaration.body? at hbody
  split at hbody
  · next naming body hshape =>
    have hnaming : ((p.source f).declaration? j).bind (·.naming?) = some naming := by
      change (p.source f).declaration? j = some d at hd
      rw [hd, Option.bind_some, Declaration.naming?, hshape]
    refine ⟨naming, hnaming, ?_⟩
    rintro rfl
    have hglobal := isGlobal_of_declaredAt h hsite
    exact Bool.false_ne_true (hglobal.symm.trans (beq_iff_eq.mpr hnaming))
  · cases hbody

/-- In a body that leaves a name to its module, the name is that of the member of the module. A file
has to declare it. -/
theorem lookupName_of_defers (h : load fs root names = .ok p)
    (hreexports : ¬ p.Reexports p.toBindings o n) {statements : List Statement}
    (hbody : (σ, statements) ∈ p.bodies o) (hdefers : p.Defers σ n)
    (ht : p.toBindings.member o n = some t) (hfile : σ.index? = none → p.declarationsOf σ n ≠ []) :
    p.lookupName σ n = some t := by
  obtain ⟨hσ, -⟩ := of_mem_bodies hbody
  have hnamed : (p.locals.get? σ).bind (·.get? n) =
      if p.declarationsOf σ n = [] then none else some t := by
    rw [← named_of_defers h hreexports hσ hdefers ht]
    change _ = ((p.locals.get? σ).getD []).get? n
    cases p.locals.get? σ <;> rfl
  cases σ with
  | file f =>
    rw [if_neg (hfile rfl)] at hnamed
    exact congrArg (· <|> p.globals.get? n) hnamed
  | declaration f j =>
    obtain ⟨naming, hnaming, hglobal⟩ := naming_of_mem_bodies h hbody
    have hsymbol : (p.symbolOf.get? (f, j)).bind (fun s => (p.symbol s).members.get? n) =
        some t := by
      rw [(load_merging h).merged.symbolOf hσ]
      exact ht
    have hin : p.lookupIn f n j = some t := by
      unfold lookupIn
      rw [hnaming, hnamed, hsymbol]
      split
      · next heq => cases heq
      · next heq => exact absurd (Option.some.inj heq) hglobal
      · split <;> rfl
    obtain ⟨others, hothers⟩ : ∃ others, (p.source f).enclosing j = j :: others := by
      rw [SourceFile.enclosing]
      exact ⟨_, rfl⟩
    have hfound : ((p.source f).enclosing j).findSome? (p.lookupIn f n) = some t := by
      rw [hothers, List.findSome?_cons, hin]
    exact congrArg (· <|> _) hfound

/-! ### What is exported -/

/-- What a body exports under a name by a declaration, and not by default, it declares. -/
theorem declares_of_exportedName? (h : load fs root names = .ok p) (hn : n ≠ "default")
    {i : DeclIndex} {d : Declaration} (hi : i ∈ declaredIn (p.statements σ))
    (hd : (p.source σ.fileIndex).declaration? i = some d) (hname : p.exportedName? σ d = some n) :
    (i, d) ∈ p.declarationsOf σ n ∧ p.exports σ d = true := by
  obtain ⟨hexported, hdefault, rfl⟩ : (d.isExported || p.exportingAll.contains σ) = true ∧
      d.isDefaultExport = false ∧ d.name.text = n := by
    unfold exportedName? at hname
    split at hname
    · cases hname
    · cases hname
    · split at hname
      · next hexported =>
        have hname := Option.some.inj hname
        split at hname
        · exact absurd hname.symm hn
        · next hdefault => exact ⟨hexported, Bool.eq_false_iff.mpr hdefault, hname⟩
      · cases hname
  constructor
  · refine Loaded.mem_declarationsOf.mpr ⟨hi, hd, ?_⟩
    have hlocal : Bind.isLocal d = true := by rw [Bind.isLocal, hdefault]; rfl
    obtain ⟨d', hd', hmember⟩ := (load_parsed h).stands hi
    obtain rfl := Option.some.inj (hd.symm.trans hd')
    unfold exportedName? Declaration.naming? at hname
    unfold Declaration.localName?
    split
    · next hshape =>
      rw [hshape] at hname
      cases hname
    · next hshape =>
      rw [hshape] at hname
      cases hname
    · next initial hshape => exact absurd ⟨initial, hshape⟩ hmember
    · rw [if_pos hlocal]
  · have hall : (d.isExported || p.exportsAll σ) = true := by
      rcases Bool.or_eq_true_iff.mp hexported with hexported | hlisted
      · rw [hexported, Bool.true_or]
      · rw [(load_merging h).merged.silent σ (List.contains_iff_mem.mp hlisted), Bool.or_true]
    rw [Loaded.exports, hall, hdefault]
    rfl

/-- A question whose answer is as wanted, whatever is remembered. -/
def Yields {α : Type} (x : Query α) (P : α → Prop) : Prop := ∀ memory, P (x memory).1

section Rules

variable {α β : Type} {P : α → Prop} {Q : β → Prop}

theorem Yields.pure {a : α} (h : P a) : Yields (Pure.pure a) P := fun _ => h

theorem Yields.bind {x : Query α} {f : α → Query β} (hf : ∀ a, Yields (f a) Q) :
    Yields (x >>= f) Q := fun memory => hf _ (x memory).2

theorem Yields.then {x : Query α} {f : α → Query β} (hx : Yields x P)
    (hf : ∀ a, P a → Yields (f a) Q) : Yields (x >>= f) Q :=
  fun memory => hf _ (hx memory) (x memory).2

theorem Yields.mono {P' : α → Prop} {x : Query α} (hx : Yields x P) (h : ∀ a, P a → P' a) :
    Yields x P' := fun memory => h _ (hx memory)

theorem Yields.foldlM {f : β → α → Query β} {l : List α}
    (hf : ∀ a ∈ l, ∀ b, Q b → Yields (f b a) Q) {b : β} (hb : Q b) : Yields (l.foldlM f b) Q := by
  induction l generalizing b with
  | nil => exact .pure hb
  | cons a l ih =>
    rw [List.foldlM_cons]
    exact .then (hf a List.mem_cons_self b hb) fun b' hb' =>
      ih (fun a' ha' => hf a' (List.mem_cons_of_mem _ ha')) hb'

/-- One of the steps brings about what all of them keep. -/
theorem Yields.foldlM_of_mem {I : β → Prop} {f : β → α → Query β} {l : List α}
    (hI : ∀ a ∈ l, ∀ b, I b → Yields (f b a) I) (hQ : ∀ a ∈ l, ∀ b, Q b → Yields (f b a) Q)
    {x : α} (hx : x ∈ l) (hstep : ∀ b, I b → Yields (f b x) Q) {b : β} (hb : I b) :
    Yields (l.foldlM f b) Q := by
  induction l generalizing b with
  | nil => cases hx
  | cons a l ih =>
    rw [List.foldlM_cons]
    have hI' := fun a' (ha' : a' ∈ l) => hI a' (List.mem_cons_of_mem _ ha')
    have hQ' := fun a' (ha' : a' ∈ l) => hQ a' (List.mem_cons_of_mem _ ha')
    rcases List.mem_cons.mp hx with rfl | hx
    · exact .then (hstep b hb) fun b' hb' => .foldlM hQ' hb'
    · exact .then (hI a List.mem_cons_self b hb) fun b' hb' => ih hI' hQ' hx hb'

end Rules

/-- Exports in which a name has the meaning that it has in others, or means a symbol. -/
def KeepsMeaning (n : String) (t : SymbolIndex) (e e' : Explicit) : Prop :=
  Table.get? e'.table n = Table.get? e.table n ∨ Table.get? e'.table n = some (.symbol t)

section Explicit

variable {e₁ e₂ e₃ : Explicit} {r : Resolution} {name : String}

theorem KeepsMeaning.refl (n : String) (t : SymbolIndex) (e : Explicit) : KeepsMeaning n t e e :=
  Or.inl rfl

theorem KeepsMeaning.trans (h : KeepsMeaning n t e₁ e₂) (h' : KeepsMeaning n t e₂ e₃) :
    KeepsMeaning n t e₁ e₃ := by
  rcases h' with h' | h'
  · exact h.imp h'.trans h'.trans
  · exact Or.inr h'

theorem KeepsMeaning.set (e : Explicit) (h : name ≠ n ∨ r = .symbol t) :
    KeepsMeaning n t e (e.set name r) := by
  unfold KeepsMeaning Explicit.set
  rw [Table.get?_insert]
  split
  · next heq => exact Or.inr (congrArg some (h.resolve_left fun hne => hne (eq_of_beq heq).symm))
  · exact Or.inl rfl

theorem KeepsMeaning.set? (e : Explicit) {r : Option Resolution}
    (h : name ≠ n ∨ ∀ x, r = some x → x = .symbol t) : KeepsMeaning n t e (e.set? name r) := by
  cases r with
  | none => exact .refl n t e
  | some x => exact .set e (h.imp_right fun h => h x rfl)

theorem KeepsMeaning.foldl {α : Type} {f : Explicit → α → Explicit} {l : List α}
    (hf : ∀ a ∈ l, ∀ e, KeepsMeaning n t e (f e a)) (e : Explicit) :
    KeepsMeaning n t e (l.foldl f e) := by
  induction l generalizing e with
  | nil => exact .refl n t e
  | cons a l ih =>
    exact (hf a List.mem_cons_self e).trans
      (ih (fun a' ha' => hf a' (List.mem_cons_of_mem _ ha')) _)

end Explicit

variable {ask : SymbolIndex → Query ExportTable}

/-- What is no import comes to itself. -/
theorem resolveBy_own (hown : p.IsOwn t) : p.resolveBy ask t = pure (some (.symbol t)) := by
  have hnone : (p.symbol t).aliasOf = none := Option.isNone_iff_eq_none.mp (by
    rw [← Option.not_isSome]
    exact congrArg (! ·) hown.2)
  rw [resolveBy, aliasLimit, aliasBy, hnone]

/-- A statement that redefines no export of a name leaves it with its meaning, or gives it that of
the declarations. -/
theorem exportBy_keeps (hown : p.IsOwn t) {statement : Statement}
    (hredefines : statement.redefines n = false)
    (hlists : statement.lists n = true → p.lookupName σ n = some t)
    (hdeclares : ∀ i d s, statement = .declaration i →
      (p.source σ.fileIndex).declaration? i = some d → p.exportedName? σ d = some n →
        p.symbolOf.get? (σ.fileIndex, i) = some s → s = t)
    (e : Explicit) : Yields (p.exportBy ask σ e statement) (KeepsMeaning n t e) := by
  have hrefl : Yields (Pure.pure e) (KeepsMeaning n t e) := .pure (.refl n t e)
  cases statement with
  | declaration i =>
    unfold exportBy
    dsimp only
    split
    · next d hd =>
      split
      · next name s hname hs =>
        refine .pure ?_
        unfold KeepsMeaning
        dsimp only
        rw [Table.get?_insertNew]
        by_cases heq : n = name
        · obtain rfl := hdeclares i d s rfl hd (heq ▸ hname) hs
          cases Table.get? e.table n with
          | none => exact Or.inr (if_pos (beq_iff_eq.mpr heq))
          | some r => exact Or.inl rfl
        · rw [if_neg (by simpa using heq)]
          cases Table.get? e.table n <;> exact Or.inl rfl
      · exact hrefl
    · exact hrefl
  | importEquals span name isExport target =>
    cases isExport with
    | false => exact hrefl
    | true => exact .bind fun r => .pure (.set? e (Or.inl (beq_eq_false_iff_ne.mp hredefines)))
  | exportNamed span typeOnly specifiers specifier =>
    have hother {x : ExportSpecifier} (hx : x ∈ specifiers) (heq : x.exported.text = n) :
        specifier = none ∧ x.source.text = n := by
      have hfalse := List.any_eq_false.mp hredefines x hx
      simpa [heq] using hfalse
    cases specifier with
    | none =>
      refine .foldlM (fun x hx e' he' => ?_) (.refl n t e)
      by_cases heq : x.exported.text = n
      · have hsource := (hother hx heq).2
        have hlocal : p.localBy ask σ x.source.text = Pure.pure (some (.symbol t)) := by
          unfold localBy
          rw [hsource, hlists (List.any_eq_true.mpr ⟨x, hx, by simp [heq, hsource]⟩)]
          exact resolveBy_own hown
        rw [hlocal, map_pure]
        refine .pure (he'.trans (.set? e' (Or.inr ?_)))
        rintro r ⟨⟩
        rfl
      · exact fun memory => he'.trans (.set? e' (Or.inl heq))
    | some specifier =>
      have hne {x : ExportSpecifier} (hx : x ∈ specifiers) : x.exported.text ≠ n :=
        fun heq => nomatch (hother hx heq).1
      unfold exportBy
      dsimp only
      split
      · exact .bind fun exports => .pure (.foldl (fun x hx e => .set? e (Or.inl (hne hx))) e)
      · exact .pure (.foldl (fun x hx e => .set e (Or.inl (hne hx))) e)
  | exportAll span name specifier =>
    cases name with
    | none => exact hrefl
    | some name => exact .pure (.set e (Or.inl (beq_eq_false_iff_ne.mp hredefines)))
  | exportAssignment span isEquals target =>
    refine .bind fun r => ?_
    have hne := beq_eq_false_iff_ne.mp hredefines
    cases r with
    | none => exact hrefl
    | some r => cases isEquals <;> exact .pure (.set e (Or.inl hne.symm))
  | importFrom span typeOnly default nameSpace named specifier => exact hrefl
  | unknown span => exact hrefl

/-- The declaration of a body gives its name its meaning. -/
theorem exportBy_declares {i : DeclIndex} {d : Declaration}
    (hd : (p.source σ.fileIndex).declaration? i = some d) (hname : p.exportedName? σ d = some n)
    (hs : p.symbolOf.get? (σ.fileIndex, i) = some t) {e : Explicit}
    (he : Table.get? e.table n = none ∨ Table.get? e.table n = some (.symbol t)) :
    Yields (p.exportBy ask σ e (.declaration i))
      fun e' => Table.get? e'.table n = some (.symbol t) := by
  have hrun : p.exportBy ask σ e (.declaration i) =
      Pure.pure { e with table := e.table.insertNew n (.symbol t) } := by
    unfold exportBy
    dsimp only
    rw [hd]
    dsimp only
    rw [hname, hs]
  rw [hrun]
  refine .pure ?_
  rw [Table.get?_insertNew, beq_self_eq_true]
  rcases he with he | he <;> rw [he] <;> rfl

/-- A module exports a symbol under a name if one of its statements gives the name that meaning and
the others keep it. -/
structure Means (p : Program) (o : SymbolIndex) (n : String) (t : SymbolIndex) : Prop where
  keeps : ∀ body ∈ p.bodies o, ∀ statement ∈ body.2, ∀ (ask : SymbolIndex → Query ExportTable) e,
    Yields (p.exportBy ask body.1 e statement) (KeepsMeaning n t e)
  declares : ∃ body ∈ p.bodies o, ∃ statement ∈ body.2,
    ∀ (ask : SymbolIndex → Query ExportTable) (e : Explicit),
      Table.get? e.table n = none ∨ Table.get? e.table n = some (.symbol t) →
        Yields (p.exportBy ask body.1 e statement)
          fun e' => Table.get? e'.table n = some (.symbol t)

theorem Means.explicitBy (h : p.Means o n t) :
    Yields (p.explicitBy ask o) fun e => Table.get? e.table n = some (.symbol t) := by
  have hkeeps {P : Option Resolution → Prop} (hP : P (some (.symbol t)))
      (body : Site × List Statement) (hbody : body ∈ p.bodies o) (statement : Statement)
      (hstatement : statement ∈ body.2) (e : Explicit) (he : P (Table.get? e.table n)) :
      Yields (p.exportBy ask body.1 e statement) fun e' => P (Table.get? e'.table n) :=
    (h.keeps body hbody statement hstatement ask e).mono fun e' he' =>
      he'.elim (fun heq => heq ▸ he) fun heq => heq ▸ hP
  have hbodies {P : Option Resolution → Prop} (hP : P (some (.symbol t)))
      (body : Site × List Statement) (hbody : body ∈ p.bodies o) (e : Explicit)
      (he : P (Table.get? e.table n)) :
      Yields (body.2.foldlM (p.exportBy ask body.1) e) fun e' => P (Table.get? e'.table n) :=
    .foldlM (hkeeps hP body hbody) he
  obtain ⟨body, hbody, statement, hstatement, hdeclares⟩ := h.declares
  let May : Option Resolution → Prop := fun r => r = none ∨ r = some (.symbol t)
  have hmay : May (some (.symbol t)) := Or.inr rfl
  exact .foldlM_of_mem (I := fun e => May (Table.get? e.table n)) (hbodies hmay)
    (hbodies (P := (· = some (.symbol t))) rfl) hbody
    (fun e he => .foldlM_of_mem (I := fun e => May (Table.get? e.table n))
      (hkeeps hmay body hbody) (hkeeps (P := (· = some (.symbol t))) rfl body hbody) hstatement
      (hdeclares ask) he) (Or.inl rfl)

theorem get?_addMissing {table : ExportTable} {r : Resolution} (h : Table.get? table n = some r)
    (passes : String → Bool) (more : ExportTable) :
    Table.get? (addMissing table passes more) n = some r := by
  unfold addMissing
  induction more generalizing table with
  | nil => exact h
  | cons entry more ih =>
    refine ih ?_
    dsimp only
    split
    · rw [Table.get?_insertNew, h]
      rfl
    · exact h

theorem Means.exportsBy (h : p.Means o n t) :
    Yields (p.exportsBy ask o) fun table => Table.get? table n = some (.symbol t) := by
  refine .then h.explicitBy fun e he => ?_
  refine .then (P := fun table => Table.get? table n = some (.symbol t))
    (.foldlM (fun star _ table htable => ?_) he) fun table htable => ?_
  · dsimp only
    split
    · exact .bind fun more => .pure (get?_addMissing htable _ more)
    · exact .pure htable
  · split
    · split
      · exact .bind fun more => .pure (get?_addMissing htable _ more)
      · exact .pure htable
    · exact .pure htable

/-- Whatever a program remembers of a module, the name means the symbol in it. -/
def Recalls (o : SymbolIndex) (n : String) (t : SymbolIndex) (memory : Memory) : Prop :=
  ∀ table, memory.get? o = some table → Table.get? table n = some (.symbol t)

theorem Means.askWithin (h : p.Means o n t) (fuel : ℕ) (busy : List SymbolIndex) (s : SymbolIndex) :
    (keeping (Recalls o n t)).rel (p.askWithin fuel busy s) (p.askWithin fuel busy s) := by
  induction fuel generalizing busy s with
  | zero => exact fun memory hm => hm
  | succ fuel ih =>
    intro memory hm
    cases hmem : memory.get? s with
    | some table => rwa [askWithin_of_get? hmem]
    | none =>
      by_cases hs : s ∈ busy
      · rwa [askWithin_of_mem hmem hs]
      · rw [askWithin_of_new hmem hs]
        intro table htable
        rw [Table.get?_insert] at htable
        split at htable
        · next heq =>
          obtain rfl := eq_of_beq heq
          obtain rfl := Option.some.inj htable
          exact h.exportsBy memory
        · exact exportsBy_rel _ p (ih (s :: busy)) s memory hm table htable

/-- In every run of requests the module exports the symbol under the name. -/
theorem Means.exportsOf (h : p.Means o n t) {memory : Memory} (hm : Recalls o n t memory) :
    Table.get? (p.exportsOf o memory).1 n = some (.symbol t) := by
  unfold Program.exportsOf
  cases hmem : memory.get? o with
  | some table =>
    rw [askWithin_of_get? hmem]
    exact hm table hmem
  | none =>
    rw [askWithin_of_new hmem List.not_mem_nil]
    exact h.exportsBy memory

theorem Means.requests (h : p.Means o n t) (requests : List Request) :
    Recalls o n t (requests.mapM (Request.answer p) []).2 := by
  have hall : (keeping (Recalls o n t)).rel (requests.mapM (Request.answer p))
      (requests.mapM (Request.answer p)) := by
    rw [← funext (Request.answerBy_exportsOf p)]
    exact (keeping _).mapM (answerBy_rel _ (h.askWithin _ _)) requests
  exact hall [] nofun

/-! ### The two agree -/

theorem isModuleLike_of_mem_bodies (h : load fs root names = .ok p) {statements : List Statement}
    (hbody : (σ, statements) ∈ p.bodies o) : (p.symbol o).isModuleLike = true := by
  obtain ⟨hsite, -⟩ := of_mem_bodies hbody
  obtain ⟨k, hk, hmodule⟩ : ∃ k, p.kindAt? σ = some k ∧ k.isModule = true := by
    cases σ with
    | file f => exact ⟨.sourceFile, rfl, rfl⟩
    | declaration f j =>
      obtain ⟨naming, hnaming, -⟩ := naming_of_mem_bodies h hbody
      obtain ⟨d, hd, hnaming⟩ := Option.bind_eq_some_iff.mp hnaming
      have hd : (p.toLoaded.source f).declaration? j = some d := hd
      refine ⟨d.madeKind, by rw [Loaded.kindAt?, hd, Option.map_some], ?_⟩
      unfold Declaration.naming? at hnaming
      split at hnaming
      · next other body hshape =>
        unfold Declaration.madeKind
        rw [hshape]
        split <;> rfl
      · cases hnaming
  rcases (load_labelling h).labelled.isA hsite hk with hisA | ⟨rfl, -⟩
  · exact List.any_eq_true.mpr ⟨k, List.contains_iff_mem.mp hisA, hmodule⟩
  · cases hmodule

/-- A file is the only body of its module. -/
theorem eq_of_file (h : load fs root names = .ok p) (hfile : τ.index? = none)
    (hτ : p.DeclaredAt o τ) (hσ : p.DeclaredAt o σ) : σ = τ := by
  cases τ with
  | file f => exact (load_merging h).merged.file hτ hσ
  | declaration f j => cases hfile

/-- Where nothing but declarations is exported under a name, the module exports its member. -/
theorem means_of_onlyDeclares (h : load fs root names = .ok p) (hn : n ≠ "default")
    (honly : p.OnlyDeclares p.toBindings o n) {statements : List Statement}
    (hσ : (σ, statements) ∈ p.bodies o) (he : e ∈ p.declarationsOf σ n)
    (hexported : p.exportedName? σ e.2 = some n) :
    ∃ t, p.toBindings.member o n = some t ∧ p.IsOwn t ∧ p.DeclaredAt t (σ.inner e.1) ∧
      p.Means o n t := by
  have hmerged := (load_merging h).merged
  have hreexports := honly.not_reexports
  obtain ⟨hi, hd, -⟩ := Loaded.mem_declarationsOf.mp he
  obtain ⟨hsite, hbody, -⟩ := of_mem_bodies hσ
  obtain ⟨t, ht, hown, hdeclared⟩ := exists_member h hreexports hsite he
    (declares_of_exportedName? h hn hi hd hexported).2
  -- whatever a body exports under the name by a declaration is the member
  have hsymbol {τ : Site} {i : DeclIndex} {d : Declaration} (hτ : p.DeclaredAt o τ)
      (hi : i ∈ declaredIn (p.statements τ)) (hd : (p.source τ.fileIndex).declaration? i = some d)
      (hname : p.exportedName? τ d = some n) : p.symbolOf.get? (τ.fileIndex, i) = some t := by
    obtain ⟨hmem, hexports⟩ := declares_of_exportedName? h hn hi hd hname
    obtain ⟨u, hu, -, hplace⟩ := exists_member h hreexports hτ hmem hexports
    obtain rfl := Option.some.inj (hu.symm.trans ht)
    exact hmerged.symbolOf hplace
  have hin : .declaration e.1 ∈ statements := by
    obtain ⟨statement, hstatement, hsome⟩ := List.mem_filterMap.mp hi
    split at hsome
    · obtain rfl := Option.some.inj hsome
      exact hbody ▸ hstatement
    · cases hsome
  refine ⟨t, ht, hown, hdeclared, ⟨?_, (σ, statements), hσ, _, hin, fun ask e he =>
    exportBy_declares hd hexported (hsymbol hsite hi hd hexported) he⟩⟩
  rintro ⟨τ, others⟩ hτ statement hstatement ask e'
  obtain ⟨hτsite, hothers, -⟩ := of_mem_bodies hτ
  have hstatement : statement ∈ p.statements τ := hothers ▸ hstatement
  obtain ⟨hredefines, hdefers⟩ := honly τ hτsite statement hstatement
  refine exportBy_keeps hown hredefines (fun hlists => ?_) (fun i d s heq hd hname hs => ?_) e'
  · refine lookupName_of_defers h hreexports hτ (hdefers hlists) ht fun hfile hnone => ?_
    rw [eq_of_file h hfile hτsite hsite, hnone] at he
    cases he
  · have hi : i ∈ declaredIn (p.statements τ) :=
      List.mem_filterMap.mpr ⟨_, hstatement, heq ▸ rfl⟩
    exact Option.some.inj (hs.symm.trans (hsymbol hτsite hi hd hname))

/-- The bodies of a module see what each of them exports by a declaration, if nothing else is
exported under the name: in a body that neither declares nor imports the name, it means the symbol
that the module exports and has for its member, whatever was asked before. -/
theorem bodies_share_exports (h : load fs root names = .ok p) (hn : n ≠ "default")
    (honly : p.OnlyDeclares p.toBindings o n) {statements others : List Statement}
    (hσ : (σ, statements) ∈ p.bodies o) (he : e ∈ p.declarationsOf σ n)
    (hexported : p.exportedName? σ e.2 = some n) (hτ : (τ, others) ∈ p.bodies o)
    (hdeclares : p.declarationsOf τ n = []) (himports : n ∉ p.importNames τ)
    (requests : List Request) :
    let memory := (requests.mapM (Request.answer p) []).2
    ∃ s, p.DeclaredAt s (σ.inner e.1) ∧ p.lookupName τ n = some s ∧
      (p.resolve s memory).1 = some (.symbol s) ∧ (p.member o n memory).1 = some (.symbol s) ∧
      Table.get? (p.exportsOf o memory).1 n = some (.symbol s) := by
  intro memory
  obtain ⟨s, hs, hown, hdeclared, hmeans⟩ := means_of_onlyDeclares h hn honly hσ he hexported
  have hexports : Table.get? (p.exportsOf o memory).1 n = some (.symbol s) :=
    hmeans.exportsOf (hmeans.requests requests)
  have hdefers : p.Defers τ n := by
    refine ⟨fun e he => ?_, fun himported => absurd himported himports⟩
    rw [hdeclares] at he
    cases he
  refine ⟨s, hdeclared, ?_, ?_, ?_, hexports⟩
  · refine lookupName_of_defers h honly.not_reexports hτ hdefers hs fun hfile => ?_
    have hsame := eq_of_file h hfile (of_mem_bodies hτ).1 (of_mem_bodies hσ).1
    exact hsame ▸ List.ne_nil_of_mem he
  · rw [resolve, resolveBy_own hown]
    rfl
  · have hfind : ExportTable.find? (p.exportsOf o memory).1 n = some (.symbol s) := by
      rw [ExportTable.find?, hexports]
      rfl
    unfold member memberBy
    rw [if_pos (isModuleLike_of_mem_bodies h hσ)]
    exact congrArg (· <|> _) hfind

/-- A namespace with two bodies, the second of which names what the first one exports. -/
def sharingFiles : FileTree := .ofList
  [("/p/index.ts", "export namespace N \x7b export interface A \x7b\x7d \x7d\n" ++
    "export namespace N \x7b type B = A; \x7d")]

theorem second_body_shares : ∃ p,
    load sharingFiles.fileSystem (.ofText "/p") ["index.ts"] = .ok p ∧
      ∃ s, p.DeclaredAt s (.declaration 0 1) ∧ p.lookupName (.declaration 0 2) "A" = some s ∧
        (p.member 1 "A" []).1 = some (.symbol s) := by
  have hrun : (load sharingFiles.fileSystem (.ofText "/p") ["index.ts"]).toOption.map (fun p =>
      decide ((p.bodies 1).map Prod.fst = [.declaration 0 0, .declaration 0 2] ∧
        ((p.declarationsOf (.declaration 0 0) "A").map fun e =>
          (e.1, p.exportedName? (.declaration 0 0) e.2)) = [(1, some "A")] ∧
        (p.declarationsOf (.declaration 0 2) "A").map Prod.fst = [] ∧
        p.importNames (.declaration 0 2) = [] ∧
        ∀ σ ∈ (p.symbol 1).declarations, ∀ statement ∈ p.statements σ,
          statement.redefines "A" = false ∧ statement.lists "A" = false)) = some true := by
    decide +kernel
  obtain ⟨p, hload, hrun⟩ := Walk.exists_of_toOption_map hrun
  obtain ⟨hbodies, hfirst, hsecond, himports, hplain⟩ := of_decide_eq_true hrun
  have hbody {σ : Site} (hσ : σ ∈ (p.bodies 1).map Prod.fst) : ∃ statements,
      (σ, statements) ∈ p.bodies 1 := by
    obtain ⟨body, hbody, rfl⟩ := List.mem_map.mp hσ
    exact ⟨body.2, hbody⟩
  obtain ⟨statements, hσ⟩ := hbody (σ := .declaration 0 0) (hbodies ▸ by simp)
  obtain ⟨others, hτ⟩ := hbody (σ := .declaration 0 2) (hbodies ▸ by simp)
  have honly : p.OnlyDeclares p.toBindings 1 "A" := by
    intro σ hσ statement hstatement
    obtain ⟨hredefines, hlists⟩ := hplain σ hσ statement hstatement
    exact ⟨hredefines, fun h => absurd (hlists.symm.trans h) Bool.false_ne_true⟩
  have hmem : (1, some "A") ∈ (p.declarationsOf (.declaration 0 0) "A").map fun e =>
      (e.1, p.exportedName? (.declaration 0 0) e.2) := hfirst ▸ List.mem_singleton_self _
  obtain ⟨e, he, heq⟩ := List.mem_map.mp hmem
  obtain ⟨hindex, hexported⟩ := Prod.mk.inj heq
  obtain ⟨s, hs, hlookup, -, hmember, -⟩ := bodies_share_exports hload (by decide) honly hσ he
    hexported hτ (List.map_eq_nil_iff.mp hsecond) (himports ▸ List.not_mem_nil) []
  exact ⟨p, hload, s, hindex ▸ hs, hlookup, hmember⟩

/-- The first body of a module lists what it exports. -/
def listingFiles : FileTree := .ofList
  [("/p/index.ts", "declare module \"m\" \x7b interface A \x7b\x7d export \x7b A \x7d; \x7d\n" ++
    "declare module \"m\" \x7b type B = A; export \x7b B \x7d; \x7d")]

/-- What one body of a module lists as an export is found in no other. -/
theorem listed_export_unseen : ∃ p,
    load listingFiles.fileSystem (.ofText "/p") ["index.ts"] = .ok p ∧
      (p.bodies 0).map Prod.fst = [.declaration 0 0, .declaration 0 2] ∧
      (p.symbol 1).declarations = [.declaration 0 1] ∧
      (p.declarationsOf (.declaration 0 0) "A").map Prod.fst = [1] ∧
      (p.declarationsOf (.declaration 0 2) "A").map Prod.fst = [] ∧
      p.importNames (.declaration 0 2) = [] ∧ (p.member 0 "A" []).1 = some (.symbol 1) ∧
      p.lookupName (.declaration 0 2) "A" = none := by
  have hrun : (load listingFiles.fileSystem (.ofText "/p") ["index.ts"]).toOption.map (fun p =>
      decide ((p.bodies 0).map Prod.fst = [.declaration 0 0, .declaration 0 2] ∧
        (p.symbol 1).declarations = [.declaration 0 1] ∧
        (p.declarationsOf (.declaration 0 0) "A").map Prod.fst = [1] ∧
        (p.declarationsOf (.declaration 0 2) "A").map Prod.fst = [] ∧
        p.importNames (.declaration 0 2) = [] ∧ (p.member 0 "A" []).1 = some (.symbol 1) ∧
        p.lookupName (.declaration 0 2) "A" = none)) = some true := by
    decide +kernel
  obtain ⟨p, hload, hrun⟩ := Walk.exists_of_toOption_map hrun
  exact ⟨p, hload, of_decide_eq_true hrun⟩

end Program

end ApiSurface
