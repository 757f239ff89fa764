import ApiSurface.Proofs.BoundSymbols
import ApiSurface.Proofs.ExportTables
import ApiSurface.Proofs.SymbolNames
/-!
What names come to is a symbol that has a declaration and is no import itself. There is one way
around this: a member of an enum is given as it is, and where a namespace of the same name exports
an import, that import is among the members of the enum.
-/
namespace ApiSurface

namespace SourceFile

variable {f : SourceFile} {n : ℕ} {i : DeclIndex} {d : Declaration}

theorem placedIn_of_mem {statements : List Statement} (hi : .declaration i ∈ statements)
    (hd : f.declaration? i = some d) (hglobal : ¬ d.IsGlobal) :
    (i, false) ∈ f.placedIn (n+1) statements := by
  refine List.mem_flatMap.mpr ⟨_, hi, ?_⟩
  dsimp only
  unfold placedBy
  rw [hd, Option.map_some]
  cases hshape : d.shape with
  | module naming body =>
    have hnaming : naming ≠ .global := by
      rintro rfl
      exact hglobal (by rw [Declaration.IsGlobal, Declaration.naming?, hshape])
    simp [hnaming]
  | _ => exact List.mem_cons_self

/-- What has a body is a module. -/
theorem module_of_body {j : DeclIndex} {body : List Statement} (hbody : f.body? j = some body) :
    ∃ naming, (f.declaration? j).map Declaration.shape = some (.module naming (some body)) := by
  obtain ⟨e, he, hebody⟩ := Option.bind_eq_some_iff.mp hbody
  rw [he, Option.map_some]
  unfold Declaration.body? at hebody
  cases hshape : e.shape with
  | module naming body' =>
    rw [hshape] at hebody
    exact ⟨naming, by rw [show body' = some body from hebody]⟩
  | _ =>
    rw [hshape] at hebody
    cases hebody

/-- A module in a declaration is the declaration itself or stands in its body. -/
theorem body_of_boundBy (hf : f.Tidy) {inner : List Statement → List DeclIndex} {j k : DeclIndex}
    {body : List Statement} (hbody : f.body? j = some body) (hj : j ∈ f.boundBy inner k) :
    ∃ naming outer, (f.declaration? k).map Declaration.shape = some (.module naming (some outer)) ∧
      (body = outer ∨ j ∈ inner outer) := by
  obtain ⟨naming, hmodule⟩ := module_of_body hbody
  have hself (hjk : j = k) : ∃ naming outer, (f.declaration? k).map Declaration.shape =
      some (.module naming (some outer)) ∧ (body = outer ∨ j ∈ inner outer) :=
    ⟨naming, body, hjk ▸ hmodule, Or.inl rfl⟩
  unfold boundBy at hj
  cases hk : (f.declaration? k).map Declaration.shape with
  | none =>
    rw [hk] at hj
    exact hk ▸ hself (List.mem_singleton.mp hj)
  | some shape =>
    rw [hk] at hj
    cases shape with
    | module naming outer =>
      rcases List.mem_append.mp hj with hj | hj
      · split at hj
        · cases hj
        · exact hk ▸ hself (List.mem_singleton.mp hj)
      · cases outer with
        | none => cases hj
        | some outer => exact ⟨naming, outer, rfl, Or.inr hj⟩
    | «enum» members =>
      rcases List.mem_cons.mp hj with hjk | hj
      · exact hk ▸ hself hjk
      · -- what an enum lists is a member, which has no body
        obtain ⟨e, he, hshape⟩ := Option.map_eq_some_iff.mp hk
        obtain ⟨e', he', initial, hmember⟩ := hf.members k e he members hshape j hj
        rw [show f.declaration? j = some e' from he', Option.map_some, hmember] at hmodule
        cases hmodule
    | _ => exact hk ▸ hself (List.mem_singleton.mp hj)

/-- What the body of a module declares is placed one level deeper than the module. -/
theorem placedIn_of_body (hf : f.Tidy) {statements body : List Statement} {j : DeclIndex}
    (hj : j ∈ f.boundIn n statements) (hbody : f.body? j = some body)
    (hi : .declaration i ∈ body) (hd : f.declaration? i = some d) (hglobal : ¬ d.IsGlobal) :
    (i, false) ∈ f.placedIn (n+1) statements := by
  induction n generalizing statements with
  | zero => exact absurd hj List.not_mem_nil
  | succ n ih =>
    obtain ⟨s, hs, hj⟩ := List.mem_flatMap.mp hj
    cases s with
    | declaration k =>
      obtain ⟨naming, outer, hk, hcase⟩ := body_of_boundBy hf hbody hj
      refine List.mem_flatMap.mpr ⟨_, hs, ?_⟩
      dsimp only
      unfold placedBy
      rw [hk]
      refine List.mem_append_right _ ?_
      -- the module with the body is this declaration, or one further in
      rcases hcase with rfl | hj
      · exact placedIn_of_mem hi hd hglobal
      · exact ih hj
    | _ => cases hj

end SourceFile

namespace Program

variable {p : Program} {s : SymbolIndex}

/-- What is relied on of the tables of a program: they are sound, and what the body of a module
exports by a declaration is listed by no enum. -/
structure Bound (p : Program) : Prop where
  sound : p.toBindings.Sound p.toLoaded.IsMember none
  stated : ∀ s scope statements i d name, (scope, statements) ∈ p.bodies s →
    .declaration i ∈ statements → (p.source scope.fileIndex).declaration? i = some d →
    p.exportedName? scope d = some name → ¬ p.toLoaded.IsMember scope.fileIndex i

theorem load_bound {fs : FileSystem} {root : Path} {names : List String}
    (h : load fs root names = .ok p) : p.Bound where
  sound := (load_bind h).2 ▸ p.toLoaded.bind_sound
  stated s scope statements i d name hbody hi hd hname := by
    rintro ⟨f, hf, n, hmember⟩
    have htidy := load_tidy h hf
    rw [source_eq hf] at hd
    have hglobal : ¬ d.IsGlobal := by
      intro hglobal
      rw [exportedName?, hglobal] at hname
      cases hname
    obtain ⟨site, hsite, hstatements⟩ := List.mem_filterMap.mp hbody
    obtain ⟨f', hf', hplace⟩ := exists_file_of_declaredAt h hsite
    -- the statements are those of the file, or of the body of a module that it declares
    obtain ⟨m, hstated⟩ : ∃ m, (i, false) ∈ f.source.placedIn m f.source.statements := by
      cases site with
      | file file =>
        obtain ⟨rfl, rfl⟩ := Prod.mk.inj (Option.some.inj hstatements)
        rw [show p.source file = f.source from source_eq hf] at hi
        exact ⟨1, SourceFile.placedIn_of_mem hi hd hglobal⟩
      | declaration file j =>
        obtain ⟨body, hbody', heq⟩ := Option.map_eq_some_iff.mp hstatements
        obtain ⟨rfl, rfl⟩ := Prod.mk.inj heq
        rw [show p.source file = f.source from source_eq hf] at hbody'
        obtain rfl := Option.some.inj (hf.symm.trans hf')
        obtain ⟨-, hnone⟩ | ⟨k, hk, hplace⟩ := LoadedFile.mem_sites.mp hplace
        · cases hnone
        obtain rfl := (Site.declaration.inj hplace).2
        exact ⟨_, SourceFile.placedIn_of_body htidy hk hbody' hi hd hglobal⟩
    exact SourceFile.placed_once htidy.nodup hmember hstated

/-- A symbol that has a declaration and is no import. -/
def IsDeclared (p : Program) (s : SymbolIndex) : Prop :=
  (p.symbol s).isAlias = false ∧ (p.symbol s).declarations ≠ []

/-- An import among the members of an enum. -/
def IsEnumImport (p : Program) (s : SymbolIndex) : Prop :=
  (p.symbol s).isAlias = true ∧
    ∃ e name, (p.symbol e).isA .enum = true ∧ (p.symbol e).members.get? name = some s

/-- What a name may come to. -/
def Resolved (p : Program) : Resolution → Prop
  | .symbol s => p.IsDeclared s ∨ p.IsEnumImport s
  | .unresolved _ _ => True

/-- What a table may export. -/
def ResolvedTable (p : Program) (t : ExportTable) : Prop := ∀ entry ∈ t, p.Resolved entry.2

/-- What a program may remember. -/
def ResolvedMemory (p : Program) (memory : Memory) : Prop :=
  ∀ entry ∈ memory, p.ResolvedTable entry.2

/-- What may be found. -/
def ResolvedAnswer (p : Program) (r : Option Resolution) : Prop := ∀ x ∈ r, p.Resolved x

theorem resolvedAnswer_none : p.ResolvedAnswer none := nofun

theorem resolvedAnswer_some {r : Resolution} (h : p.Resolved r) : p.ResolvedAnswer (some r) := by
  intro x hx
  exact Option.mem_some_iff.mp hx ▸ h

theorem Resolved.lt (h : p.Resolved (.symbol s)) : s < p.symbols.size := by
  by_contra hs
  have hdefault : p.symbol s = default := Bindings.symbol_of_size_le (Nat.le_of_not_lt hs)
  rcases h with ⟨-, hdeclared⟩ | ⟨halias, -⟩
  · rw [hdefault] at hdeclared
    exact hdeclared rfl
  · rw [hdefault] at halias
    cases halias

theorem Bound.resolved (hp : p.Bound) (hs : p.IsOwn s) : p.Resolved (.symbol s) :=
  Or.inl ⟨hs.2, hp.sound.declared s hs.1 nofun hs.2⟩

/-- A member of an enum is declared or an import that is a member of it. -/
theorem Bound.resolved_member (hp : p.Bound) {e : SymbolIndex} {name : String}
    (he : (p.symbol e).isA .enum = true) (hs : (p.symbol e).members.get? name = some s) :
    p.Resolved (.symbol s) := by
  have hlt := hp.sound.members e name s hs
  cases halias : (p.symbol s).isAlias with
  | false => exact hp.resolved ⟨hlt, halias⟩
  | true => exact Or.inr ⟨halias, e, name, he, hs⟩

theorem Bound.resolved_module (hp : p.Bound) {file : FileIndex} {specifier : String}
    (hs : p.resolveModule file specifier = some s) : p.Resolved (.symbol s) := by
  refine hp.resolved ?_
  rcases (Option.orElse_eq_some ..).mp hs with hs | ⟨-, hs⟩
  · split at hs
    · exact hp.sound.ambient specifier s hs
    · cases hs
  · obtain ⟨i, -, hs⟩ := Option.bind_eq_some_iff.mp hs
    exact hp.sound.modules i s hs

theorem Bound.lookupIn_lt (hp : p.Bound) {file : FileIndex} {name : String} {i : DeclIndex}
    (hs : p.lookupIn file name i = some s) : s < p.symbols.size := by
  unfold lookupIn at hs
  split at hs
  · cases hs
  · cases hs
  · rcases (Option.orElse_eq_some ..).mp hs with hs | ⟨-, hs⟩
    · obtain ⟨t, ht, hs⟩ := Option.bind_eq_some_iff.mp hs
      exact hp.sound.locals _ t name s ht hs
    · obtain ⟨o, -, hs⟩ := Option.bind_eq_some_iff.mp hs
      exact hp.sound.members o name s hs

theorem Bound.lookupName_lt (hp : p.Bound) {scope : Site} {name : String}
    (hs : p.lookupName scope name = some s) : s < p.symbols.size := by
  unfold lookupName at hs
  rcases (Option.orElse_eq_some ..).mp hs with hs | ⟨-, hs⟩
  · obtain ⟨i, -, hs⟩ := List.exists_of_findSome?_eq_some hs
    exact hp.lookupIn_lt hs
  · rcases (Option.orElse_eq_some ..).mp hs with hs | ⟨-, hs⟩
    · obtain ⟨t, ht, hs⟩ := Option.bind_eq_some_iff.mp hs
      exact hp.sound.locals _ t name s ht hs
    · exact hp.sound.globals name s hs

/-! ### Tables -/

theorem ResolvedTable.get? {t : ExportTable} (h : p.ResolvedTable t) (name : String) :
    p.ResolvedAnswer (Table.get? t name) := fun _ hx => h _ (Table.mem_of_get? hx)

theorem ResolvedTable.find? {t : ExportTable} (h : p.ResolvedTable t) (name : String) :
    p.ResolvedAnswer (t.find? name) := by
  intro x hx
  rcases (Option.orElse_eq_some ..).mp hx with hx | ⟨-, hx⟩
  · exact h.get? name x hx
  · split at hx
    · exact h.get? exportEquals x hx
    · cases hx

theorem ResolvedTable.insert {t : ExportTable} (h : p.ResolvedTable t) {r : Resolution}
    (hr : p.Resolved r) (name : String) : p.ResolvedTable (Table.insert t name r) := by
  intro entry hentry
  rcases Table.mem_of_mem_insert hentry with rfl | hentry
  · exact hr
  · exact h entry hentry

theorem ResolvedTable.insertNew {t : ExportTable} (h : p.ResolvedTable t) {r : Resolution}
    (hr : p.Resolved r) (name : String) : p.ResolvedTable (Table.insertNew t name r) := by
  unfold Table.insertNew
  split
  · exact h
  · exact h.insert hr name

theorem ResolvedTable.addMissing {t more : ExportTable} (h : p.ResolvedTable t)
    (hmore : p.ResolvedTable more) (passes : String → Bool) :
    p.ResolvedTable (addMissing t passes more) := by
  unfold Program.addMissing
  induction more generalizing t with
  | nil => exact h
  | cons entry more ih =>
    obtain ⟨hentry, hmore⟩ := List.forall_mem_cons.mp hmore
    refine ih ?_ hmore
    dsimp only
    split
    · exact h.insertNew hentry _
    · exact h

/-! ### Questions -/

/-- A question has an answer as wanted, and after it the program remembers what it may. -/
def Answers {α : Type} (p : Program) (x : Query α) (P : α → Prop) : Prop :=
  ∀ memory, p.ResolvedMemory memory → P (x memory).1 ∧ p.ResolvedMemory (x memory).2

section Rules

variable {α β σ : Type} {P : α → Prop} {Q : β → Prop}

theorem Answers.pure {a : α} (h : P a) : p.Answers (Pure.pure a) P := fun _ hm => ⟨h, hm⟩

theorem Answers.bind {x : Query α} {f : α → Query β} (hx : p.Answers x P)
    (hf : ∀ a, P a → p.Answers (f a) Q) : p.Answers (x >>= f) Q := by
  intro memory hm
  obtain ⟨ha, hm'⟩ := hx memory hm
  exact hf _ ha _ hm'

theorem Answers.map {x : Query α} {f : α → β} (hx : p.Answers x P) (hf : ∀ a, P a → Q (f a)) :
    p.Answers (f <$> x) Q := by
  intro memory hm
  obtain ⟨ha, hm'⟩ := hx memory hm
  exact ⟨hf _ ha, hm'⟩

theorem Answers.foldlM {f : β → α → Query β} {l : List α}
    (hf : ∀ a ∈ l, ∀ b, Q b → p.Answers (f b a) Q) {b : β} (hb : Q b) :
    p.Answers (l.foldlM f b) Q := by
  induction l generalizing b with
  | nil => exact .pure hb
  | cons a l ih =>
    rw [List.foldlM_cons]
    exact .bind (hf a List.mem_cons_self b hb) fun b' hb' =>
      ih (fun a' ha' => hf a' (List.mem_cons_of_mem _ ha')) hb'

theorem Answers.mapM {f : α → Query β} {l : List α} (hf : ∀ a ∈ l, p.Answers (f a) Q) :
    p.Answers (l.mapM f) fun bs => ∀ b ∈ bs, Q b := by
  induction l with
  | nil => exact .pure fun _ hb => absurd hb List.not_mem_nil
  | cons a l ih =>
    rw [List.mapM_cons]
    refine .bind (hf a List.mem_cons_self) fun b hb => ?_
    refine .bind (ih fun a' ha' => hf a' (List.mem_cons_of_mem _ ha')) fun bs hbs => ?_
    exact .pure (List.forall_mem_cons.mpr ⟨hb, hbs⟩)

end Rules

section Asking

variable (hp : p.Bound) {ask : SymbolIndex → Query ExportTable}
  (hask : ∀ s, p.Answers (ask s) p.ResolvedTable)

include hask

theorem moduleValueBy_answers (hs : p.Resolved (.symbol s)) :
    p.Answers (moduleValueBy ask s) p.Resolved := by
  refine .bind (hask s) fun t ht => .pure ?_
  cases hvalue : Table.get? t exportEquals with
  | none => exact hs
  | some r => exact ht.get? exportEquals r hvalue

include hp

theorem memberBy_answers (s : SymbolIndex) (name : String) :
    p.Answers (p.memberBy ask s name) p.ResolvedAnswer := by
  have hmember (exported : Option Resolution) (hexported : p.ResolvedAnswer exported) :
      p.ResolvedAnswer (exported <|> (if (p.symbol s).isA .enum then
        ((p.symbol s).members.get? name).map .symbol else none)) := by
    intro x hx
    rcases (Option.orElse_eq_some ..).mp hx with hx | ⟨-, hx⟩
    · exact hexported x hx
    · split at hx
      · next he =>
        obtain ⟨t, ht, rfl⟩ := Option.map_eq_some_iff.mp hx
        exact hp.resolved_member he ht
      · cases hx
  have hfind : p.Answers (ExportTable.find? <$> ask s <*> pure name) p.ResolvedAnswer := by
    rw [seq_pure, Functor.map_map]
    exact (hask s).map fun t ht => ht.find? name
  unfold memberBy
  by_cases hs : (p.symbol s).isModuleLike = true
  · rw [if_pos hs]
    exact .bind hfind fun exported h => .pure (hmember exported h)
  · rw [if_neg hs]
    exact .bind (.pure resolvedAnswer_none) fun exported h => .pure (hmember exported h)

theorem membersBy_answers {r : Resolution} (hr : p.Resolved r) (names : List String) :
    p.Answers (p.membersBy ask r names) p.ResolvedAnswer := by
  induction names generalizing r with
  | nil => exact .pure (resolvedAnswer_some hr)
  | cons name names ih =>
    cases r with
    | unresolved specifier path => exact ih trivial
    | symbol s =>
      refine .bind (memberBy_answers hp hask s name) fun found hfound => ?_
      cases found with
      | none => exact .pure resolvedAnswer_none
      | some r => exact ih (hfound r rfl)

theorem entityBy_answers {resolve : SymbolIndex → Query (Option Resolution)}
    (hresolve : ∀ s < p.symbols.size, p.Answers (resolve s) p.ResolvedAnswer) (scope : Site)
    (names : List String) : p.Answers (p.entityBy ask resolve scope names) p.ResolvedAnswer := by
  unfold entityBy
  split
  · exact .pure resolvedAnswer_none
  · split
    · next s hs =>
      refine .bind (hresolve s (hp.lookupName_lt hs)) fun r hr => ?_
      cases r with
      | none => exact .pure resolvedAnswer_none
      | some r => exact membersBy_answers hp hask (hr r rfl) _
    · exact .pure resolvedAnswer_none

theorem importedBy_answers (file : FileIndex) (specifier : String) (name : Option String) :
    p.Answers (p.importedBy ask file specifier name) p.ResolvedAnswer := by
  unfold importedBy
  split
  · exact .pure (resolvedAnswer_some trivial)
  · exact .bind (hask _) fun t ht => .pure (ht.find? _)
  · next hs =>
    refine .bind (moduleValueBy_answers hask (hp.resolved_module hs)) fun r hr => ?_
    exact .pure (resolvedAnswer_some hr)

omit hp hask in
/-- An answer that is a symbol may be followed further. -/
theorem followed_answers {follow : SymbolIndex → Query (Option Resolution)}
    (hfollow : ∀ t < p.symbols.size, p.Answers (follow t) p.ResolvedAnswer)
    {r : Option Resolution} (hr : p.ResolvedAnswer r) :
    p.Answers (match r with | some (.symbol t) => follow t | r => pure r) p.ResolvedAnswer := by
  split
  · exact hfollow _ (hr _ rfl).lt
  · exact .pure hr

theorem aliasBy_answers (n : ℕ) (hs : s < p.symbols.size) :
    p.Answers (p.aliasBy ask n s) p.ResolvedAnswer := by
  induction n generalizing s with
  | zero => exact .pure resolvedAnswer_none
  | succ n ih =>
    have hfollow (r : Option Resolution) (hr : p.ResolvedAnswer r) :=
      followed_answers (fun t ht => ih ht) hr
    unfold aliasBy
    split
    · next hown => exact .pure (resolvedAnswer_some
        (hp.resolved ⟨hs, by rw [Symbol.isAlias, hown]; rfl⟩))
    · dsimp only
      split
      · exact .bind (importedBy_answers hp hask _ _ _) hfollow
      · exact .bind (importedBy_answers hp hask _ _ _) hfollow
      · exact .bind (importedBy_answers hp hask _ _ _) hfollow
      · exact entityBy_answers hp hask (fun t ht => ih ht) _ _

theorem localBy_answers (scope : Site) (name : String) :
    p.Answers (p.localBy ask scope name) p.ResolvedAnswer := by
  unfold localBy
  split
  · next s hs => exact aliasBy_answers hp hask _ (hp.lookupName_lt hs)
  · exact .pure resolvedAnswer_none

/-- What the bodies of a module may say. -/
def ResolvedExplicit (p : Program) (e : Explicit) : Prop :=
  p.ResolvedTable e.table ∧ p.ResolvedAnswer e.whole

omit hp hask in
theorem ResolvedExplicit.set {e : Explicit} (he : p.ResolvedExplicit e) {r : Resolution}
    (hr : p.Resolved r) (name : String) : p.ResolvedExplicit (e.set name r) :=
  ⟨he.1.insert hr name, he.2⟩

omit hp hask in
theorem ResolvedExplicit.set? {e : Explicit} (he : p.ResolvedExplicit e) {r : Option Resolution}
    (hr : p.ResolvedAnswer r) (name : String) : p.ResolvedExplicit (e.set? name r) := by
  cases r with
  | none => exact he
  | some r => exact he.set (hr r rfl) name

omit hp hask in
theorem ResolvedExplicit.foldl_set {e : Explicit} (he : p.ResolvedExplicit e) {α : Type}
    {f : Explicit → α → Explicit} {l : List α}
    (hf : ∀ e a, p.ResolvedExplicit e → p.ResolvedExplicit (f e a)) :
    p.ResolvedExplicit (l.foldl f e) := by
  induction l generalizing e with
  | nil => exact he
  | cons a l ih => exact ih (hf e a he)

theorem exportBy_answers {scope : Site} {statements : List Statement}
    (hbody : (scope, statements) ∈ p.bodies s) {statement : Statement}
    (hstatement : statement ∈ statements) {e : Explicit} (he : p.ResolvedExplicit e) :
    p.Answers (p.exportBy ask scope e statement) p.ResolvedExplicit := by
  cases statement with
  | declaration i =>
    unfold exportBy
    dsimp only
    split
    · next d hd =>
      split
      · next name t hname ht =>
        -- no enum lists what is exported here, so it is no import
        obtain ⟨hlt, halias⟩ := hp.sound.symbolOf _ _ t ht
        have hstated := hp.stated s scope statements i d name hbody hstatement hd hname
        have hown : (p.symbol t).isAlias = false :=
          Bool.eq_false_of_not_eq_true fun ha => hstated (halias ha)
        exact .pure ⟨he.1.insertNew (hp.resolved ⟨hlt, hown⟩) name, he.2⟩
      · exact .pure he
    · exact .pure he
  | importEquals span name isExport target =>
    cases isExport with
    | false => exact .pure he
    | true =>
      refine .bind (localBy_answers hp hask scope name.text) fun r hr => ?_
      exact .pure (he.set? hr name.text)
  | exportNamed span typeOnly specifiers specifier =>
    cases specifier with
    | none =>
      refine .foldlM (fun x _ e he => ?_) he
      exact (localBy_answers hp hask scope _).map fun r hr => he.set? hr _
    | some specifier =>
      unfold exportBy
      dsimp only
      split
      · exact .bind (hask _) fun t ht => .pure (he.foldl_set fun e x he => he.set? (ht.find? _) _)
      · refine .pure (he.foldl_set fun e x he => he.set ?_ _)
        trivial
  | exportAll span name specifier =>
    cases name with
    | none => exact .pure he
    | some name =>
      refine .pure (he.set ?_ name.text)
      cases hs : p.resolveModule scope.fileIndex specifier with
      | none => trivial
      | some s => exact hp.resolved_module hs
  | exportAssignment span isEquals target =>
    refine .bind (entityBy_answers hp hask (fun t ht => aliasBy_answers hp hask _ ht) scope
      target.texts) fun r hr => ?_
    cases r with
    | none => exact .pure he
    | some r =>
      have hr := hr r rfl
      cases isEquals with
      | false => exact .pure (he.set hr "default")
      | true => exact .pure ⟨(he.set hr exportEquals).1, resolvedAnswer_some hr⟩
  | importFrom span typeOnly default nameSpace named specifier => exact .pure he
  | unknown span => exact .pure he

theorem explicitBy_answers (s : SymbolIndex) :
    p.Answers (p.explicitBy ask s) p.ResolvedExplicit := by
  have hnone : p.ResolvedExplicit ⟨[], [], none⟩ :=
    ⟨fun _ hentry => absurd hentry List.not_mem_nil, resolvedAnswer_none⟩
  refine .foldlM (fun body hbody e he => ?_) hnone
  exact .foldlM (fun statement hstatement e he => exportBy_answers hp hask hbody hstatement he) he

/-- What a module exports is resolved if what other modules export is. -/
theorem exportsBy_answers (s : SymbolIndex) : p.Answers (p.exportsBy ask s) p.ResolvedTable := by
  unfold exportsBy
  refine .bind (explicitBy_answers hp hask s) fun e he => ?_
  refine .bind (P := p.ResolvedTable) (.foldlM (fun star _ t ht => ?_) he.1) fun t ht => ?_
  · dsimp only
    split
    · exact .bind (hask _) fun more hmore => .pure (ht.addMissing hmore _)
    · exact .pure ht
  · split
    · split
      · exact .bind (hask _) fun more hmore => .pure (ht.addMissing hmore _)
      · exact .pure ht
    · exact .pure ht

end Asking

/-- A table is resolved, whatever modules are busy: what they do not tell is not in it. -/
theorem askWithin_answers (hp : p.Bound) (n : ℕ) (busy : List SymbolIndex) (s : SymbolIndex) :
    p.Answers (p.askWithin n busy s) p.ResolvedTable := by
  have hnil : p.ResolvedTable [] := fun _ hentry => absurd hentry List.not_mem_nil
  induction n generalizing busy s with
  | zero => exact .pure hnil
  | succ n ih =>
    intro memory hm
    cases hmem : memory.get? s with
    | some t =>
      rw [askWithin_of_get? hmem]
      exact ⟨hm _ (Table.mem_of_get? hmem), hm⟩
    | none =>
      by_cases hs : s ∈ busy
      · rw [askWithin_of_mem hmem hs]
        exact ⟨hnil, hm⟩
      · rw [askWithin_of_new hmem hs]
        obtain ⟨ht, hm'⟩ := exportsBy_answers hp (ih (s :: busy)) s memory hm
        refine ⟨ht, fun entry hentry => ?_⟩
        rcases Table.mem_of_mem_insert hentry with rfl | hentry
        · exact ht
        · exact hm' entry hentry

theorem exportsOf_answers (hp : p.Bound) (s : SymbolIndex) :
    p.Answers (p.exportsOf s) p.ResolvedTable :=
  askWithin_answers hp _ _ s

/-- What can be asked of a program about names. -/
inductive Request where
  /-- All that a module exports. -/
  | exports (s : SymbolIndex)
  /-- One export of a module. -/
  | lookupExport (s : SymbolIndex) (name : String)
  /-- What a symbol comes to. -/
  | resolve (s : SymbolIndex)
  /-- What a dotted name in a scope means. -/
  | entity (scope : Site) (parts : List String)
  /-- A member of a module or of an enum. -/
  | member (s : SymbolIndex) (name : String)
  deriving DecidableEq, Repr, Inhabited

namespace Request

/-- The symbol that a request is about, if it is about one. -/
def symbol? : Request → Option SymbolIndex
  | exports s | lookupExport s _ | resolve s | member s _ => some s
  | entity .. => none

/-- What is found when it is asked. -/
def answer (p : Program) : Request → Query (List Resolution)
  | exports s => return (← p.exportsOf s).map (·.2)
  | lookupExport s name => return ((← p.exportsOf s).find? name).toList
  | resolve s => return (← p.resolve s).toList
  | entity scope parts => return (← p.entity scope parts).toList
  | member s name => return (← p.member s name).toList

end Request

theorem answer_answers (hp : p.Bound) {request : Request}
    (hrequest : ∀ s ∈ request.symbol?, s < p.symbols.size) :
    p.Answers (request.answer p) fun found => ∀ r ∈ found, p.Resolved r := by
  have hask := exportsOf_answers hp
  have htoList {r : Option Resolution} (hr : p.ResolvedAnswer r) : ∀ x ∈ r.toList, p.Resolved x :=
    fun x hx => hr x (Option.mem_toList.mp hx)
  cases request with
  | exports s =>
    refine .bind (hask s) fun t ht => .pure fun r hr => ?_
    obtain ⟨entry, hentry, rfl⟩ := List.mem_map.mp hr
    exact ht entry hentry
  | lookupExport s name => exact .bind (hask s) fun t ht => .pure (htoList (ht.find? name))
  | resolve s =>
    exact .bind (aliasBy_answers hp hask _ (hrequest s rfl)) fun r hr => .pure (htoList hr)
  | entity scope parts =>
    exact .bind (entityBy_answers hp hask (fun t ht => aliasBy_answers hp hask _ ht) scope parts)
      fun r hr => .pure (htoList hr)
  | member s name => exact .bind (memberBy_answers hp hask s name) fun r hr => .pure (htoList hr)

/-- In every run of requests on a program, each symbol that is found and each one in the tables that
are remembered is no import and has a declaration, unless it is an import among the members of an
enum. -/
theorem answers_declared {fs : FileSystem} {root : Path} {names : List String}
    (h : load fs root names = .ok p) (requests : List Request)
    (hrequests : ∀ request ∈ requests, ∀ s ∈ request.symbol?, s < p.symbols.size)
    (s : SymbolIndex)
    (hs : (∃ found ∈ (requests.mapM (Request.answer p) []).1, .symbol s ∈ found) ∨
      ∃ entry ∈ (requests.mapM (Request.answer p) []).2, ∃ name,
        (name, Resolution.symbol s) ∈ entry.2) :
    p.IsDeclared s ∨ p.IsEnumImport s := by
  have hp := load_bound h
  have hrun : p.Answers (requests.mapM (Request.answer p))
      fun answers => ∀ found ∈ answers, ∀ r ∈ found, p.Resolved r :=
    .mapM fun request hrequest => answer_answers hp (hrequests request hrequest)
  obtain ⟨hanswers, hmemory⟩ := hrun [] fun _ hentry => absurd hentry List.not_mem_nil
  rcases hs with ⟨found, hfound, hs⟩ | ⟨entry, hentry, name, hs⟩
  · exact hanswers found hfound _ hs
  · exact hmemory entry hentry _ hs

/-- A package in which a namespace exports imports and an enum has its name. -/
def mergedFiles : FileSystem := (FileTree.ofList [("/p/index.ts",
  "export enum E \x7b B \x7d\n" ++
  "export namespace E \x7b export import A = E.B; export import C = Missing; \x7d")]).fileSystem

/-- The program of that package: `E` is the symbol 1, `B` is 2, and the imports are 3 and 4. -/
def merged : Program := (load mergedFiles (.ofText "/p") ["index.ts"]).toOption.getD default

theorem load_mergedFiles : load mergedFiles (.ofText "/p") ["index.ts"] = .ok merged :=
  load_of_isOk (by decide +kernel)

/-- The import of a member of the enum comes to that member. -/
theorem merged_member_declared :
    load mergedFiles (.ofText "/p") ["index.ts"] = .ok merged ∧
      (∀ request ∈ [Request.member 1 "A"], ∀ s ∈ request.symbol?, s < merged.symbols.size) ∧
      (merged.IsDeclared 2 ∨ merged.IsEnumImport 2) := by
  have hrequests : ∀ request ∈ [Request.member 1 "A"], ∀ s ∈ request.symbol?,
      s < merged.symbols.size := by
    decide +kernel
  have hfound : ∃ found ∈ ([Request.member 1 "A"].mapM (Request.answer merged) []).1,
      .symbol 2 ∈ found := by
    decide +kernel
  exact ⟨load_mergedFiles, hrequests,
    answers_declared load_mergedFiles _ hrequests 2 (Or.inl hfound)⟩

/-- An import that comes to nothing is found as it is among the members of the enum. -/
theorem merged_member_import :
    ¬ ∀ (fs : FileSystem) (root : Path) (names : List String) (p : Program),
      load fs root names = .ok p → ∀ (s : SymbolIndex) (name : String) (t : SymbolIndex),
        s < p.symbols.size → (p.member s name []).1 = some (.symbol t) → p.IsDeclared t := by
  intro hall
  have hfound : (merged.member 1 "C" []).1 = some (.symbol 4) := by
    decide +kernel
  have himport : (merged.symbol 4).isAlias = true := by
    decide +kernel
  have hdeclared := hall _ _ _ merged load_mergedFiles 1 "C" 4 (by decide +kernel) hfound
  rw [hdeclared.1] at himport
  cases himport

end Program

end ApiSurface
