import ApiSurface.Proofs.BoundSites
/-!
What the tables of a bound program hold. Every symbol in them is there, every symbol but an import
has a declaration, and modules and what statements declare are no imports: only a member of an enum
can be declared by an import, where a namespace of the same name exports one.
-/
namespace ApiSurface

namespace SourceFile

/-- The declarations in one, as `boundBy` lists them, each with whether an enum lists it. -/
def placedBy (f : SourceFile) (inner : List Statement → List (DeclIndex × Bool)) (i : DeclIndex) :
    List (DeclIndex × Bool) :=
  match (f.declaration? i).map Declaration.shape with
  | some (.module naming body) =>
    (if naming = .global then [] else [(i, false)]) ++ (body.map inner).getD []
  | some (.enum members) => (i, false) :: members.map (·, true)
  | _ => [(i, false)]

/-- The declarations that some statements make, as `boundIn` lists them, each with whether an enum
lists it. -/
def placedIn (f : SourceFile) : ℕ → List Statement → List (DeclIndex × Bool)
  | 0, _ => []
  | n+1, statements => statements.flatMap fun s =>
    match s with
    | .declaration i => f.placedBy (f.placedIn n) i
    | _ => []

variable {f : SourceFile}

theorem placedBy_fst {inner : List Statement → List (DeclIndex × Bool)}
    {inner' : List Statement → List DeclIndex}
    (h : ∀ statements, (inner statements).map Prod.fst = inner' statements) (i : DeclIndex) :
    (f.placedBy inner i).map Prod.fst = f.boundBy inner' i := by
  unfold placedBy boundBy
  cases (f.declaration? i).map Declaration.shape with
  | none => rfl
  | some shape =>
    cases shape with
    | module naming body =>
      have hinner : ((body.map inner).getD []).map Prod.fst = (body.map inner').getD [] := by
        cases body with
        | none => rfl
        | some statements => exact h statements
      dsimp only
      rw [List.map_append, hinner]
      split <;> rfl
    | «enum» members => simp [Function.comp_def]
    | _ => rfl

theorem placedIn_fst (n : ℕ) (statements : List Statement) :
    (f.placedIn n statements).map Prod.fst = f.boundIn n statements := by
  induction n generalizing statements with
  | zero => rfl
  | succ n ih =>
    rw [placedIn, boundIn, List.map_flatMap]
    congr 1
    funext s
    cases s with
    | declaration i => exact placedBy_fst ih i
    | _ => rfl

theorem placedBy_mono {inner inner' : List Statement → List (DeclIndex × Bool)}
    (h : ∀ statements, inner statements ⊆ inner' statements) (i : DeclIndex) :
    f.placedBy inner i ⊆ f.placedBy inner' i := by
  unfold placedBy
  split
  · next naming body _ =>
    refine List.append_subset.mpr ⟨List.subset_append_left _ _, ?_⟩
    refine List.Subset.trans ?_ (List.subset_append_right _ _)
    cases body with
    | none => exact List.Subset.refl _
    | some statements => exact h statements
  · exact List.Subset.refl _
  · exact List.Subset.refl _

theorem placedIn_succ (n : ℕ) (statements : List Statement) :
    f.placedIn n statements ⊆ f.placedIn (n+1) statements := by
  induction n generalizing statements with
  | zero => exact List.nil_subset _
  | succ n ih =>
    intro entry hentry
    obtain ⟨s, hs, hentry⟩ := List.mem_flatMap.mp hentry
    refine List.mem_flatMap.mpr ⟨s, hs, ?_⟩
    cases s with
    | declaration i => exact placedBy_mono ih i hentry
    | _ => exact hentry

theorem placedIn_mono {n m : ℕ} (h : n ≤ m) (statements : List Statement) :
    f.placedIn n statements ⊆ f.placedIn m statements := by
  induction m, h using Nat.le_induction with
  | base => exact List.Subset.refl _
  | succ m _ ih => exact List.Subset.trans ih (placedIn_succ m statements)

/-- No declaration is made by a statement and listed by an enum too. -/
theorem placed_once {statements : List Statement} (hd : ∀ n, (f.boundIn n statements).Nodup)
    {n m : ℕ} {i : DeclIndex} (h : (i, true) ∈ f.placedIn n statements) :
    (i, false) ∉ f.placedIn m statements := by
  intro h'
  have hall := placedIn_mono (Nat.le_max_left n m) statements h
  have hall' := placedIn_mono (Nat.le_max_right n m) statements h'
  have hnodup : ((f.placedIn (max n m) statements).map Prod.fst).Nodup :=
    (placedIn_fst _ _).symm ▸ hd _
  have hsame : (i, true) = (i, false) := List.inj_on_of_nodup_map hnodup hall hall' rfl
  cases hsame

end SourceFile

namespace Bindings

variable {member : FileIndex → DeclIndex → Prop} {pending : Option SymbolIndex}
  {b b' b'' : Bindings} {s : SymbolIndex}

/-- A symbol that is there and is no import. -/
def IsOwn (b : Bindings) (s : SymbolIndex) : Prop :=
  s < b.symbols.size ∧ (b.symbol s).isAlias = false

/-- What is known of the tables between the steps of binding. One symbol may be pending: it waits
for its first declaration. -/
structure Sound (member : FileIndex → DeclIndex → Prop) (pending : Option SymbolIndex)
    (b : Bindings) : Prop where
  globals : ∀ name s, b.globals.get? name = some s → s < b.symbols.size
  locals : ∀ scope t name s, b.locals.get? scope = some t → t.get? name = some s →
    s < b.symbols.size
  members : ∀ o name s, (b.symbol o).members.get? name = some s → s < b.symbols.size
  ambient : ∀ name s, b.ambient.get? name = some s → b.IsOwn s
  modules : ∀ i s, b.modules.get? i = some s → b.IsOwn s
  symbolOf : ∀ file i s, b.symbolOf.get? (file, i) = some s → s < b.symbols.size ∧
    ((b.symbol s).isAlias = true → member file i)
  declared : ∀ s < b.symbols.size, pending ≠ some s → (b.symbol s).isAlias = false →
    (b.symbol s).declarations ≠ []

/-- Symbols stay, and stay imports or not. -/
structure Keeps (b b' : Bindings) : Prop where
  size : b.symbols.size ≤ b'.symbols.size
  isAlias : ∀ s < b.symbols.size, (b'.symbol s).isAlias = (b.symbol s).isAlias

theorem Keeps.refl (b : Bindings) : b.Keeps b := ⟨Nat.le_refl _, fun _ _ => rfl⟩

theorem Keeps.trans (h : b.Keeps b') (h' : b'.Keeps b'') : b.Keeps b'' :=
  ⟨h.size.trans h'.size, fun s hs =>
    (h'.isAlias s (Nat.lt_of_lt_of_le hs h.size)).trans (h.isAlias s hs)⟩

theorem IsOwn.keep (h : b.IsOwn s) (hb : b.Keeps b') : b'.IsOwn s :=
  ⟨Nat.lt_of_lt_of_le h.1 hb.size, (hb.isAlias s h.1).trans h.2⟩

theorem Sound.wait (h : b.Sound member none) (s : SymbolIndex) : b.Sound member (some s) :=
  { h with declared := fun t ht _ => h.declared t ht nofun }

/-- A name in the scope of a container is one that is there. -/
theorem Sound.names (h : b.Sound member pending) {c : Container} {name : String}
    (hs : (b.names c).get? name = some s) : s < b.symbols.size := by
  unfold Bindings.names at hs
  split at hs
  · exact h.globals name s hs
  · cases ht : b.locals.get? c.scope with
    | none =>
      rw [ht] at hs
      cases hs
    | some t =>
      rw [ht] at hs
      exact h.locals c.scope t name s ht hs

/-! ### Steps -/

theorem update_keeps (change : Symbol → Symbol)
    (halias : ∀ x, (change x).aliasOf = x.aliasOf) (o : SymbolIndex) :
    b.Keeps (b.update o change) := by
  refine ⟨by simp [update], fun t _ => ?_⟩
  rw [symbol_update]
  split
  · next h => rw [h.1, Symbol.isAlias, halias, Symbol.isAlias]
  · rfl

/-- Changes of a symbol that take no declarations from it. -/
theorem Sound.update (h : b.Sound member pending) {change : Symbol → Symbol} {o : SymbolIndex}
    (halias : ∀ x, (change x).aliasOf = x.aliasOf)
    (hdeclarations : ∀ x, x.declarations ⊆ (change x).declarations)
    (hmembers : ∀ name t, (change (b.symbol o)).members.get? name = some t → t < b.symbols.size) :
    (b.update o change).Sound member pending := by
  have hkeeps : b.Keeps (b.update o change) := update_keeps change halias o
  have hsize : (b.update o change).symbols.size = b.symbols.size := by simp [Bindings.update]
  constructor
  case globals => exact fun name s hs => hsize ▸ h.globals name s hs
  case locals => exact fun scope t name s ht hs => hsize ▸ h.locals scope t name s ht hs
  case members =>
    intro p name t ht
    rw [symbol_update] at ht
    rw [hsize]
    split at ht
    · exact hmembers name t ht
    · exact h.members p name t ht
  case ambient => exact fun name s hs => (h.ambient name s hs).keep hkeeps
  case modules => exact fun i s hs => (h.modules i s hs).keep hkeeps
  case symbolOf =>
    intro file i s hs
    obtain ⟨hlt, hmember⟩ := h.symbolOf file i s hs
    refine ⟨hsize ▸ hlt, fun ha => hmember ?_⟩
    rw [← hkeeps.isAlias s hlt, ha]
  case declared =>
    intro s hs hpending ha
    rw [hsize] at hs
    rw [hkeeps.isAlias s hs] at ha
    have hold := h.declared s hs hpending ha
    rw [symbol_update]
    split
    · -- the changed symbol keeps the declaration that it had
      next heq =>
      rw [heq.1] at hold
      exact fun hnil => hold (List.eq_nil_of_subset_nil (hnil ▸ hdeclarations _))
    · exact hold

theorem push_keeps (x : Symbol) : b.Keeps { b with symbols := b.symbols.push x } := by
  refine ⟨by simp, fun t ht => ?_⟩
  rw [symbol_push, if_neg (Nat.ne_of_lt ht)]

/-- A new symbol is pending. -/
theorem Sound.push (h : b.Sound member none) {x : Symbol} (hx : x.members = []) :
    Sound member (some b.symbols.size) { b with symbols := b.symbols.push x } := by
  have hkeeps : b.Keeps { b with symbols := b.symbols.push x } := push_keeps x
  constructor
  case globals => exact fun name s hs => Nat.lt_of_lt_of_le (h.globals name s hs) hkeeps.size
  case locals =>
    exact fun scope t name s ht hs => Nat.lt_of_lt_of_le (h.locals scope t name s ht hs) hkeeps.size
  case members =>
    intro o name t ht
    rw [symbol_push] at ht
    split at ht
    · rw [hx] at ht
      cases ht
    · exact Nat.lt_of_lt_of_le (h.members o name t ht) hkeeps.size
  case ambient => exact fun name s hs => (h.ambient name s hs).keep hkeeps
  case modules => exact fun i s hs => (h.modules i s hs).keep hkeeps
  case symbolOf =>
    intro file i s hs
    obtain ⟨hlt, hmember⟩ := h.symbolOf file i s hs
    refine ⟨Nat.lt_of_lt_of_le hlt hkeeps.size, fun ha => hmember ?_⟩
    rw [← hkeeps.isAlias s hlt, ha]
  case declared =>
    -- the new symbol is excused: it is the pending one
    intro s hs hpending ha
    have hne : s ≠ b.symbols.size := fun heq => hpending (congrArg some heq.symm)
    have hlt : s < b.symbols.size := by
      simp only [Array.size_push] at hs
      omega
    rw [hkeeps.isAlias s hlt] at ha
    rw [symbol_push, if_neg hne]
    exact h.declared s hlt nofun ha

/-- A symbol waits no longer if it is an import or has a declaration. -/
theorem Sound.settle (h : b.Sound member (some s))
    (hs : (b.symbol s).isAlias = false → (b.symbol s).declarations ≠ []) :
    b.Sound member none := by
  refine { h with declared := fun t ht _ ha => ?_ }
  by_cases heq : s = t
  · exact heq ▸ hs (heq ▸ ha)
  · exact h.declared t ht (fun hsome => heq (Option.some.inj hsome)) ha

theorem bindName_keeps (c : Container) (name : String) (s : SymbolIndex) :
    b.Keeps (b.bindName c name s) := by
  unfold bindName
  split <;> exact ⟨Nat.le_refl _, fun _ _ => rfl⟩

theorem Sound.bindName (h : b.Sound member pending) (hs : s < b.symbols.size) (c : Container)
    (name : String) : (b.bindName c name s).Sound member pending := by
  have hinsert {t : Table String SymbolIndex} (ht : ∀ name u, t.get? name = some u →
      u < b.symbols.size) {other : String} {u : SymbolIndex}
      (hu : (t.insert name s).get? other = some u) : u < b.symbols.size := by
    rw [Table.get?_insert] at hu
    split at hu
    · exact Option.some.inj hu ▸ hs
    · exact ht other u hu
  unfold Bindings.bindName
  split
  · exact { h with globals := fun other u hu => hinsert h.globals hu }
  · next hc =>
    refine { h with locals := fun scope t other u ht hu => ?_ }
    rw [Table.get?_insert] at ht
    split at ht
    · rw [← Option.some.inj ht] at hu
      refine hinsert (fun other' u' hu' => ?_) hu
      exact h.names hu'
    · exact h.locals scope t other u ht hu

theorem Sound.addMember (h : b.Sound member pending) (hs : s < b.symbols.size)
    (owner : SymbolIndex) (name : String) : (b.addMember owner name s).Sound member pending := by
  refine h.update (fun _ => rfl) (fun _ => List.Subset.refl _) fun other t ht => ?_
  rw [Table.get?_insert] at ht
  split at ht
  · exact Option.some.inj ht ▸ hs
  · exact h.members owner other t ht

theorem addMember_keeps (owner : SymbolIndex) (name : String) (s : SymbolIndex) :
    b.Keeps (b.addMember owner name s) :=
  update_keeps (fun x => { x with members := x.members.insert name s }) (fun _ => rfl) owner

theorem addSite_aliasOf (x : Symbol) (site : Site) : (x.addSite site).aliasOf = x.aliasOf := by
  unfold Symbol.addSite
  split <;> rfl

theorem mem_addSite (x : Symbol) (site : Site) : site ∈ (x.addSite site).declarations := by
  unfold Symbol.addSite
  split
  · assumption
  · exact List.mem_append_right _ (List.mem_singleton_self _)

theorem addKind_aliasOf (x : Symbol) (kind : SymbolKind) :
    (x.addKind kind).aliasOf = x.aliasOf := by
  unfold Symbol.addKind
  split <;> rfl

theorem Sound.addKind (h : b.Sound member pending) (s : SymbolIndex) (kind : SymbolKind) :
    (b.update s (·.addKind kind)).Sound member pending := by
  refine h.update (fun x => addKind_aliasOf x kind) (fun x => ?_) fun name t ht => ?_
  · unfold Symbol.addKind
    split <;> exact List.Subset.refl _
  · unfold Symbol.addKind at ht
    split at ht <;> exact h.members s name t ht

theorem addDeclaration_keeps (s : SymbolIndex) (file : FileIndex) (i : DeclIndex) :
    b.Keeps (b.addDeclaration s file i) := by
  have hsite : b.Keeps (b.update s (·.addSite (.declaration file i))) :=
    update_keeps _ (fun x => addSite_aliasOf x _) s
  exact ⟨hsite.size, hsite.isAlias⟩

/-- What is declared waits no longer. -/
theorem Sound.addDeclaration (h : b.Sound member (some s)) (hs : s < b.symbols.size)
    {file : FileIndex} {i : DeclIndex} (hmember : (b.symbol s).isAlias = true → member file i) :
    (b.addDeclaration s file i).Sound member none := by
  have hkeeps : b.Keeps (b.update s (·.addSite (.declaration file i))) :=
    update_keeps _ (fun x => addSite_aliasOf x _) s
  have hupdate : (b.update s (·.addSite (.declaration file i))).Sound member (some s) := by
    refine h.update (fun x => addSite_aliasOf x _) (fun x => ?_) fun name t ht => ?_
    · unfold Symbol.addSite
      split
      · exact List.Subset.refl _
      · exact List.subset_append_left _ _
    · unfold Symbol.addSite at ht
      split at ht <;> exact h.members s name t ht
  have hsettled := hupdate.settle fun _ => by
    rw [symbol_update, if_pos ⟨rfl, hs⟩]
    exact List.ne_nil_of_mem (mem_addSite _ _)
  refine { hsettled with symbolOf := fun file' i' t ht => ?_ }
  change (b.symbolOf.insert (file, i) s).get? (file', i') = some t at ht
  rw [Table.get?_insert] at ht
  split at ht
  · next heq =>
    obtain ⟨rfl, rfl⟩ := Prod.mk.injEq .. ▸ eq_of_beq heq
    obtain rfl := Option.some.inj ht
    refine ⟨Nat.lt_of_lt_of_le hs hkeeps.size, fun ha => hmember ?_⟩
    exact (hkeeps.isAlias s hs).symm.trans ha
  · exact hsettled.symbolOf file' i' t ht

end Bindings

namespace Bind

open Bindings

variable {α β : Type} {b b₀ : Bindings}

/-- What a step gives in a state and the state after it are as wanted. -/
def Gives (x : Bind α) (b : Bindings) (Q : α → Bindings → Prop) : Prop :=
  Q (x.run b).1 (x.run b).2

theorem Gives.bind {x : Bind α} {f : α → Bind β} {P : α → Bindings → Prop}
    {Q : β → Bindings → Prop} (hx : Gives x b P) (hf : ∀ a b', P a b' → Gives (f a) b' Q) :
    Gives (x >>= f) b Q := hf _ _ hx

theorem Gives.pure {a : α} {Q : α → Bindings → Prop} (h : Q a b) :
    Gives (Pure.pure a : Bind α) b Q := h

theorem Gives.get {f : Bindings → Bind β} {Q : β → Bindings → Prop} (h : Gives (f b) b Q) :
    Gives ((MonadState.get : Bind Bindings) >>= f) b Q := h

theorem modify_gives {f : Bindings → Bindings} {Q : Unit → Bindings → Prop} (h : Q () (f b)) :
    Gives (modify f : Bind Unit) b Q := h

theorem Gives.forM {f : β → Bind Unit} {I : Bindings → Prop} {l : List β}
    (hf : ∀ x ∈ l, ∀ b, I b → Gives (f x) b fun _ => I) (h : I b) :
    Gives (l.forM f) b fun _ => I := by
  induction l generalizing b with
  | nil => exact h
  | cons x l ih =>
    refine Gives.bind (hf x List.mem_cons_self b h) fun _ b' h' => ?_
    exact ih (fun y hy => hf y (List.mem_cons_of_mem _ hy)) h'

theorem Gives.forM_option {f : β → Bind Unit} {I : Bindings → Prop} {o : Option β}
    (hf : ∀ x, o = some x → Gives (f x) b fun _ => I) (h : I b) :
    Gives (o.forM f) b fun _ => I := by
  cases o with
  | none => exact h
  | some x => exact hf x rfl

/-- Tables that are sound some steps after others. -/
structure After (member : FileIndex → DeclIndex → Prop) (b₀ b : Bindings) : Prop where
  sound : b.Sound member none
  keeps : b₀.Keeps b

variable {member : FileIndex → DeclIndex → Prop}

theorem After.start (h : b.Sound member none) : After member b b := ⟨h, .refl b⟩

/-- A symbol that no declaration was added to yet, if it is new. -/
structure Pending (member : FileIndex → DeclIndex → Prop) (b₀ : Bindings) (s : SymbolIndex)
    (b : Bindings) : Prop where
  sound : b.Sound member (some s)
  keeps : b₀.Keeps b
  lt : s < b.symbols.size

theorem allocate_gives (h : After member b₀ b) {x : Symbol} (hx : x.members = []) :
    Gives (allocate x) b fun s b' => Pending member b₀ s b' ∧ b'.symbol s = x := by
  refine ⟨⟨h.sound.push hx, h.keeps.trans (push_keeps x), ?_⟩, ?_⟩
  · show b.symbols.size < (b.symbols.push x).size
    simp
  · exact (symbol_push b x _).trans (if_pos rfl)

theorem addDeclaration_gives {s : SymbolIndex} (h : Pending member b₀ s b) {file : FileIndex}
    {i : DeclIndex} (hmember : (b.symbol s).isAlias = true → member file i) :
    Gives (modify (·.addDeclaration s file i)) b fun _ b' =>
      After member b₀ b' ∧ s < b'.symbols.size ∧
        (b'.symbol s).isAlias = (b.symbol s).isAlias := by
  have hkeeps : b.Keeps (b.addDeclaration s file i) := addDeclaration_keeps s file i
  exact ⟨⟨h.sound.addDeclaration h.lt hmember, h.keeps.trans hkeeps⟩,
    Nat.lt_of_lt_of_le h.lt hkeeps.size, hkeeps.isAlias s h.lt⟩

/-- The names under which a symbol is found after it was declared. -/
theorem name_gives {s : SymbolIndex} (h : After member b₀ b) (hs : b.IsOwn s) (c : Container)
    (name : String) (isLocal : Bool) (owner : Option SymbolIndex) :
    Gives (do
      if isLocal then modify (·.bindName c name s)
      if let some o := owner then modify (·.addMember o name s)
      return s) b fun s b' => After member b₀ b' ∧ b'.IsOwn s := by
  have hmember {b : Bindings} (h : After member b₀ b) (hs : b.IsOwn s) : Gives (do
      if let some o := owner then modify (·.addMember o name s)
      return s) b fun s b' => After member b₀ b' ∧ b'.IsOwn s := by
    cases owner with
    | none => exact .pure ⟨h, hs⟩
    | some o =>
      have hkeeps : b.Keeps (b.addMember o name s) := addMember_keeps o name s
      exact .bind (modify_gives (Q := fun _ b' => After member b₀ b' ∧ b'.IsOwn s)
        ⟨⟨h.sound.addMember hs.1 o name, h.keeps.trans hkeeps⟩, hs.keep hkeeps⟩)
        fun _ _ h' => .pure h'
  cases isLocal with
  | false => exact hmember h hs
  | true =>
    have hkeeps : b.Keeps (b.bindName c name s) := bindName_keeps c name s
    exact .bind (modify_gives (Q := fun _ b' => After member b₀ b' ∧ b'.IsOwn s)
      ⟨⟨h.sound.bindName hs.1 c name, h.keeps.trans hkeeps⟩, hs.keep hkeeps⟩)
      fun _ _ h' => hmember h'.1 h'.2

theorem declareSymbol_gives (h : After member b₀ b) (c : Container) (file : FileIndex)
    (i : DeclIndex) (d : Declaration) (kind : SymbolKind) (exported : Bool) :
    Gives (declareSymbol c file i d kind exported) b fun s b' =>
      After member b₀ b' ∧ b'.IsOwn s := by
  unfold declareSymbol
  refine .get ?_
  extract_lets name isLocal owner earlier
  have hearlier {s : SymbolIndex} (hs : earlier = some s) : s < b.symbols.size := by
    rcases (Option.orElse_eq_some ..).mp hs with hs | ⟨-, hs⟩
    · obtain ⟨o, -, hs⟩ := Option.bind_eq_some_iff.mp hs
      exact h.sound.members o name s hs
    · split at hs
      · exact h.sound.names hs
      · cases hs
  -- the symbol is pending until the declaration is added
  have hrest {s : SymbolIndex} {b : Bindings} (h : Pending member b₀ s b)
      (hown : (b.symbol s).isAlias = false) :
      Gives (do
        modify (·.addDeclaration s file i)
        if isLocal then modify (·.bindName c name s)
        if let some o := owner then modify (·.addMember o name s)
        return s) b fun s b' => After member b₀ b' ∧ b'.IsOwn s := by
    refine .bind (addDeclaration_gives h fun ha => ?_) fun _ b' h' => ?_
    · rw [hown] at ha
      cases ha
    · exact name_gives h'.1 ⟨h'.2.1, h'.2.2.trans hown⟩ c name isLocal owner
  split
  · next s hs =>
    obtain ⟨hs, hown⟩ := Option.filter_eq_some_iff.mp hs
    have hlt := hearlier hs
    have hkeeps : b.Keeps (b.update s (·.addKind kind)) :=
      update_keeps _ (fun x => addKind_aliasOf x kind) s
    have hsound : (b.update s (·.addKind kind)).Sound member none :=
      h.sound.addKind s kind
    have hpending : Pending member b₀ s (b.update s (·.addKind kind)) :=
      ⟨hsound.wait s, h.keeps.trans hkeeps, Nat.lt_of_lt_of_le hlt hkeeps.size⟩
    have hown' : ((b.update s (·.addKind kind)).symbol s).isAlias = false := by
      rw [hkeeps.isAlias s hlt]
      simpa using hown
    exact .bind (P := fun _ b' => Pending member b₀ s b' ∧ (b'.symbol s).isAlias = false)
      (modify_gives ⟨hpending, hown'⟩) fun _ b' h' => hrest h'.1 h'.2
  · refine .bind (allocate_gives h rfl) fun s b' h' => hrest h'.1 ?_
    rw [h'.2]
    rfl

theorem declareAlias_gives (h : After member b₀ b) (c : Container) (name : String)
    (target : AliasTarget) :
    Gives (declareAlias c name target) b fun s b' =>
      After member b₀ b' ∧ s < b'.symbols.size := by
  unfold declareAlias
  refine .get ?_
  dsimp only
  split
  · next s hs =>
    exact .pure ⟨h, h.sound.names (Option.filter_eq_some_iff.mp hs).1⟩
  · refine .bind (allocate_gives h rfl) fun s b' ⟨h', hs⟩ => ?_
    -- an import waits for no declaration
    have hsound : b'.Sound member none := h'.sound.settle fun ha => by
      rw [hs] at ha
      cases ha
    have hkeeps : b'.Keeps (b'.bindName c name s) := bindName_keeps c name s
    exact .bind (P := fun _ b' => After member b₀ b' ∧ s < b'.symbols.size)
      (modify_gives ⟨⟨hsound.bindName h'.lt c name, h'.keeps.trans hkeeps⟩,
        Nat.lt_of_lt_of_le h'.lt hkeeps.size⟩) fun _ _ h => .pure h

theorem ambientModule_gives (h : After member b₀ b) (name : String) :
    Gives (ambientModule name) b fun s b' =>
      Pending member b₀ s b' ∧ (b'.symbol s).isAlias = false := by
  unfold ambientModule
  refine .get ?_
  split
  · next s hs =>
    obtain ⟨hlt, hown⟩ := h.sound.ambient name s hs
    exact .pure ⟨⟨h.sound.wait s, h.keeps, hlt⟩, hown⟩
  · refine .bind (allocate_gives h rfl) fun s b' ⟨h', hs⟩ => ?_
    have hown : (b'.symbol s).isAlias = false := by
      rw [hs]
      rfl
    refine .bind (P := fun _ b' => Pending member b₀ s b' ∧ (b'.symbol s).isAlias = false)
      (modify_gives ⟨⟨{ h'.sound with ambient := fun other t ht => ?_ },
        ⟨h'.keeps.size, h'.keeps.isAlias⟩, h'.lt⟩, hown⟩) fun _ _ h => .pure h
    rw [Table.get?_insert] at ht
    split at ht
    · obtain rfl := Option.some.inj ht
      exact ⟨h'.lt, hown⟩
    · exact h'.sound.ambient other t ht

theorem enumMember_gives (h : After member b₀ b) {file : FileIndex} {i : DeclIndex}
    (hmember : member file i) (owner : SymbolIndex) (name : String) :
    Gives (enumMember file owner i name) b fun _ b' => After member b₀ b' := by
  unfold enumMember
  refine .get ?_
  have hrest {s : SymbolIndex} {b : Bindings} (h : Pending member b₀ s b) :
      Gives (modify (·.addDeclaration s file i)) b fun _ b' => After member b₀ b' :=
    (addDeclaration_gives h fun _ => hmember).1
  dsimp only
  split
  · next s hs =>
    exact .bind (P := Pending member b₀)
      (.pure ⟨h.sound.wait s, h.keeps, h.sound.members owner name s hs⟩) fun s b' h' => hrest h'
  · refine .bind (allocate_gives h rfl) fun s b' ⟨h', hs⟩ => ?_
    have hkeeps : b'.Keeps (b'.addMember owner name s) := addMember_keeps owner name s
    exact .bind (P := fun _ b' => Pending member b₀ s b')
      (modify_gives ⟨h'.sound.addMember h'.lt owner name, h'.keeps.trans hkeeps,
        Nat.lt_of_lt_of_le h'.lt hkeeps.size⟩) fun _ b' h' => hrest h'

theorem moduleContainer_gives (h : After member b₀ b) (c : Container) (file : FileIndex)
    (i : DeclIndex) (d : Declaration) (naming : ModuleNaming) (body : Option (List Statement)) :
    Gives (moduleContainer c file i d naming body) b fun _ b' => After member b₀ b' := by
  unfold moduleContainer
  cases naming with
  | global => exact .pure h
  | string =>
    refine .bind (ambientModule_gives h d.name.text) fun s b' ⟨h', hown⟩ => ?_
    refine .bind (addDeclaration_gives h' fun ha => ?_) fun _ b'' h'' => .pure h''.1
    rw [hown] at ha
    cases ha
  | identifier =>
    exact .bind (declareSymbol_gives h c file i d _ _) fun s b' h' => .pure h'.1

variable {f : SourceFile} {file : FileIndex}

/-- Blocks within keep the tables sound, if what enums list in them are known members. -/
def Keeping (member : FileIndex → DeclIndex → Prop) (file : FileIndex)
    (inner : List Statement → List (DeclIndex × Bool))
    (block : Container → List Statement → Bind Unit) : Prop :=
  ∀ (c : Container) (statements : List Statement),
    (∀ i, (i, true) ∈ inner statements → member file i) → ∀ b₀ b, After member b₀ b →
      Gives (block c statements) b fun _ b' => After member b₀ b'

theorem declaration_gives {block : Container → List Statement → Bind Unit}
    {inner : List Statement → List (DeclIndex × Bool)} (hblock : Keeping member file inner block)
    (h : After member b₀ b) (c : Container) {i : DeclIndex}
    (hmembers : ∀ j, (j, true) ∈ f.placedBy inner i → member file j) :
    Gives (declaration block f file c i) b fun _ b' => After member b₀ b' := by
  unfold declaration
  unfold SourceFile.placedBy at hmembers
  cases hd : f.declaration? i with
  | none => exact .pure h
  | some d =>
    rw [hd, Option.map_some] at hmembers
    dsimp only
    cases hshape : d.shape with
    | module naming body =>
      rw [hshape] at hmembers
      refine .bind (moduleContainer_gives h c file i d naming body) fun container b' h' => ?_
      refine .forM_option (fun statements hbody => hblock container statements ?_ _ _ h') h'
      intro j hj
      refine hmembers j (List.mem_append_right _ ?_)
      rw [hbody]
      exact hj
    | «enum» members =>
      rw [hshape] at hmembers
      refine .bind (declareSymbol_gives h c file i d _ _) fun s b' h' => ?_
      refine .forM (fun m hm b'' h'' => enumMember_gives h'' (hmembers m ?_) s _) h'.1
      exact List.mem_cons_of_mem _ (List.mem_map.mpr ⟨m, hm, rfl⟩)
    | enumMember initial => exact .pure h
    | _ => exact (declareSymbol_gives h c file i d _ _).1

theorem statement_gives {block : Container → List Statement → Bind Unit}
    {inner : List Statement → List (DeclIndex × Bool)} (hblock : Keeping member file inner block)
    (h : After member b₀ b) (c : Container) {s : Statement}
    (hmembers : ∀ i, s = .declaration i → ∀ j, (j, true) ∈ f.placedBy inner i → member file j) :
    Gives (statement block f file c s) b fun _ b' => After member b₀ b' := by
  have halias {b : Bindings} (h : After member b₀ b) (name : String) (target : AliasTarget) :
      Gives (discard (declareAlias c name target)) b fun _ b' => After member b₀ b' :=
    (declareAlias_gives h c name target).1
  cases s with
  | declaration i => exact declaration_gives hblock h c (hmembers i rfl)
  | importFrom span typeOnly default nameSpace named specifier =>
    refine .bind (.forM_option (fun n _ => halias h _ _) h) fun _ b' h' => ?_
    refine .bind (.forM_option (fun n _ => halias h' _ _) h') fun _ b'' h'' => ?_
    exact .forM (fun n _ b h => halias h _ _) h''
  | importEquals span name isExport target =>
    refine .bind (declareAlias_gives h c name.text (equalsTarget target)) fun s b' ⟨h', hs⟩ => ?_
    cases isExport with
    | false => exact .pure h'
    | true =>
      refine .forM_option (fun o _ => modify_gives ?_) h'
      exact ⟨h'.sound.addMember hs o name.text, h'.keeps.trans (addMember_keeps o name.text s)⟩
  | _ => exact .pure h

/-- A block keeps the tables sound. -/
theorem block_keeping (n : ℕ) : Keeping member file (f.placedIn n) (block f file n) := by
  induction n with
  | zero => exact fun c statements _ b₀ b h => h
  | succ n ih =>
    intro c statements hmembers b₀ b h
    have hstatements {b : Bindings} (h : After member b₀ b) :
        Gives (statements.forM (statement (block f file n) f file c)) b
          fun _ b' => After member b₀ b' := by
      refine .forM (fun s hs b h => statement_gives ih h c fun i hi j hj => hmembers j ?_) h
      exact List.mem_flatMap.mpr ⟨s, hs, by rw [hi]; exact hj⟩
    unfold block
    cases c.exportsAll with
    | false => exact hstatements h
    | true =>
      refine .bind (P := fun _ b' => After member b₀ b') (modify_gives ?_)
        fun _ b' h' => hstatements h'
      exact ⟨{ h.sound with }, ⟨h.keeps.size, h.keeps.isAlias⟩⟩

/-- A file keeps the tables sound. -/
theorem file_gives {f : LoadedFile} (h : b.Sound member none)
    (hmembers : ∀ n i, (i, true) ∈ f.source.placedIn n f.source.statements → member file i) :
    ((Bind.file f file).run b).2.Sound member none := by
  have hblock (c : Container) {b : Bindings} (h : b.Sound member none) :
      Gives (block f.source file (f.source.declarations.size + 1) c f.source.statements) b
        fun _ b' => After member b b' :=
    block_keeping _ c _ (hmembers _) b b (.start h)
  change Gives (Bind.file f file) b fun _ b' => b'.Sound member none
  unfold Bind.file
  dsimp only
  split
  · refine .bind (allocate_gives (.start h) rfl) fun s b' ⟨h', hs⟩ => ?_
    have hsound : b'.Sound member none := h'.sound.settle fun _ => by
      rw [hs]
      exact List.cons_ne_nil _ _
    refine .bind (hblock _ hsound) fun _ b'' h'' => modify_gives ?_
    -- the module's symbol was made before the block was bound, and stays what it is
    have hown : b''.IsOwn s := by
      refine IsOwn.keep ⟨h'.lt, ?_⟩ h''.keeps
      rw [hs]
      rfl
    refine { h''.sound with modules := fun i t ht => ?_ }
    rw [Table.get?_insert] at ht
    split at ht
    · exact Option.some.inj ht ▸ hown
    · exact h''.sound.modules i t ht
  · exact (hblock _ h).sound

end Bind

theorem Bindings.sound_empty (member : FileIndex → DeclIndex → Prop) :
    Bindings.empty.Sound member none where
  globals name s hs := nomatch hs
  locals scope t name s ht := nomatch ht
  members o name s hs := by
    rw [symbol_of_size_le (by simp [empty])] at hs
    cases hs
  ambient name s hs := nomatch hs
  modules i s hs := nomatch hs
  symbolOf file i s hs := nomatch hs
  declared s hs := absurd hs (Nat.not_lt_zero s)

/-- A declaration that an enum of a file lists. -/
def Loaded.IsMember (l : Loaded) (file : FileIndex) (i : DeclIndex) : Prop :=
  ∃ f, l.files[file]? = some f ∧ ∃ n, (i, true) ∈ f.source.placedIn n f.source.statements

/-- The tables are sound when all files of a program are bound. -/
theorem Loaded.bind_sound (l : Loaded) : l.bind.Sound l.IsMember none := by
  refine Bind.Gives.forM (I := fun b => b.Sound l.IsMember none) (fun entry hentry b h => ?_)
    (Bindings.sound_empty _)
  obtain ⟨f, i⟩ := entry
  rw [List.mk_mem_zipIdx_iff_getElem?, Array.getElem?_toList] at hentry
  exact Bind.file_gives h fun n j hj => ⟨f, hentry, n, hj⟩

end ApiSurface
