import ApiSurface.Proofs.BoundNames
/-!
Two runs of binding whose symbols correspond but are numbered differently, because the second one
comes to more imports. The renumbering grows with the steps. Imports need not correspond where
they are bound to a name: what a scope declares does, and so do members and the rest of a symbol.
-/
namespace ApiSurface

/-- A symbol without its links to other symbols. -/
def Symbol.unlinked (x : Symbol) : Symbol := { x with parent := none, members := [] }

namespace Symbol

theorem unlinked_addKind (x : Symbol) (kind : SymbolKind) :
    (x.addKind kind).unlinked = x.unlinked.addKind kind := by
  unfold addKind isA unlinked
  split <;> rfl

theorem unlinked_addSite (x : Symbol) (site : Site) :
    (x.addSite site).unlinked = x.unlinked.addSite site := by
  unfold addSite unlinked
  split <;> rfl

theorem isAlias_unlinked {x y : Symbol} (h : x.unlinked = y.unlinked) : x.isAlias = y.isAlias := by
  change x.unlinked.isAlias = y.unlinked.isAlias
  rw [h]

theorem declarations_unlinked {x y : Symbol} (h : x.unlinked = y.unlinked) :
    x.declarations = y.declarations := by
  change x.unlinked.declarations = y.unlinked.declarations
  rw [h]

theorem kinds_unlinked {x y : Symbol} (h : x.unlinked = y.unlinked) : x.kinds = y.kinds := by
  change x.unlinked.kinds = y.unlinked.kinds
  rw [h]

end Symbol

/-- A container whose owner is numbered by `f`. -/
def Container.renumber (f : SymbolIndex → SymbolIndex) (c : Container) : Container :=
  { c with owner := c.owner.map f }

namespace Bindings

variable {b b' : Bindings} {f : SymbolIndex → SymbolIndex} {s o : SymbolIndex} {name : String}

/-- What a name is bound to in a scope by declaration. -/
def declared (b : Bindings) (isGlobal : Bool) (scope : Site) (name : String) : Option SymbolIndex :=
  (b.named isGlobal scope name).filter fun s => !(b.symbol s).isAlias

/-- All that is found in the tables is there. -/
def Closed (b : Bindings) : Prop := ∀ s, b.InTables s → s < b.symbols.size

/-- The symbols of `b` are there in `b'`, numbered by `f`. They have the same members, and scopes
declare the same names. -/
structure Renumbered (f : SymbolIndex → SymbolIndex) (b b' : Bindings) : Prop where
  closed : b.Closed
  closed' : b'.Closed
  lt : ∀ s < b.symbols.size, f s < b'.symbols.size
  inj : ∀ s < b.symbols.size, ∀ t < b.symbols.size, f s = f t → s = t
  symbol : ∀ s < b.symbols.size, (b'.symbol (f s)).unlinked = (b.symbol s).unlinked
  member : ∀ o < b.symbols.size, ∀ name, b'.member (f o) name = (b.member o name).map f
  declared : ∀ g scope name, b'.declared g scope name = (b.declared g scope name).map f
  ambient : ∀ name, b'.ambient.get? name = (b.ambient.get? name).map f

theorem Closed.named (h : b.Closed) {g : Bool} {scope : Site} (hs : b.named g scope name = some s) :
    s < b.symbols.size := h s (Or.inl ⟨g, scope, name, hs⟩)

theorem Closed.member (h : b.Closed) (hs : b.member o name = some s) : s < b.symbols.size :=
  h s (Or.inr (Or.inl ⟨o, name, hs⟩))

theorem Closed.ambient (h : b.Closed) (hs : b.ambient.get? name = some s) : s < b.symbols.size :=
  h s (Or.inr (Or.inr ⟨name, hs⟩))

theorem Closed.declared (h : b.Closed) {g : Bool} {scope : Site}
    (hs : b.declared g scope name = some s) : s < b.symbols.size :=
  h.named (Option.filter_eq_some_iff.mp hs).1

/-- What a step binds is there if what it adds to the tables is. -/
theorem Closed.change {s : SymbolIndex} {bound : Bool → Site → String → Prop}
    {joins : SymbolIndex → String → Prop} {sites : Site → Prop} (h : b.Closed)
    (hc : Changes s bound joins sites b b') (hs : s < b'.symbols.size) : b'.Closed := by
  have hold {t : SymbolIndex} (ht : t < b.symbols.size) : t < b'.symbols.size :=
    Nat.lt_of_lt_of_le ht hc.keeps.size
  rintro t (⟨g, scope, name, ht⟩ | ⟨o, name, ht⟩ | ⟨name, ht⟩)
  · by_cases hin : bound g scope name
    · rw [hc.named_of _ _ _ hin] at ht
      exact Option.some.inj ht ▸ hs
    · rw [hc.named_else _ _ _ hin] at ht
      exact hold (h.named ht)
  · by_cases hin : joins o name
    · rw [hc.member_of _ _ hin] at ht
      exact Option.some.inj ht ▸ hs
    · rw [hc.member_else _ _ hin] at ht
      exact hold (h.member ht)
  · rcases hc.ambient name t ht with ht | rfl
    · exact hold (h.ambient ht)
    · exact hs

theorem Closed.push (h : b.Closed) {x : Symbol} (hx : x.members = []) :
    ({ b with symbols := b.symbols.push x } : Bindings).Closed := by
  rintro t ht
  refine Nat.lt_of_lt_of_le (h t ?_) (push_keeps x).size
  rcases ht with ht | ⟨o, name, ht⟩ | ht
  · exact Or.inl ht
  · exact Or.inr (Or.inl ⟨o, name, member_push hx o name ▸ ht⟩)
  · exact Or.inr (Or.inr ht)

theorem declared_push (h : b.Closed) (x : Symbol) (g : Bool) (scope : Site) (name : String) :
    ({ b with symbols := b.symbols.push x } : Bindings).declared g scope name =
      b.declared g scope name := by
  change (b.named g scope name).filter _ = (b.named g scope name).filter _
  cases hnamed : b.named g scope name with
  | none => rfl
  | some t => simp only [Option.filter_some, (push_keeps x).isAlias t (h.named hnamed)]

/-- A step that binds no name leaves what scopes declare. -/
theorem declared_change {s : SymbolIndex} {bound : Bool → Site → String → Prop}
    {joins : SymbolIndex → String → Prop} {sites : Site → Prop} (h : b.Closed)
    (hc : Changes s bound joins sites b b') {g : Bool} {scope : Site} (hname : ¬ bound g scope name) :
    b'.declared g scope name = b.declared g scope name := by
  unfold Bindings.declared
  rw [hc.named_else _ _ _ hname]
  cases hnamed : b.named g scope name with
  | none => rfl
  | some t => simp only [Option.filter_some, hc.keeps.isAlias t (h.named hnamed)]

theorem declared_change_of {s : SymbolIndex} {bound : Bool → Site → String → Prop}
    {joins : SymbolIndex → String → Prop} {sites : Site → Prop}
    (hc : Changes s bound joins sites b b') {g : Bool} {scope : Site} (hname : bound g scope name) :
    b'.declared g scope name = (some s).filter fun s => !(b'.symbol s).isAlias := by
  unfold Bindings.declared
  rw [hc.named_of _ _ _ hname]

namespace Renumbered

variable {b₁ b₁' : Bindings}

theorem isAlias (h : Renumbered f b b') (hs : s < b.symbols.size) :
    (b'.symbol (f s)).isAlias = (b.symbol s).isAlias := Symbol.isAlias_unlinked (h.symbol s hs)

theorem eq_iff (h : Renumbered f b b') {t : SymbolIndex} (hs : s < b.symbols.size)
    (ht : t < b.symbols.size) : f s = f t ↔ s = t := ⟨h.inj s hs t ht, congrArg f⟩

/-- Two steps that change the tables alike for a symbol and the one it corresponds to. -/
theorem change (h : Renumbered f b b') {bound : Bool → Site → String → Prop}
    {joins joins' : SymbolIndex → String → Prop} {sites sites' : Site → Prop}
    (hc : Changes s bound joins sites b b₁) (hc' : Changes (f s) bound joins' sites' b' b₁')
    (hs : s < b.symbols.size) (hsize : b₁.symbols.size = b.symbols.size)
    (hsymbol : ∀ t < b.symbols.size, (b₁'.symbol (f t)).unlinked = (b₁.symbol t).unlinked)
    (hjoins : ∀ o < b.symbols.size, ∀ name, joins' (f o) name ↔ joins o name)
    (hambient : ∀ name, b₁'.ambient.get? name = (b₁.ambient.get? name).map f) :
    Renumbered f b₁ b₁' where
  closed := h.closed.change hc (hsize ▸ hs)
  closed' := h.closed'.change hc' (Nat.lt_of_lt_of_le (h.lt s hs) hc'.keeps.size)
  lt t ht := Nat.lt_of_lt_of_le (h.lt t (hsize ▸ ht)) hc'.keeps.size
  inj t ht u hu := h.inj t (hsize ▸ ht) u (hsize ▸ hu)
  symbol t ht := hsymbol t (hsize ▸ ht)
  member o ho name := by
    have ho : o < b.symbols.size := hsize ▸ ho
    by_cases hin : joins o name
    · rw [hc.member_of _ _ hin, hc'.member_of _ _ ((hjoins o ho name).mpr hin), Option.map_some]
    · rw [hc.member_else _ _ hin, hc'.member_else _ _ fun hin' => hin ((hjoins o ho name).mp hin'),
        h.member o ho]
  declared g scope name := by
    by_cases hin : bound g scope name
    · rw [declared_change_of hc hin, declared_change_of hc' hin]
      simp only [Option.filter_some, Symbol.isAlias_unlinked (hsymbol s hs)]
      split <;> rfl
    · rw [declared_change h.closed hc hin, declared_change h.closed' hc' hin, h.declared]
  ambient := hambient

theorem symbol_updates (h : Renumbered f b b') (hs : s < b.symbols.size) {change : Symbol → Symbol}
    (hchange : ∀ x y, x.unlinked = y.unlinked → (change x).unlinked = (change y).unlinked) :
    ∀ t < b.symbols.size, ((b'.update (f s) change).symbol (f t)).unlinked =
      ((b.update s change).symbol t).unlinked := by
  intro t ht
  rw [symbol_update, symbol_update]
  simp only [h.eq_iff ht hs, hs, h.lt s hs, and_true]
  split
  · exact hchange _ _ (h.symbol s hs)
  · exact h.symbol t ht

theorem addKind (h : Renumbered f b b') (hs : s < b.symbols.size) (kind : SymbolKind) :
    Renumbered f (b.update s (·.addKind kind)) (b'.update (f s) (·.addKind kind)) :=
  h.change (addKind_changes kind) (addKind_changes kind) hs (by simp [update])
    (h.symbol_updates hs fun x y hxy => by
      rw [Symbol.unlinked_addKind, Symbol.unlinked_addKind, hxy])
    (fun _ _ _ => Iff.rfl) h.ambient

theorem addDeclaration (h : Renumbered f b b') (hs : s < b.symbols.size) (file : FileIndex)
    (i : DeclIndex) : Renumbered f (b.addDeclaration s file i) (b'.addDeclaration (f s) file i) :=
  h.change (addDeclaration_changes hs file i) (addDeclaration_changes (h.lt s hs) file i) hs
    (by simp [Bindings.addDeclaration, update])
    (h.symbol_updates hs fun x y hxy => by
      rw [Symbol.unlinked_addSite, Symbol.unlinked_addSite, hxy])
    (fun _ _ _ => Iff.rfl) h.ambient

theorem addMember (h : Renumbered f b b') (hs : s < b.symbols.size) (ho : o < b.symbols.size)
    (name : String) : Renumbered f (b.addMember o name s) (b'.addMember (f o) name (f s)) := by
  refine h.change (addMember_changes ho name) (addMember_changes (h.lt o ho) name) hs
    (by simp [Bindings.addMember, update]) (fun t ht => ?_)
    (fun t ht other => by rw [h.eq_iff ht ho]) h.ambient
  -- members are links, so the two insertions need not be compared
  simp only [Bindings.addMember, symbol_update, h.eq_iff ht ho, ho, h.lt o ho, and_true]
  split
  · exact h.symbol o ho
  · exact h.symbol t ht

theorem symbol_bindName (c : Container) (name : String) (s t : SymbolIndex) :
    (b.bindName c name s).symbol t = b.symbol t := by
  unfold Bindings.bindName
  split <;> rfl

theorem ambient_bindName (c : Container) (name : String) (s : SymbolIndex) :
    (b.bindName c name s).ambient = b.ambient := by
  unfold Bindings.bindName
  split <;> rfl

theorem size_bindName (c : Container) (name : String) (s : SymbolIndex) :
    (b.bindName c name s).symbols.size = b.symbols.size := by
  unfold Bindings.bindName
  split <;> rfl

theorem bindName (h : Renumbered f b b') (hs : s < b.symbols.size) {c c' : Container}
    (hglobal : c'.isGlobal = c.isGlobal) (hscope : c'.scope = c.scope) (name : String) :
    Renumbered f (b.bindName c name s) (b'.bindName c' name (f s)) := by
  have hc' := bindName_changes (s := f s) (b := b') c' name
  rw [hglobal, hscope] at hc'
  refine h.change (bindName_changes c name) hc' hs (size_bindName ..) (fun t ht => ?_)
    (fun _ _ _ => Iff.rfl) fun other => ?_
  · rw [symbol_bindName, symbol_bindName, h.symbol t ht]
  · rw [ambient_bindName, ambient_bindName, h.ambient]

theorem addAmbient (h : Renumbered f b b') (hs : s < b.symbols.size) (name : String) :
    Renumbered f { b with ambient := b.ambient.insert name s }
      { b' with ambient := b'.ambient.insert name (f s) } := by
  refine h.change (ambient_changes name) (ambient_changes name) hs rfl h.symbol
    (fun _ _ _ => Iff.rfl) fun other => ?_
  rw [Table.get?_insert, Table.get?_insert]
  split
  · rfl
  · exact h.ambient other

/-- A new symbol on both sides. -/
theorem push (h : Renumbered f b b') {x x' : Symbol} (hx : x.members = []) (hx' : x'.members = [])
    (hsame : x'.unlinked = x.unlinked) :
    Renumbered (Function.update f b.symbols.size b'.symbols.size)
      { b with symbols := b.symbols.push x } { b' with symbols := b'.symbols.push x' } := by
  have hold {t : SymbolIndex} (ht : t < b.symbols.size) :
      Function.update f b.symbols.size b'.symbols.size t = f t :=
    Function.update_of_ne (Nat.ne_of_lt ht) ..
  have hnew : Function.update f b.symbols.size b'.symbols.size b.symbols.size = b'.symbols.size :=
    Function.update_self ..
  -- a symbol of the longer table is an old one or the last
  have hcases {t : SymbolIndex} (ht : t < (b.symbols.push x).size) :
      t < b.symbols.size ∨ t = b.symbols.size := by
    rw [Array.size_push] at ht
    exact Nat.lt_succ_iff_lt_or_eq.mp ht
  have hmap {t? : Option SymbolIndex} (ht : ∀ t ∈ t?, t < b.symbols.size) :
      t?.map (Function.update f b.symbols.size b'.symbols.size) = t?.map f :=
    Option.map_congr fun t hmem => hold (ht t hmem)
  constructor
  case closed => exact h.closed.push hx
  case closed' => exact h.closed'.push hx'
  case lt =>
    intro t ht
    simp only [Array.size_push]
    rcases hcases ht with ht | rfl
    · rw [hold ht]
      exact Nat.lt_succ_of_lt (h.lt t ht)
    · rw [hnew]
      exact Nat.lt_succ_self _
  case inj =>
    intro t ht u hu heq
    rcases hcases ht with ht | rfl <;> rcases hcases hu with hu | rfl
    · rw [hold ht, hold hu] at heq
      exact h.inj t ht u hu heq
    · rw [hold ht, hnew] at heq
      exact absurd heq (Nat.ne_of_lt (h.lt t ht))
    · rw [hold hu, hnew] at heq
      exact absurd heq.symm (Nat.ne_of_lt (h.lt u hu))
    · rfl
  case symbol =>
    intro t ht
    rcases hcases ht with ht | rfl
    · rw [hold ht, symbol_push, symbol_push, if_neg (Nat.ne_of_lt ht),
        if_neg (Nat.ne_of_lt (h.lt t ht)), h.symbol t ht]
    · rw [hnew, symbol_push, symbol_push, if_pos rfl, if_pos rfl, hsame]
  case member =>
    intro o ho name
    rw [member_push hx, member_push hx', hmap fun t ht => h.closed.member ht]
    rcases hcases ho with ho | rfl
    · rw [hold ho, h.member o ho]
    · rw [hnew, Bindings.member, Bindings.member, symbol_of_size_le (Nat.le_refl _),
        symbol_of_size_le (Nat.le_refl _)]
      rfl
  case declared =>
    intro g scope name
    rw [declared_push h.closed, declared_push h.closed', hmap fun t ht => h.closed.declared ht,
      h.declared]
  case ambient =>
    intro name
    exact (h.ambient name).trans (hmap fun t ht => h.closed.ambient ht).symm

/-- An import that only the second side comes to takes a name that its scope does not declare. -/
theorem importAside (h : Renumbered f b b') {c : Container} {name : String} {x' : Symbol}
    (hx' : x'.members = []) (halias : x'.isAlias = true)
    (hnone : b'.declared c.isGlobal c.scope name = none) :
    Renumbered f b (({ b' with symbols := b'.symbols.push x' } : Bindings).bindName c name
      b'.symbols.size) := by
  let pushed : Bindings := { b' with symbols := b'.symbols.push x' }
  have hc := bindName_changes (s := b'.symbols.size) (b := pushed) c name
  have hclosed : pushed.Closed := h.closed'.push hx'
  have hlast : b'.symbols.size < pushed.symbols.size := by simp [pushed]
  constructor
  case closed => exact h.closed
  case closed' => exact hclosed.change hc (Nat.lt_of_lt_of_le hlast hc.keeps.size)
  case lt =>
    intro t ht
    exact Nat.lt_of_lt_of_le (Nat.lt_trans (h.lt t ht) hlast) hc.keeps.size
  case inj => exact h.inj
  case symbol =>
    intro t ht
    rw [symbol_bindName, symbol_push, if_neg (Nat.ne_of_lt (h.lt t ht)), h.symbol t ht]
  case member =>
    intro o ho other
    rw [hc.member_else _ _ id, member_push hx', h.member o ho]
  case declared =>
    intro g scope other
    by_cases hin : g = c.isGlobal ∧ (g = true ∨ scope = c.scope) ∧ other = name
    · have hdeclared : b'.declared g scope other = none := by
        obtain ⟨rfl, hscope, rfl⟩ := hin
        rcases hscope with hglobal | rfl
        · rw [hglobal] at hnone ⊢
          exact hnone
        · exact hnone
      rw [declared_change_of hc hin, ← h.declared, hdeclared, Option.filter_some, symbol_bindName,
        symbol_push, if_pos rfl, halias]
      rfl
    · rw [declared_change hclosed hc hin, declared_push h.closed', h.declared]
  case ambient =>
    intro other
    rw [ambient_bindName]
    exact h.ambient other

end Renumbered

end Bindings

namespace Bind

open Bindings

variable {α β : Type} {b b' : Bindings} {f : SymbolIndex → SymbolIndex}

/-- A renumbering `f₁` goes on with `f` for the symbols that are there in `b`, some steps later. -/
structure Extends (f : SymbolIndex → SymbolIndex) (b : Bindings) (f₁ : SymbolIndex → SymbolIndex)
    (b₁ : Bindings) : Prop where
  size : b.symbols.size ≤ b₁.symbols.size
  same : ∀ s < b.symbols.size, f₁ s = f s

theorem Extends.refl (f : SymbolIndex → SymbolIndex) (b : Bindings) : Extends f b f b :=
  ⟨Nat.le_refl _, fun _ _ => rfl⟩

theorem Extends.trans {f₁ f₂ : SymbolIndex → SymbolIndex} {b₁ b₂ : Bindings}
    (h : Extends f b f₁ b₁) (h' : Extends f₁ b₁ f₂ b₂) : Extends f b f₂ b₂ where
  size := h.size.trans h'.size
  same s hs := (h'.same s (Nat.lt_of_lt_of_le hs h.size)).trans (h.same s hs)

/-- Steps `x` and `x'` keep a renumbering, which may grow, and give results that are as wanted. -/
def Follows (f : SymbolIndex → SymbolIndex) (b b' : Bindings) (x x' : Bind α)
    (Q : (SymbolIndex → SymbolIndex) → Bindings → α → α → Prop) : Prop :=
  ∃ f₁, Extends f b f₁ (x.run b).2 ∧ Renumbered f₁ (x.run b).2 (x'.run b').2 ∧
    Q f₁ (x.run b).2 (x.run b).1 (x'.run b').1

variable {Q : (SymbolIndex → SymbolIndex) → Bindings → α → α → Prop}

theorem Follows.pure (h : Renumbered f b b') {a a' : α} (hQ : Q f b a a') :
    Follows f b b' (Pure.pure a) (Pure.pure a') Q := ⟨f, .refl f b, h, hQ⟩

theorem Follows.bind {x x' : Bind α} {k k' : α → Bind β}
    {R : (SymbolIndex → SymbolIndex) → Bindings → β → β → Prop} (hx : Follows f b b' x x' Q)
    (hk : ∀ f₁ b₁ b₁' a a', Extends f b f₁ b₁ → Renumbered f₁ b₁ b₁' → Q f₁ b₁ a a' →
      Follows f₁ b₁ b₁' (k a) (k' a') R) : Follows f b b' (x >>= k) (x' >>= k') R := by
  obtain ⟨f₁, hextends, h, hQ⟩ := hx
  obtain ⟨f₂, hextends', h', hR⟩ := hk f₁ _ _ _ _ hextends h hQ
  exact ⟨f₂, hextends.trans hextends', h', hR⟩

/-- Steps whose results do not matter. -/
theorem Follows.discard {x x' : Bind α} (hx : Follows f b b' x x' Q) :
    Follows f b b' (Functor.discard x) (Functor.discard x') fun _ _ _ _ => True := by
  obtain ⟨f₁, hextends, hnext, -⟩ := hx
  exact ⟨f₁, hextends, hnext, trivial⟩

theorem Follows.get {k k' : Bindings → Bind β}
    {R : (SymbolIndex → SymbolIndex) → Bindings → β → β → Prop}
    (h : Follows f b b' (k b) (k' b') R) :
    Follows f b b' ((MonadState.get : Bind Bindings) >>= k)
      ((MonadState.get : Bind Bindings) >>= k') R := h

/-- Two changes that keep a renumbering as it is. -/
theorem Follows.modify {g g' : Bindings → Bindings} (h : Renumbered f (g b) (g' b'))
    (hsize : b.symbols.size ≤ (g b).symbols.size) :
    Follows f b b' (modify g) (modify g') fun _ _ _ _ => True :=
  ⟨f, ⟨hsize, fun _ _ => rfl⟩, h, trivial⟩

/-- The symbols that two steps give correspond. -/
def Numbers (f : SymbolIndex → SymbolIndex) (b : Bindings) (s s' : SymbolIndex) : Prop :=
  s < b.symbols.size ∧ s' = f s

theorem Numbers.extend {f₁ : SymbolIndex → SymbolIndex} {b₁ : Bindings} {s s' : SymbolIndex}
    (h : Numbers f b s s') (hextends : Extends f b f₁ b₁) : Numbers f₁ b₁ s s' :=
  ⟨Nat.lt_of_lt_of_le h.1 hextends.size, h.2.trans (hextends.same s h.1).symm⟩

theorem allocate_follows (h : Renumbered f b b') {x x' : Symbol} (hx : x.members = [])
    (hx' : x'.members = []) (hsame : x'.unlinked = x.unlinked) :
    Follows f b b' (allocate x) (allocate x') Numbers := by
  have hsize : b.symbols.size < (b.symbols.push x).size := by simp
  have hlast : Function.update f b.symbols.size b'.symbols.size b.symbols.size = b'.symbols.size :=
    Function.update_self ..
  exact ⟨Function.update f b.symbols.size b'.symbols.size,
    ⟨Nat.le_of_lt hsize, fun s hs => Function.update_of_ne (Nat.ne_of_lt hs) ..⟩,
    h.push hx hx' hsame, hsize, hlast.symm⟩

/-! ### Declarations -/

variable {c : Container}

/-- The owner of a container is there. -/
def Owned (b : Bindings) (c : Container) : Prop := ∀ o ∈ c.owner, o < b.symbols.size

theorem Owned.renumber (h : Owned b c) {f₁ : SymbolIndex → SymbolIndex} {b₁ : Bindings}
    (hextends : Extends f b f₁ b₁) : Owned b₁ c ∧ c.renumber f = c.renumber f₁ := by
  refine ⟨fun o ho => Nat.lt_of_lt_of_le (h o ho) hextends.size, ?_⟩
  unfold Container.renumber
  rw [Option.map_congr fun o ho => (hextends.same o (h o ho)).symm]

theorem ownerOf_renumber (f : SymbolIndex → SymbolIndex) (c : Container) (d : Declaration)
    (exported : Bool) : ownerOf (c.renumber f) d exported = (ownerOf c d exported).map f := by
  unfold ownerOf Container.renumber
  rw [apply_ite (Option.map f)]
  rfl

theorem Owned.of_ownerOf (h : Owned b c) {d : Declaration} {exported : Bool} {o : SymbolIndex}
    (ho : o ∈ ownerOf c d exported) : o < b.symbols.size := by
  unfold ownerOf at ho
  split at ho
  · exact h o ho
  · cases ho

/-- What a declaration finds under its name corresponds, unless it is an import. -/
theorem earlier_renumber (h : Renumbered f b b') (hc : Owned b c) (d : Declaration)
    (exported : Bool) : ((earlier b' (c.renumber f) d exported).filter fun s =>
      !(b'.symbol s).isAlias) =
        ((earlier b c d exported).filter fun s => !(b.symbol s).isAlias).map f := by
  have hlocal : ((if isLocal d then b'.named c.isGlobal c.scope d.name.text else none).filter
      fun s => !(b'.symbol s).isAlias) =
        ((if isLocal d then b.named c.isGlobal c.scope d.name.text else none).filter
          fun s => !(b.symbol s).isAlias).map f := by
    cases isLocal d with
    | false => rfl
    | true => exact h.declared c.isGlobal c.scope d.name.text
  unfold earlier
  rw [ownerOf_renumber]
  cases howner : ownerOf c d exported with
  | none => exact hlocal
  | some o =>
    simp only [Option.map_some, Option.bind_some, h.member o (hc.of_ownerOf howner)]
    cases hmember : b.member o d.name.text with
    | none => exact hlocal
    | some u =>
      -- a member hides what the scope binds, even where it is an import
      have halias := h.isAlias (h.closed.member hmember)
      change (some (f u)).filter _ = ((some u).filter _).map f
      rw [Option.filter_some, Option.filter_some, halias]
      split <;> rfl

/-- What a declaration does with its symbol: it adds the site and the names. -/
def settle (c : Container) (file : FileIndex) (i : DeclIndex) (d : Declaration) (exported : Bool)
    (s : SymbolIndex) : Bind SymbolIndex := do
  modify (·.addDeclaration s file i)
  if isLocal d then modify (·.bindName c d.name.text s)
  if let some o := ownerOf c d exported then modify (·.addMember o d.name.text s)
  return s

theorem declareSymbol_found {file : FileIndex} {i : DeclIndex} {d : Declaration}
    {kind : SymbolKind} {exported : Bool} {s : SymbolIndex}
    (h : ((earlier b c d exported).filter fun s => !(b.symbol s).isAlias) = some s) :
    (declareSymbol c file i d kind exported).run b =
      (modify (·.update s (·.addKind kind)) >>= fun _ => settle c file i d exported s).run b := by
  suffices Gives (declareSymbol c file i d kind exported) b fun t b₁ => (t, b₁) =
    (modify (·.update s (·.addKind kind)) >>= fun _ => settle c file i d exported s).run b from this
  unfold declareSymbol
  refine .get ?_
  dsimp only
  split
  · next t hfound =>
    obtain rfl := Option.some.inj (h.symm.trans hfound)
    rfl
  · next hfound => cases h.symm.trans hfound

theorem declareSymbol_new {file : FileIndex} {i : DeclIndex} {d : Declaration}
    {kind : SymbolKind} {exported : Bool}
    (h : ((earlier b c d exported).filter fun s => !(b.symbol s).isAlias) = none) :
    (declareSymbol c file i d kind exported).run b =
      (allocate (fresh d.name.text kind c.owner) >>= settle c file i d exported).run b := by
  suffices Gives (declareSymbol c file i d kind exported) b fun t b₁ => (t, b₁) =
    (allocate (fresh d.name.text kind c.owner) >>= settle c file i d exported).run b from this
  unfold declareSymbol
  refine .get ?_
  dsimp only
  split
  · next t hfound => cases h.symm.trans hfound
  · rfl

theorem addMember_follows (h : Renumbered f b b') {s s' : SymbolIndex} (hs : Numbers f b s s')
    {owner : Option SymbolIndex} (howner : ∀ o ∈ owner, o < b.symbols.size) (name : String) :
    Follows f b b' (do
      if let some o := owner then modify (·.addMember o name s)
      return s) (do
      if let some o := owner.map f then modify (·.addMember o name s')
      return s') Numbers := by
  cases owner with
  | none => exact .pure h hs
  | some o =>
    obtain ⟨hlt, rfl⟩ := hs
    refine .bind (.modify (h.addMember hlt (howner o rfl) name) (addMember_keeps o name s).size) ?_
    exact fun f₁ b₁ b₁' _ _ hextends h₁ _ => .pure h₁ (Numbers.extend ⟨hlt, rfl⟩ hextends)

theorem settle_follows (h : Renumbered f b b') (hc : Owned b c) {s s' : SymbolIndex}
    (hs : Numbers f b s s') (file : FileIndex) (i : DeclIndex) (d : Declaration)
    (exported : Bool) : Follows f b b' (settle c file i d exported s)
      (settle (c.renumber f) file i d exported s') Numbers := by
  have hmember {f₁ : SymbolIndex → SymbolIndex} {b₁ b₁' : Bindings} (hextends : Extends f b f₁ b₁)
      (h₁ : Renumbered f₁ b₁ b₁') := addMember_follows h₁ (hs.extend hextends)
        (fun o (ho : ownerOf c d exported = some o) =>
          Nat.lt_of_lt_of_le (hc.of_ownerOf ho) hextends.size) d.name.text
  unfold settle
  refine .bind (.modify (hs.2 ▸ h.addDeclaration hs.1 file i)
    (addDeclaration_keeps s file i).size) ?_
  intro f₁ b₁ b₁' _ _ hextends h₁ _
  obtain ⟨howned, hcontainer⟩ := hc.renumber hextends
  rw [hcontainer, ownerOf_renumber]
  cases isLocal d with
  | false => exact hmember hextends h₁
  | true =>
    obtain ⟨hlt, hs'⟩ := hs.extend hextends
    refine .bind (.modify (hs' ▸ h₁.bindName hlt rfl rfl d.name.text)
      (bindName_keeps c d.name.text s).size) ?_
    intro f₂ b₂ b₂' _ _ hextends' h₂ _
    have hall := hextends.trans hextends'
    have hsame : (ownerOf c d exported).map f₁ = (ownerOf c d exported).map f₂ :=
      Option.map_congr fun o ho => (hextends'.same o (howned.of_ownerOf ho)).symm
    rw [hsame]
    exact hmember hall h₂

theorem declareSymbol_follows (h : Renumbered f b b') (hc : Owned b c) (file : FileIndex)
    (i : DeclIndex) (d : Declaration) (kind : SymbolKind) (exported : Bool) :
    Follows f b b' (declareSymbol c file i d kind exported)
      (declareSymbol (c.renumber f) file i d kind exported) Numbers := by
  have hrest {f₁ : SymbolIndex → SymbolIndex} {b₁ b₁' : Bindings} {s s' : SymbolIndex}
      (hextends : Extends f b f₁ b₁) (h₁ : Renumbered f₁ b₁ b₁') (hs : Numbers f₁ b₁ s s') :
      Follows f₁ b₁ b₁' (settle c file i d exported s)
        (settle (c.renumber f) file i d exported s') Numbers := by
    obtain ⟨howned, hcontainer⟩ := hc.renumber hextends
    rw [hcontainer]
    exact settle_follows h₁ howned hs file i d exported
  have hfound := earlier_renumber h hc d exported
  unfold Follows
  cases hearlier : (earlier b c d exported).filter fun s => !(b.symbol s).isAlias with
  | none =>
    rw [hearlier] at hfound
    rw [declareSymbol_new hearlier, declareSymbol_new hfound]
    exact Follows.bind (allocate_follows h rfl rfl rfl) fun _ _ _ _ _ => hrest
  | some s =>
    rw [hearlier] at hfound
    rw [declareSymbol_found hearlier, declareSymbol_found hfound]
    have hlt : s < b.symbols.size :=
      h.closed s (inTables_of_earlier (Option.filter_eq_some_iff.mp hearlier).1)
    have hsize := (update_keeps (b := b) _ (fun x => addKind_aliasOf x kind) s).size
    refine Follows.bind (.modify (h.addKind hlt kind) hsize) ?_
    exact fun f₁ b₁ b₁' _ _ hextends h₁ _ =>
      hrest hextends h₁ (Numbers.extend ⟨hlt, rfl⟩ hextends)

/-! ### Imports -/

theorem declareAlias_declared {name : String} {target : AliasTarget} {s : SymbolIndex}
    (h : b.declared c.isGlobal c.scope name = some s) :
    (declareAlias c name target).run b = (s, b) := by
  suffices Gives (declareAlias c name target) b fun t b₁ => (t, b₁) = (s, b) from this
  unfold declareAlias
  refine .get ?_
  split
  · next t hfound =>
    obtain rfl := Option.some.inj (h.symm.trans hfound)
    rfl
  · next hfound => cases h.symm.trans hfound

theorem declareAlias_new {name : String} {target : AliasTarget}
    (h : b.declared c.isGlobal c.scope name = none) : (declareAlias c name target).run b =
      (do
        let s ← allocate
          { fresh name .importAlias c.owner with aliasOf := some { target, scope := c.scope } }
        modify (·.bindName c name s)
        return s : Bind SymbolIndex).run b := by
  suffices Gives (declareAlias c name target) b fun t b₁ => (t, b₁) = (do
      let s ← allocate
        { fresh name .importAlias c.owner with aliasOf := some { target, scope := c.scope } }
      modify (·.bindName c name s)
      return s : Bind SymbolIndex).run b from this
  unfold declareAlias
  refine .get ?_
  split
  · next t hfound => cases h.symm.trans hfound
  · rfl

/-- An import that both sides come to. -/
theorem declareAlias_follows (h : Renumbered f b b') (name : String) (target : AliasTarget) :
    Follows f b b' (declareAlias c name target) (declareAlias (c.renumber f) name target)
      Numbers := by
  have hdeclared : b'.declared (c.renumber f).isGlobal (c.renumber f).scope name =
      (b.declared c.isGlobal c.scope name).map f := h.declared c.isGlobal c.scope name
  unfold Follows
  cases hown : b.declared c.isGlobal c.scope name with
  | some s =>
    rw [hown] at hdeclared
    rw [declareAlias_declared hown, declareAlias_declared hdeclared]
    exact ⟨f, .refl f b, h, h.closed.declared hown, rfl⟩
  | none =>
    rw [hown] at hdeclared
    rw [declareAlias_new hown, declareAlias_new hdeclared]
    refine Follows.bind (allocate_follows h rfl rfl rfl) fun f₁ b₁ b₁' s s' _ h₁ hs => ?_
    refine .bind (.modify (hs.2 ▸ h₁.bindName hs.1 rfl rfl name) (bindName_keeps c name s).size) ?_
    exact fun f₂ b₂ b₂' _ _ hextends h₂ _ => .pure h₂ (hs.extend hextends)

/-- An import that only the second side comes to. -/
theorem declareAlias_aside (h : Renumbered f b b') (c : Container) (name : String)
    (target : AliasTarget) : Renumbered f b ((declareAlias c name target).run b').2 := by
  cases hown : b'.declared c.isGlobal c.scope name with
  | some s =>
    rw [declareAlias_declared hown]
    exact h
  | none =>
    rw [declareAlias_new hown]
    exact h.importAside rfl rfl hown

/-! ### Modules and enums -/

theorem addDeclaration_follows (h : Renumbered f b b') {s s' : SymbolIndex}
    (hs : Numbers f b s s') (file : FileIndex) (i : DeclIndex) :
    Follows f b b' (modify (·.addDeclaration s file i)) (modify (·.addDeclaration s' file i))
      fun _ _ _ _ => True :=
  .modify (hs.2 ▸ h.addDeclaration hs.1 file i) (addDeclaration_keeps s file i).size

theorem ambientModule_follows (h : Renumbered f b b') (name : String) :
    Follows f b b' (ambientModule name) (ambientModule name) Numbers := by
  have hname := h.ambient name
  unfold ambientModule
  refine .get ?_
  cases hfound : b.ambient.get? name with
  | some s =>
    rw [hfound] at hname
    rw [hname]
    exact .pure h ⟨h.closed.ambient hfound, rfl⟩
  | none =>
    rw [hfound] at hname
    rw [hname]
    refine .bind (allocate_follows h rfl rfl rfl) fun f₁ b₁ b₁' s s' _ h₁ hs => ?_
    refine .bind (.modify (hs.2 ▸ h₁.addAmbient hs.1 name) (Nat.le_refl _)) ?_
    exact fun f₂ b₂ b₂' _ _ hextends h₂ _ => .pure h₂ (hs.extend hextends)

theorem enumMember_follows (h : Renumbered f b b') {o o' : SymbolIndex} (ho : Numbers f b o o')
    (file : FileIndex) (i : DeclIndex) (name : String) :
    Follows f b b' (enumMember file o i name) (enumMember file o' i name)
      fun _ _ _ _ => True := by
  obtain ⟨hlt, rfl⟩ := ho
  have hmember : (b'.symbol (f o)).members.get? name = ((b.symbol o).members.get? name).map f :=
    h.member o hlt name
  unfold enumMember
  refine .get ?_
  dsimp only
  cases hfound : (b.symbol o).members.get? name with
  | some s =>
    rw [hfound] at hmember
    rw [hmember]
    exact addDeclaration_follows h ⟨h.closed.member hfound, rfl⟩ file i
  | none =>
    rw [hfound] at hmember
    rw [hmember]
    refine .bind (allocate_follows h rfl rfl rfl) fun f₁ b₁ b₁' s s' hextends h₁ hs => ?_
    obtain ⟨ho, ho'⟩ := Numbers.extend (f := f) ⟨hlt, rfl⟩ hextends
    refine .bind (.modify (ho' ▸ hs.2 ▸ h₁.addMember hs.1 ho name)
      (addMember_keeps o name s).size) fun f₂ b₂ b₂' _ _ hextends' h₂ _ => ?_
    exact .bind (.pure h₂ (hs.extend hextends')) fun _ _ _ _ _ _ h₃ hs =>
      addDeclaration_follows h₃ hs file i

/-- The containers that two steps give correspond. -/
def Containers (f : SymbolIndex → SymbolIndex) (b : Bindings) (c c' : Container) : Prop :=
  Owned b c ∧ c' = c.renumber f

theorem moduleContainer_follows (h : Renumbered f b b') (hc : Owned b c) (file : FileIndex)
    (i : DeclIndex) (d : Declaration) (naming : ModuleNaming) (body : Option (List Statement)) :
    Follows f b b' (moduleContainer c file i d naming body)
      (moduleContainer (c.renumber f) file i d naming body) Containers := by
  unfold moduleContainer
  cases naming with
  | global => exact .pure h ⟨nofun, rfl⟩
  | string =>
    refine .bind (ambientModule_follows h d.name.text) fun f₁ b₁ b₁' s s' _ h₁ hs => ?_
    refine .bind (addDeclaration_follows h₁ hs file i) fun f₂ b₂ b₂' _ _ hextends h₂ _ => ?_
    obtain ⟨hlt, rfl⟩ := hs.extend hextends
    exact .pure h₂ ⟨fun o ho => Option.some.inj ho ▸ hlt, rfl⟩
  | identifier =>
    refine .bind (declareSymbol_follows h hc file i d .nameSpace _) fun f₁ b₁ b₁' s s' _ h₁ hs => ?_
    obtain ⟨hlt, rfl⟩ := hs
    exact .pure h₁ ⟨fun o ho => Option.some.inj ho ▸ hlt, rfl⟩

end Bind

end ApiSurface
