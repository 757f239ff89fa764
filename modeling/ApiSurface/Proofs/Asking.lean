import ApiSurface.Program.Exports
import Mathlib.Data.Nat.Notation
/-!
The rules for exports are given over any way of asking for the exports of another module. Two ways
whose answers are related, by a relation that returning and sequencing keep, give related tables.
-/
namespace ApiSurface

/-- A relation between the steps of two monads that returning and sequencing keep. -/
structure MonadRel (m n : Type → Type) [Monad m] [Monad n] where
  rel : {α : Type} → m α → n α → Prop
  pure : ∀ {α : Type} (a : α), rel (pure a) (pure a)
  bind : ∀ {α β : Type} {x : m α} {y : n α} {f : α → m β} {g : α → n β},
    rel x y → (∀ a, rel (f a) (g a)) → rel (x >>= f) (y >>= g)

namespace MonadRel

variable {m n : Type → Type} [Monad m] [Monad n] (R : MonadRel m n)

theorem map [LawfulMonad m] [LawfulMonad n] {α β : Type} (f : α → β) {x : m α} {y : n α}
    (h : R.rel x y) : R.rel (f <$> x) (f <$> y) := by
  rw [map_eq_pure_bind, map_eq_pure_bind]
  exact R.bind h fun a => R.pure (f a)

theorem foldlM {α σ : Type} {f : σ → α → m σ} {g : σ → α → n σ}
    (h : ∀ s a, R.rel (f s a) (g s a)) (xs : List α) (s : σ) :
    R.rel (xs.foldlM f s) (xs.foldlM g s) := by
  induction xs generalizing s with
  | nil => exact R.pure s
  | cons x xs ih => exact R.bind (h s x) ih

theorem mapM [LawfulMonad m] [LawfulMonad n] {α β : Type} {f : α → m β} {g : α → n β}
    (h : ∀ a, R.rel (f a) (g a)) (xs : List α) : R.rel (xs.mapM f) (xs.mapM g) := by
  induction xs with
  | nil => exact R.pure []
  | cons x xs ih =>
    rw [List.mapM_cons, List.mapM_cons]
    exact R.bind (h x) fun b => R.bind ih fun bs => R.pure _

/-- Going on at a symbol, and stopping at anything else. -/
theorem follow {f : SymbolIndex → m (Option Resolution)} {g : SymbolIndex → n (Option Resolution)}
    (h : ∀ s, R.rel (f s) (g s)) (r : Option Resolution) :
    R.rel (match r with | some (.symbol s) => f s | r => Pure.pure r)
      (match r with | some (.symbol s) => g s | r => Pure.pure r) := by
  split
  · exact h _
  · exact R.pure _

end MonadRel

namespace Program

variable {m n : Type → Type} [Monad m] [Monad n] [LawfulMonad m] [LawfulMonad n]
  (R : MonadRel m n) (p : Program) {ask : SymbolIndex → m ExportTable}
  {ask' : SymbolIndex → n ExportTable} (hask : ∀ s, R.rel (ask s) (ask' s))

include hask

omit [LawfulMonad m] [LawfulMonad n] in
theorem moduleValueBy_rel (s : SymbolIndex) :
    R.rel (moduleValueBy ask s) (moduleValueBy ask' s) :=
  R.bind (hask s) fun _ => R.pure _

theorem memberBy_rel (s : SymbolIndex) (name : String) :
    R.rel (p.memberBy ask s name) (p.memberBy ask' s name) := by
  have hfind : R.rel ((ExportTable.find? · name) <$> ask s)
      ((ExportTable.find? · name) <$> ask' s) :=
    R.map _ (hask s)
  unfold memberBy
  by_cases h : (p.symbol s).isModuleLike
  · simp only [h, ↓reduceIte, seq_pure, Functor.map_map]
    exact R.bind hfind fun e => R.pure _
  · simp only [h, Bool.false_eq_true, ↓reduceIte]
    exact R.bind (R.pure none) fun e => R.pure _

theorem membersBy_rel (r : Resolution) (names : List String) :
    R.rel (p.membersBy ask r names) (p.membersBy ask' r names) := by
  induction names generalizing r with
  | nil =>
    simp only [membersBy]
    exact R.pure _
  | cons name names ih =>
    cases r with
    | unresolved specifier path => exact ih _
    | symbol s =>
      simp only [membersBy]
      refine R.bind (memberBy_rel R p hask s name) fun found => ?_
      cases found with
      | none => exact R.pure none
      | some r => exact ih r

theorem entityBy_rel {resolve : SymbolIndex → m (Option Resolution)}
    {resolve' : SymbolIndex → n (Option Resolution)}
    (hresolve : ∀ s, R.rel (resolve s) (resolve' s)) (scope : Site) (names : List String) :
    R.rel (p.entityBy ask resolve scope names) (p.entityBy ask' resolve' scope names) := by
  unfold entityBy
  split
  · exact R.pure none
  · split
    · refine R.bind (hresolve _) fun r => ?_
      cases r with
      | none => exact R.pure none
      | some r => exact membersBy_rel R p hask r _
    · exact R.pure none

omit [LawfulMonad m] [LawfulMonad n] in
theorem importedBy_rel (file : FileIndex) (specifier : String) (name : Option String) :
    R.rel (p.importedBy ask file specifier name) (p.importedBy ask' file specifier name) := by
  unfold importedBy
  split
  · exact R.pure _
  · exact R.bind (hask _) fun t => R.pure _
  · exact R.bind (moduleValueBy_rel R hask _) fun r => R.pure _

theorem aliasBy_rel (k : ℕ) (s : SymbolIndex) :
    R.rel (p.aliasBy ask k s) (p.aliasBy ask' k s) := by
  induction k generalizing s with
  | zero => exact R.pure none
  | succ k ih =>
    have hfollow := R.follow ih
    simp only [aliasBy]
    split
    · exact R.pure _
    · split
      · exact R.bind (importedBy_rel R p hask _ _ _) hfollow
      · exact R.bind (importedBy_rel R p hask _ _ _) hfollow
      · exact R.bind (importedBy_rel R p hask _ _ _) hfollow
      · exact entityBy_rel R p hask ih _ _

theorem resolveBy_rel (s : SymbolIndex) : R.rel (p.resolveBy ask s) (p.resolveBy ask' s) :=
  aliasBy_rel R p hask aliasLimit s

theorem localBy_rel (scope : Site) (name : String) :
    R.rel (p.localBy ask scope name) (p.localBy ask' scope name) := by
  unfold localBy
  split
  · exact resolveBy_rel R p hask _
  · exact R.pure none

theorem exportBy_rel (scope : Site) (e : Explicit) (statement : Statement) :
    R.rel (p.exportBy ask scope e statement) (p.exportBy ask' scope e statement) := by
  unfold exportBy
  split
  · dsimp only
    split
    · split <;> exact R.pure _
    · exact R.pure _
  · exact R.bind (localBy_rel R p hask _ _) fun r => R.pure _
  · exact R.foldlM (fun e x => R.map _ (localBy_rel R p hask _ _)) _ _
  · split
    · exact R.bind (hask _) fun t => R.pure _
    · exact R.pure _
  · exact R.pure _
  · exact R.pure _
  · refine R.bind (entityBy_rel R p hask (resolveBy_rel R p hask) _ _) fun r => ?_
    cases r with
    | none => exact R.pure _
    | some r => dsimp only; split <;> exact R.pure _
  all_goals exact R.pure _

theorem explicitBy_rel (s : SymbolIndex) : R.rel (p.explicitBy ask s) (p.explicitBy ask' s) :=
  R.foldlM (fun _ _ => R.foldlM (fun _ _ => exportBy_rel R p hask _ _ _) _ _) _ _

/-- Related answers give related tables. -/
theorem exportsBy_rel (s : SymbolIndex) : R.rel (p.exportsBy ask s) (p.exportsBy ask' s) := by
  unfold exportsBy
  refine R.bind (explicitBy_rel R p hask s) fun e => R.bind (R.foldlM (fun t star => ?_) _ _) ?_
  · dsimp only
    split
    · exact R.bind (hask _) fun t => R.pure _
    · exact R.pure t
  · intro t
    split
    · split
      · exact R.bind (hask _) fun t => R.pure _
      · exact R.pure t
    · exact R.pure t

end Program

end ApiSurface
