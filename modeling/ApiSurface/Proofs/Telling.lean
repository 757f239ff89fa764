import ApiSurface.Proofs.NotingSteps
import Mathlib.Data.Set.Basic
import Mathlib.Tactic.Tauto
/-!
What a description does not tell. A step tells all when nothing is mentioned on the way that its
result does not name. The rules say how steps are put together so that they tell all: what was
mentioned by the steps before is owed by those that come after, until a result names it. A step that
fails owes nothing more.
-/
namespace ApiSurface

/-- What is owed and what a result names. -/
def told {α : Type} (owed : Set SymbolId) (ids : α → List SymbolId) (a : α) : Set SymbolId :=
  {id | id ∈ owed ∨ id ∈ ids a}

theorem told_subset {α : Type} {owed named : Set SymbolId} {ids : α → List SymbolId} {a : α}
    (howed : owed ⊆ named) (hids : ∀ id ∈ ids a, id ∈ named) : told owed ids a ⊆ named := by
  rintro id (hid | hid)
  · exact howed hid
  · exact hids id hid

@[simp] theorem mem_told {α : Type} {owed : Set SymbolId} {ids : α → List SymbolId} {a : α}
    {id : SymbolId} : id ∈ told owed ids a ↔ id ∈ owed ∨ id ∈ ids a :=
  Iff.rfl

theorem subset_told {α : Type} (owed : Set SymbolId) (ids : α → List SymbolId) (a : α) :
    owed ⊆ told owed ids a :=
  fun _ => Or.inl

namespace Walk

/-- Since a first state nothing was mentioned but some names, and that by the symbol that is being
described. -/
structure MentionsOnly (first : Walk) (named : Set SymbolId) (w : Walk) : Prop where
  current : w.current = first.current
  calm : w.endless = false → first.endless = false
  memory : first.memory.Within w.memory
  mentions : ∀ id b, b ∈ mentioners w.references id →
    b ∈ mentioners first.references id ∨ first.current = some b ∧ id ∈ named

variable {first w : Walk} {named named' : Set SymbolId}

theorem MentionsOnly.refl (w : Walk) (named : Set SymbolId) : w.MentionsOnly named w :=
  ⟨rfl, fun h => h, .refl _, fun _ _ => Or.inl⟩

theorem MentionsOnly.mono (h : first.MentionsOnly named w) (hsub : named ⊆ named') :
    first.MentionsOnly named' w where
  current := h.current
  calm := h.calm
  memory := h.memory
  mentions id b hb := (h.mentions id b hb).imp_right fun ⟨hc, hid⟩ => ⟨hc, hsub hid⟩

theorem MentionsOnly.mention (h : first.MentionsOnly named w) {id : SymbolId} (hid : id ∈ named) :
    first.MentionsOnly named (w.mention id) where
  current := (mention_current w id).trans h.current
  calm := by
    rw [mention_endless]
    exact h.calm
  memory := by
    rw [mention_memory]
    exact h.memory
  mentions other b hb := by
    rcases mem_mentioners_mention.mp hb with hb | ⟨rfl, hcurrent, -⟩
    · exact h.mentions other b hb
    · exact Or.inr ⟨h.current ▸ hcurrent, hid⟩

theorem MentionsOnly.enqueue (h : first.MentionsOnly named w) (s : SymbolIndex) :
    first.MentionsOnly named (w.enqueue s) where
  current := (enqueue_current w s).trans h.current
  calm := by
    rw [enqueue_endless]
    exact h.calm
  memory := by
    rw [enqueue_memory]
    exact h.memory
  mentions := by
    rw [enqueue_references]
    exact h.mentions

/-- A step after which nothing but its result was mentioned, if nothing but what is owed was
mentioned before it. -/
def Telling {α : Type} (owed : Set SymbolId) (step : StateM Walk α) (names : α → Set SymbolId) :
    Prop :=
  ∀ first w : Walk, first.MentionsOnly owed w →
    first.MentionsOnly (names (step.run w).1) (step.run w).2

section

variable {α β : Type} {owed : Set SymbolId} {names : α → Set SymbolId} {names' : β → Set SymbolId}

theorem Telling.pure {a : α} (h : owed ⊆ names a) : Telling owed (Pure.pure a) names :=
  fun _ _ hw => hw.mono h

theorem Telling.bind {x : StateM Walk α} {f : α → StateM Walk β} (hx : Telling owed x names)
    (hf : ∀ a, Telling (names a) (f a) names') : Telling owed (x >>= f) names' :=
  fun first w hw => hf _ first _ (hx first w hw)

theorem Telling.ask {q : Program.Query α}
    (hq : ∀ memory : Program.Memory, memory.Within (q memory).2) :
    Telling owed (Walk.ask q) fun _ => owed :=
  fun _ w hw => ⟨hw.current, hw.calm, hw.memory.trans (hq w.memory), hw.mentions⟩

theorem Telling.memory_within {x : StateM Walk α} (hx : Telling ∅ x names) (w : Walk) :
    w.memory.Within (x.run w).2.memory :=
  (hx w w (.refl w ∅)).memory

end

variable {p : Program} {owed : Set SymbolId}

theorem referExternal_telling (e : ExternalSymbol) :
    Telling owed (referExternal e) (told owed fun id => [id]) := by
  intro first w hw
  have hm : first.MentionsOnly (told owed (fun id => [id]) e.id) (w.mention e.id) :=
    (hw.mono (subset_told owed _ e.id)).mention (Or.inr (List.mem_singleton_self _))
  exact ⟨hm.current, hm.calm, hm.memory, hm.mentions⟩

/-- However a row of imports ends, only the name that is given is mentioned. -/
theorem referWithin_telling (n : ℕ) (s : SymbolIndex) :
    Telling owed (referWithin p n s) (told owed fun id => [id]) := by
  induction n generalizing s with
  | zero =>
    intro first w hw
    have hendless : first.MentionsOnly owed { w with endless := true } :=
      ⟨hw.current, fun h => absurd h (by simp), hw.memory, hw.mentions⟩
    exact referExternal_telling _ first _ hendless
  | succ n ih =>
    rw [referWithin]
    split
    · apply (Telling.ask (Program.resolve_within s)).bind
      intro r
      split
      · split
        · exact referExternal_telling _
        · exact ih _
      · exact referExternal_telling _
      · exact referExternal_telling _
    · split
      · intro first w hw
        exact ((hw.mono (subset_told owed _ _)).mention
          (Or.inr (List.mem_singleton_self _))).enqueue s
      · exact referExternal_telling _

theorem refer_telling (r : Resolution) : Telling owed (refer p r) (told owed fun id => [id]) := by
  cases r with
  | symbol s => exact referWithin_telling _ s
  | unresolved specifier name => exact referExternal_telling _

theorem referEntity_telling (scope : Site) (parts : List String) :
    Telling owed (referEntity p scope parts) (told owed fun id => [id]) := by
  apply (Telling.ask (Program.entity_within scope parts)).bind
  intro r
  cases r with
  | none => exact referExternal_telling _
  | some r => exact refer_telling r

end Walk

namespace Describe

variable {α β γ : Type}

/-- What a step came to may name anything if it failed. -/
def resultNames (names : α → Set SymbolId) : Except DescribeError α → Set SymbolId
  | .ok a => names a
  | .error _ => Set.univ

/-- A step of a description in a program that tells all: nothing but its result was mentioned after
it, if nothing but what is owed was mentioned before it. -/
def Telling (p : Program) (owed : Set SymbolId) (step : Describe α) (names : α → Set SymbolId) :
    Prop :=
  ∀ (first : Walk) (ctx : Context) (d : Describing), ctx.program = p →
    first.MentionsOnly owed d.walk →
      first.MentionsOnly (resultNames names (step.runAt ctx d).1) (step.runAt ctx d).2.walk

/-- Steps that tell all, whatever is owed before them. -/
def TellAll (p : Program) (step : γ → Describe α) (ids : α → List SymbolId) : Prop :=
  ∀ owed c, Telling p owed (step c) (told owed ids)

variable {p : Program} {owed : Set SymbolId} {names : α → Set SymbolId}
  {names' : β → Set SymbolId}

theorem resultNames_mono {names' : α → Set SymbolId} (h : ∀ a, names a ⊆ names' a)
    (r : Except DescribeError α) : resultNames names r ⊆ resultNames names' r := by
  cases r with
  | ok a => exact h a
  | error e => exact Set.Subset.rfl

theorem Telling.mono {names' : α → Set SymbolId} {step : Describe α}
    (h : Telling p owed step names) (hnames : ∀ a, names a ⊆ names' a) :
    Telling p owed step names' :=
  fun first ctx d hctx hd => (h first ctx d hctx hd).mono (resultNames_mono hnames _)

theorem Telling.weaken {owed' : Set SymbolId} {step : Describe α} (howed : owed ⊆ owed')
    (h : Telling p owed' step names) : Telling p owed step names :=
  fun first ctx d hctx hd => h first ctx d hctx (hd.mono howed)

theorem Telling.pure {a : α} (h : owed ⊆ names a) : Telling p owed (Pure.pure a) names :=
  fun _ _ _ _ hd => hd.mono h

theorem Telling.bind {x : Describe α} {f : α → Describe β} (hx : Telling p owed x names)
    (hf : ∀ a, Telling p (names a) (f a) names') : Telling p owed (x >>= f) names' := by
  intro first ctx d hctx hd
  have h := hx first ctx d hctx hd
  rw [runAt_bind]
  rcases hr : x.runAt ctx d with ⟨r, d'⟩
  rw [hr] at h
  cases r with
  | ok a => exact hf a first ctx d' hctx h
  | error e => exact h

theorem Telling.map {f : α → β} {x : Describe α} (hx : Telling p owed x names)
    (hf : ∀ a, names a ⊆ names' (f a)) : Telling p owed (f <$> x) names' := by
  rw [map_eq_pure_bind]
  exact hx.bind fun a => .pure (hf a)

section

variable {ids : α → List SymbolId} {ids' : β → List SymbolId}

/-- What is made of one result tells all if it names what the result names. -/
theorem Telling.wrap {f : α → β} {x : Describe α} (hx : Telling p owed x (told owed ids))
    (hf : ∀ a, ids' (f a) = ids a) : Telling p owed (do return f (← x)) (told owed ids') := by
  apply hx.bind
  intro a
  refine .pure (told_subset (subset_told _ _ _) fun id hid => ?_)
  rw [← hf] at hid
  exact Or.inr hid

theorem Telling.mapM {f : α → Describe β} {l : List α} (hf : TellAll p f ids') :
    Telling p owed (l.mapM f) (told owed fun bs => bs.flatMap ids') := by
  induction l generalizing owed with
  | nil => exact .pure (subset_told _ _ _)
  | cons a l ih =>
    rw [List.mapM_cons]
    apply (hf owed a).bind
    intro b
    apply ih.bind
    intro bs
    refine .pure fun id hid => ?_
    simp only [mem_told, List.flatMap_cons, List.mem_append] at hid ⊢
    tauto

theorem Telling.filterMapM {f : α → Describe (Option β)} {l : List α}
    (hf : TellAll p f fun b => b.elim [] ids') :
    Telling p owed (l.filterMapM f) (told owed fun bs => bs.flatMap ids') := by
  induction l generalizing owed with
  | nil => exact .pure (subset_told _ _ _)
  | cons a l ih =>
    rw [List.filterMapM_cons]
    apply (hf owed a).bind
    intro b
    cases b with
    | none =>
      refine ih.mono fun bs id hid => ?_
      simpa using hid
    | some b =>
      apply ih.bind
      intro bs
      refine .pure fun id hid => ?_
      simp only [mem_told, Option.elim, List.flatMap_cons, List.mem_append] at hid ⊢
      tauto

/-- Going through a list, each step names what was named before it. -/
theorem Telling.foldlM {f : β → α → Describe β} {l : List α} {b : β}
    (hf : ∀ b a, Telling p (told owed ids' b) (f b a) (told owed ids')) :
    Telling p (told owed ids' b) (l.foldlM f b) (told owed ids') := by
  induction l generalizing b with
  | nil => exact .pure Set.Subset.rfl
  | cons a l ih =>
    rw [List.foldlM_cons]
    exact (hf b a).bind fun b' => ih

theorem Telling.optional {f : α → Describe β} (hf : TellAll p f ids') (a : Option α) :
    Telling p owed (Describe.optional f a) (told owed fun b => b.elim [] ids') := by
  cases a with
  | none => exact .pure (subset_told _ _ _)
  | some a => exact (hf owed a).map fun b => Set.Subset.rfl

end

theorem Telling.walking {f : Program → StateM Walk α} (h : Walk.Telling owed (f p) names) :
    Telling p owed (Describe.walking f) names := by
  intro first ctx d hctx hd
  subst hctx
  exact h first d.walk hd

theorem Telling.attempt {x : Describe α} (h : Telling p owed x names) :
    Telling p owed (Describe.attempt x) (resultNames names) :=
  h

theorem Telling.outcome {r : Except DescribeError α} (h : owed ⊆ resultNames names r) :
    Telling p owed (Describe.outcome r) names :=
  fun _ _ _ _ hd => hd.mono h

theorem Telling.read : Telling p owed (MonadReader.read : Describe Context) fun _ => owed :=
  fun _ _ _ _ hd => hd

theorem Telling.get : Telling p owed (MonadState.get : Describe Describing) fun _ => owed :=
  fun _ _ _ _ hd => hd

theorem Telling.after_modify {f : Describing → Describing} {x : Describe α}
    (hf : ∀ d, (f d).walk = d.walk) (hx : Telling p owed x names) :
    Telling p owed (do modify f; x) names := by
  intro first ctx d hctx hd
  have hrun : Describe.runAt (do modify f; x) ctx d = x.runAt ctx (f d) := rfl
  rw [hrun]
  exact hx first ctx (f d) hctx (by rwa [hf d])

theorem Telling.withTypeParams {params : List String} {x : Describe α}
    (h : Telling p owed x names) : Telling p owed (Describe.withTypeParams params x) names := by
  unfold Describe.withTypeParams
  apply Telling.get.bind
  intro d
  apply Telling.after_modify
  · exact fun _ => rfl
  apply h.attempt.bind
  intro r
  apply Telling.after_modify
  · exact fun _ => rfl
  exact .outcome Set.Subset.rfl

section

variable {ids : α → List SymbolId} {ids' : β → List SymbolId}

/-- Two steps with more type parameters in scope, of which the second is taken even if the first one
fails. -/
theorem Telling.both {params : List String} {x : Describe α} {y : Describe β}
    (hx : ∀ owed, Telling p owed x (told owed ids))
    (hy : ∀ owed, Telling p owed y (told owed ids')) :
    Telling p owed (Describe.withTypeParams params do
      return (← Describe.attempt x, ← Describe.attempt y))
      fun r => resultNames (fun a => resultNames (told (told owed ids a) ids') r.2) r.1 := by
  apply Telling.withTypeParams
  apply (hx owed).attempt.bind
  intro r
  apply (hy _).attempt.bind
  intro r'
  refine .pure ?_
  cases r with
  | ok a => exact Set.Subset.rfl
  | error e => exact Set.subset_univ _

/-- Going on with what two steps came to, if neither failed. -/
theorem Telling.after_both {named : Set SymbolId} {names : γ → Set SymbolId}
    {r : Except DescribeError α} {r' : Except DescribeError β} {f : α → β → Describe γ}
    (hf : ∀ a b, Telling p (told (told named ids a) ids' b) (f a b) names) :
    Telling p (resultNames (fun a => resultNames (told (told named ids a) ids') r') r) (do
      let a ← Describe.outcome r
      let b ← Describe.outcome r'
      f a b) names := by
  apply (Telling.outcome Set.Subset.rfl).bind
  intro a
  apply (Telling.outcome Set.Subset.rfl).bind
  intro b
  exact hf a b

end

theorem Telling.inDeclaration {file : FileIndex} {i : DeclIndex} {params : List String}
    {x : Describe α} (h : Telling p owed x names) :
    Telling p owed (Describe.inDeclaration file i params x) names := by
  apply Telling.after_modify
  · exact fun _ => rfl
  intro first ctx d hctx hd
  exact h first _ d hctx hd

theorem Telling.isTypeParam (name : String) :
    Telling p owed (Describe.isTypeParam name) fun _ => owed :=
  Telling.get.bind fun _ => .pure Set.Subset.rfl

theorem Telling.written (span : Span) : Telling p owed (Describe.written span) fun _ => owed :=
  Telling.read.bind fun _ => .pure Set.Subset.rfl

theorem Telling.entity (parts : List String) :
    Telling p owed (Describe.entity parts) (told owed fun id => [id]) :=
  Telling.read.bind fun _ => .walking (Walk.referEntity_telling _ _)

end Describe

end ApiSurface
