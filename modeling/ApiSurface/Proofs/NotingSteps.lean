import ApiSurface.Extraction.Types
import ApiSurface.Proofs.Noting
import Mathlib.Tactic.Tauto
/-!
How descriptions are put together so that they note all names that they give: one rule for each way
of taking steps. A description that fails has noted what it needed up to there.
-/
namespace ApiSurface

namespace Describe

variable {α β : Type}

/-- What a step comes to where something is written. -/
def runAt (step : Describe α) (ctx : Context) (d : Describing) :
    Except DescribeError α × Describing :=
  (step ctx).run.run d

theorem runAt_bind (x : Describe α) (f : α → Describe β) (ctx : Context) (d : Describing) :
    (x >>= f).runAt ctx d = match x.runAt ctx d with
      | (.ok a, d') => (f a).runAt ctx d'
      | (.error e, d') => (.error e, d') := by
  have hread : (x >>= f) ctx = x ctx >>= fun a => f a ctx := rfl
  simp only [runAt, hread, ExceptT.run_bind, StateT.run_bind]
  rcases (x ctx).run.run d with ⟨r, d'⟩
  cases r <;> rfl

/-- The names in what a step came to; none if it failed. -/
def resultIds (ids : α → List SymbolId) : Except DescribeError α → List SymbolId
  | .ok a => ids a
  | .error _ => []

/-- A step of a description in a program that notes all names in its result, if some names are noted
before it. -/
def Noting (p : Program) (known : List SymbolId) (step : Describe α) (ids : α → List SymbolId) :
    Prop :=
  ∀ ctx d, ctx.program = p →
    Walk.Leads p known (resultIds ids (step.runAt ctx d).1) d.walk (step.runAt ctx d).2.walk

/-- Steps that note all names in their results, whatever is noted before them. -/
def NotesAll {γ : Type} (p : Program) (step : γ → Describe α) (ids : α → List SymbolId) : Prop :=
  ∀ known c, Noting p known (step c) ids

variable {p : Program} {known : List SymbolId} {ids : α → List SymbolId} {ids' : β → List SymbolId}

theorem Noting.mono {known' : List SymbolId} {ids' : α → List SymbolId} {step : Describe α}
    (h : Noting p known step ids) (hknown : known ⊆ known') (hids : ∀ a, ids' a ⊆ ids a ++ known') :
    Noting p known' step ids' := by
  intro ctx d hctx
  apply (h ctx d hctx).mono hknown
  cases (step.runAt ctx d).1 with
  | ok a => exact hids a
  | error e => exact List.nil_subset _

theorem Noting.weaken {known' : List SymbolId} {step : Describe α} (h : Noting p known step ids)
    (hknown : known ⊆ known') : Noting p known' step ids :=
  h.mono hknown fun _ => List.subset_append_left _ _

theorem Noting.pure {a : α} (h : ids a ⊆ known) : Noting p known (Pure.pure a) ids :=
  fun _ _ _ => .refl h

theorem Noting.bind {x : Describe α} {f : α → Describe β} (hx : Noting p known x ids)
    (hf : ∀ a, Noting p (ids a ++ known) (f a) ids') : Noting p known (x >>= f) ids' := by
  intro ctx d hctx
  have h := hx ctx d hctx
  rw [runAt_bind]
  rcases hr : x.runAt ctx d with ⟨r, d'⟩
  rw [hr] at h
  cases r with
  | ok a => exact h.trans (hf a ctx d' hctx)
  | error e => exact h.mono (List.Subset.refl _) (List.nil_subset _)

/-- What is made of one result names what the result names. -/
theorem Noting.wrap {f : α → β} {x : Describe α} (hx : Noting p known x ids)
    (hf : ∀ a, ids' (f a) = ids a) : Noting p known (do return f (← x)) ids' := by
  apply hx.bind
  intro a
  refine .pure ?_
  rw [hf]
  exact List.subset_append_left _ _

theorem Noting.map {f : α → β} {x : Describe α} (hx : Noting p known x ids)
    (hf : ∀ a, ids' (f a) ⊆ ids a ++ known) : Noting p known (f <$> x) ids' := by
  rw [map_eq_pure_bind]
  exact hx.bind fun a => .pure (hf a)

theorem Noting.mapM {f : α → Describe β} {l : List α}
    (hf : NotesAll p f ids') :
    Noting p known (l.mapM f) fun bs => bs.flatMap ids' := by
  induction l generalizing known with
  | nil => exact .pure (List.nil_subset _)
  | cons a l ih =>
    rw [List.mapM_cons]
    apply (hf known a).bind
    intro b
    apply ih.bind
    intro bs
    refine .pure ?_
    simp

theorem Noting.filterMapM {f : α → Describe (Option β)} {l : List α}
    (hf : NotesAll p f fun b => b.elim [] ids') :
    Noting p known (l.filterMapM f) fun bs => bs.flatMap ids' := by
  induction l generalizing known with
  | nil => exact .pure (List.nil_subset _)
  | cons a l ih =>
    rw [List.filterMapM_cons]
    apply (hf known a).bind
    intro b
    cases b with
    | none => exact ih
    | some b =>
      apply ih.bind
      intro bs
      refine .pure ?_
      simp

theorem Noting.foldlM {f : β → α → Describe β} {l : List α} {b : β}
    (hf : ∀ known b a, ids' b ⊆ known → Noting p known (f b a) ids') (hb : ids' b ⊆ known) :
    Noting p known (l.foldlM f b) ids' := by
  induction l generalizing known b with
  | nil => exact .pure hb
  | cons a l ih =>
    rw [List.foldlM_cons]
    apply (hf known b a hb).bind
    intro b'
    apply ih
    simp

theorem Noting.walking {f : Program → StateM Walk α} (h : Walk.Noting p known (f p) ids) :
    Noting p known (Describe.walking f) ids := by
  intro ctx d hctx
  subst hctx
  exact h d.walk

theorem Noting.attempt {x : Describe α} (h : Noting p known x ids) :
    Noting p known (Describe.attempt x) (resultIds ids) :=
  h

theorem Noting.outcome {r : Except DescribeError α} (h : resultIds ids r ⊆ known) :
    Noting p known (Describe.outcome r) ids :=
  fun _ _ _ => .refl h

theorem Noting.read : Noting p known (MonadReader.read : Describe Context) fun _ => [] :=
  fun _ _ _ => .refl (List.nil_subset _)

theorem Noting.get : Noting p known (MonadState.get : Describe Describing) fun _ => [] :=
  fun _ _ _ => .refl (List.nil_subset _)

/-- Type parameters come into scope and go out of it without a change to the graph. -/
theorem Noting.after_modify {f : Describing → Describing} {x : Describe α}
    (hf : ∀ d, (f d).walk = d.walk) (hx : Noting p known x ids) :
    Noting p known (do modify f; x) ids := by
  intro ctx d hctx
  have hrun : Describe.runAt (do modify f; x) ctx d = x.runAt ctx (f d) := rfl
  rw [hrun, ← hf d]
  exact hx ctx (f d) hctx

theorem Noting.withTypeParams {names : List String} {x : Describe α} (h : Noting p known x ids) :
    Noting p known (Describe.withTypeParams names x) ids := by
  unfold Describe.withTypeParams
  apply Noting.get.bind
  intro d
  apply Noting.after_modify
  · exact fun _ => rfl
  apply h.attempt.bind
  intro r
  apply Noting.after_modify
  · exact fun _ => rfl
  exact .outcome (List.subset_append_left _ _)

/-- Two steps with more type parameters in scope, of which the second is taken even if the first one
fails. -/
theorem Noting.both {names : List String} {x : Describe α} {y : Describe β}
    (hx : Noting p known x ids) (hy : Noting p known y ids') :
    Noting p known (Describe.withTypeParams names do
      return (← Describe.attempt x, ← Describe.attempt y))
      fun r => resultIds ids r.1 ++ resultIds ids' r.2 := by
  apply Noting.withTypeParams
  apply hx.attempt.bind
  intro r
  apply (hy.weaken (List.subset_append_right _ _)).attempt.bind
  intro r'
  refine .pure fun id hid => ?_
  simp only [List.mem_append] at hid ⊢
  tauto

/-- Going on with what two steps came to, if neither failed. -/
theorem Noting.after_both {γ : Type} {ids'' : γ → List SymbolId} {r : Except DescribeError α}
    {r' : Except DescribeError β} {f : α → β → Describe γ}
    (hf : ∀ a b, Noting p (ids' b ++ (ids a ++ known)) (f a b) ids'') :
    Noting p ((resultIds ids r ++ resultIds ids' r') ++ known) (do
      let a ← Describe.outcome r
      let b ← Describe.outcome r'
      f a b) ids'' := by
  have hr : resultIds ids r ⊆ (resultIds ids r ++ resultIds ids' r') ++ known := by
    rw [List.append_assoc]
    exact List.subset_append_left _ _
  apply (Noting.outcome hr).bind
  intro a
  have hr' : resultIds ids' r' ⊆ ids a ++ ((resultIds ids r ++ resultIds ids' r') ++ known) := by
    intro id hid
    simp only [List.mem_append]
    tauto
  apply (Noting.outcome hr').bind
  intro b
  apply (hf a b).weaken
  intro id hid
  simp only [List.mem_append] at hid ⊢
  tauto

theorem Noting.inDeclaration {file : FileIndex} {i : DeclIndex} {names : List String}
    {x : Describe α} (h : Noting p known x ids) :
    Noting p known (Describe.inDeclaration file i names x) ids := by
  apply Noting.after_modify
  · exact fun _ => rfl
  intro ctx d hctx
  exact h _ d hctx

theorem Noting.isTypeParam (name : String) :
    Noting p known (Describe.isTypeParam name) fun _ => [] :=
  Noting.get.bind fun _ => .pure (List.nil_subset _)

theorem Noting.written (span : Span) : Noting p known (Describe.written span) fun _ => [] :=
  Noting.read.bind fun _ => .pure (List.nil_subset _)

theorem Noting.entity (parts : List String) :
    Noting p known (Describe.entity parts) fun id => [id] :=
  Noting.read.bind fun _ => .walking (Walk.referEntity_noting _ _)

theorem Noting.optional {f : α → Describe β} (hf : NotesAll p f ids') (a : Option α) :
    Noting p known (Describe.optional f a) fun b => b.elim [] ids' := by
  cases a with
  | none => exact .pure (List.nil_subset _)
  | some a => exact (hf known a).map fun b => List.subset_append_left _ _

end Describe

end ApiSurface
