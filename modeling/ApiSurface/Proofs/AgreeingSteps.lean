import ApiSurface.Proofs.NotingSteps
/-!
Descriptions that agree: from states that know the same of the graph they come to the same and leave
the same known, whatever type parameters the second one finds in scope. One rule for each way of
taking steps.
-/
namespace ApiSurface

namespace Describe

variable {α β : Type}

/-- Two descriptions agree where the type parameters in scope are as `P` says, and leave them so. -/
def Agrees (P : List String → Prop) (x y : Describe α) : Prop :=
  ∀ ctx d e, P d.typeParams → e.walk = d.walk →
    (y.runAt ctx e).1 = (x.runAt ctx d).1 ∧ (y.runAt ctx e).2.walk = (x.runAt ctx d).2.walk ∧
      P (x.runAt ctx d).2.typeParams

variable {P : List String → Prop}

theorem Agrees.pure (a : α) : Agrees P (Pure.pure a : Describe α) (Pure.pure a) :=
  fun _ _ _ hd hw => ⟨rfl, hw, hd⟩

theorem Agrees.bind {x y : Describe α} {f g : α → Describe β} (hx : Agrees P x y)
    (hf : ∀ a, Agrees P (f a) (g a)) : Agrees P (x >>= f) (y >>= g) := by
  intro ctx d e hd hw
  obtain ⟨hr, hw', hd'⟩ := hx ctx d e hd hw
  rw [runAt_bind, runAt_bind]
  rcases hxr : x.runAt ctx d with ⟨r, d'⟩
  rcases hyr : y.runAt ctx e with ⟨r', e'⟩
  rw [hxr] at hr hw' hd'
  rw [hyr] at hr hw'
  obtain rfl : r' = r := hr
  cases r' with
  | ok a => exact hf a ctx d' e' hd' hw'
  | error err => exact ⟨rfl, hw', hd'⟩

theorem Agrees.map {f : α → β} {x y : Describe α} (h : Agrees P x y) :
    Agrees P (f <$> x) (f <$> y) := by
  rw [map_eq_pure_bind, map_eq_pure_bind]
  exact h.bind fun a => .pure (f a)

theorem Agrees.mapM {f g : α → Describe β} {l : List α} (h : ∀ a ∈ l, Agrees P (f a) (g a)) :
    Agrees P (l.mapM f) (l.mapM g) := by
  induction l with
  | nil => exact .pure []
  | cons a l ih =>
    rw [List.mapM_cons, List.mapM_cons]
    apply (h a List.mem_cons_self).bind
    intro b
    apply (ih fun c hc => h c (List.mem_cons_of_mem a hc)).bind
    exact fun bs => .pure (b :: bs)

theorem Agrees.foldlM {f g : β → α → Describe β} {l : List α}
    (h : ∀ b, ∀ a ∈ l, Agrees P (f b a) (g b a)) (b : β) :
    Agrees P (l.foldlM f b) (l.foldlM g b) := by
  induction l generalizing b with
  | nil => exact .pure b
  | cons a l ih =>
    rw [List.foldlM_cons, List.foldlM_cons]
    apply (h b a List.mem_cons_self).bind
    exact ih fun c d hd => h c d (List.mem_cons_of_mem a hd)

theorem Agrees.read : Agrees P (MonadReader.read : Describe Context) MonadReader.read :=
  fun _ _ _ hd hw => ⟨rfl, hw, hd⟩

theorem Agrees.walking (f : Program → StateM Walk α) :
    Agrees P (Describe.walking f) (Describe.walking f) := by
  intro ctx d e hd hw
  have hrun (d : Describing) : (Describe.walking f).runAt ctx d =
      (.ok ((f ctx.program).run d.walk).1, { d with walk := ((f ctx.program).run d.walk).2 }) := rfl
  rw [hrun, hrun, hw]
  exact ⟨rfl, rfl, hd⟩

theorem Agrees.attempt {x y : Describe α} (h : Agrees P x y) :
    Agrees P (Describe.attempt x) (Describe.attempt y) := by
  intro ctx d e hd hw
  obtain ⟨hr, hw', hd'⟩ := h ctx d e hd hw
  exact ⟨congrArg Except.ok hr, hw', hd'⟩

theorem Agrees.outcome (r : Except DescribeError α) :
    Agrees P (Describe.outcome r) (Describe.outcome r) :=
  fun _ _ _ hd hw => ⟨rfl, hw, hd⟩

theorem withTypeParams_runAt (names : List String) (x : Describe α) (ctx : Context)
    (d : Describing) :
    (Describe.withTypeParams names x).runAt ctx d =
      let r := x.runAt ctx { d with typeParams := d.typeParams ++ names }
      (r.1, { r.2 with typeParams := r.2.typeParams.take d.typeParams.length }) := rfl

/-- More type parameters are in scope for the first description only. -/
theorem Agrees.scoped {names more : List String} {x y : Describe α}
    (h : Agrees (· = names ++ more) x y) :
    Agrees (· = names) (Describe.withTypeParams more x) y := by
  intro ctx d e hd hw
  subst hd
  obtain ⟨hr, hw', hd'⟩ := h ctx { d with typeParams := d.typeParams ++ more } e rfl hw
  rw [withTypeParams_runAt]
  refine ⟨hr, hw', ?_⟩
  dsimp only
  rw [hd', List.take_left]

/-- More type parameters are in scope for both descriptions. -/
theorem Agrees.withTypeParams {names more : List String} {x y : Describe α}
    (h : Agrees (· = names ++ more) x y) :
    Agrees (· = names) (Describe.withTypeParams more x) (Describe.withTypeParams more y) := by
  intro ctx d e hd hw
  rw [withTypeParams_runAt more y]
  exact h.scoped ctx d { e with typeParams := e.typeParams ++ more } hd hw

/-- A declaration is described with its own type parameters only, whatever was in scope before. -/
theorem Agrees.inDeclaration {names : List String} {x y : Describe α} (file : FileIndex)
    (i : DeclIndex) (more : List String) (h : Agrees (· = names) x y) :
    Agrees (fun _ => True) (Describe.inDeclaration file i names x)
      (Describe.inDeclaration file i more y) := by
  intro ctx d e _ hw
  obtain ⟨hr, hw', -⟩ :=
    h { ctx with scope := (ctx.program.source file).scopeOf file i }
      { d with typeParams := names } { e with typeParams := more } rfl hw
  exact ⟨hr, hw', trivial⟩

theorem Agrees.written (span : Span) : Agrees P (Describe.written span) (Describe.written span) :=
  Agrees.read.bind fun _ => .pure _

theorem Agrees.entity (parts : List String) :
    Agrees P (Describe.entity parts) (Describe.entity parts) :=
  Agrees.read.bind fun _ => .walking _

theorem Agrees.optional {f g : α → Describe β} {a : Option α}
    (h : ∀ b ∈ a.toList, Agrees P (f b) (g b)) :
    Agrees P (Describe.optional f a) (Describe.optional g a) := by
  cases a with
  | none => exact .pure none
  | some a => exact (h a (by simp)).map

end Describe

end ApiSurface
