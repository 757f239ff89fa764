import ApiSurface.Proofs.FoundDocuments
import ApiSurface.Proofs.GrownTables
import ApiSurface.Proofs.Speculation
/-!
The declarations that a statement makes carry the documentation found before its first token. That a
production makes declarations with the documentation it is given follows from its parts, so instances
find it.
-/
namespace ApiSurface

namespace Parse

variable {α β : Type}

/-- Values that list declarations. -/
class Listing (α : Type) where
  listed : α → List DeclIndex

open Listing (listed)

instance : Listing DeclIndex := ⟨fun i => [i]⟩

instance : Listing (List DeclIndex) := ⟨id⟩

instance : Listing Statement := ⟨fun statement => declaredIn [statement]⟩

instance : Listing (List Statement) := ⟨declaredIn⟩

instance [Listing α] : Listing (Option α) := ⟨fun o => o.elim [] listed⟩

/-- What a parser finds lists only some declarations. -/
class Lists [Listing α] (indices : List DeclIndex) (p : Parse α) : Prop where
  subset : ∀ (c : Setting) (s : ParseState), listed (p c s).1 ⊆ indices

/-- The declarations that a parser lists are in the table then, with some documentation. -/
class Carries [Listing α] (doc : Option String) (p : Parse α) : Prop where
  carries : ∀ (c : Setting) (s : ParseState), ∀ i ∈ listed (p c s).1,
    ∃ d, (p c s).2.declarations[i]? = some d ∧ d.doc = doc

namespace Lists

instance [Listing β] (indices : List DeclIndex) (p : Parse α) (f : α → Parse β)
    [hf : ∀ a, Lists indices (f a)] : Lists indices (p >>= f) := ⟨fun c _ => (hf _).subset c _⟩

instance [Listing α] (indices : List DeclIndex) (b : Prop) [Decidable b] (p q : Parse α)
    [hp : Lists indices p] [hq : Lists indices q] : Lists indices (if b then p else q) := by
  split <;> assumption

instance (i : DeclIndex) : Lists (listed i) (pure i : Parse DeclIndex) :=
  ⟨fun _ _ => List.Subset.refl _⟩

instance (i : DeclIndex) : Lists (listed i) (pure [i] : Parse (List DeclIndex)) :=
  ⟨fun _ _ => List.Subset.refl _⟩

instance (i : DeclIndex) : Lists (listed i) (pure (some [Statement.declaration i])) :=
  ⟨fun _ _ => List.Subset.refl _⟩

instance (i : DeclIndex) : Lists (listed i) (pure (Statement.declaration i)) :=
  ⟨fun _ _ => List.Subset.refl _⟩

instance (indices : List DeclIndex) : Lists (listed indices) (pure indices) :=
  ⟨fun _ _ => List.Subset.refl _⟩

instance (indices : List DeclIndex) :
    Lists (listed indices) (pure (some (indices.map Statement.declaration))) :=
  ⟨fun _ _ _ hi => (declaredIn_declarations indices).symm ▸ hi⟩

instance (statement : Statement) : Lists (listed statement) (pure [statement]) :=
  ⟨fun _ _ => List.Subset.refl _⟩

instance (statements : List Statement) : Lists (listed statements) (pure statements) :=
  ⟨fun _ _ => List.Subset.refl _⟩

end Lists

namespace Carries

variable {doc : Option String}

/-- What comes behind the declarations lists no others. -/
theorem andThen [Listing α] [Listing β] {p : Parse α} {f : α → Parse β} (hp : Carries doc p)
    (hrun : ∀ a, Running (f a)) (hf : ∀ a, Lists (listed a) (f a)) : Carries doc (p >>= f) := by
  refine ⟨fun c s i hi => ?_⟩
  obtain ⟨d, hd, hdoc⟩ := hp.carries c s i ((hf (p c s).1).subset c (p c s).2 hi)
  obtain ⟨span, shape, hkept⟩ := ((hrun (p c s).1).runs c (p c s).2).keeps i d hd
  exact ⟨_, hkept, hdoc⟩

instance [Listing α] [Listing β] (p : Parse α) (f : α → Parse β) [hp : Carries doc p]
    [hrun : ∀ a, Running (f a)] [hf : ∀ a, Lists (listed a) (f a)] : Carries doc (p >>= f) :=
  hp.andThen hrun hf

/-- What comes before the declarations does not matter. -/
theorem after [Listing β] {p : Parse α} {f : α → Parse β} (hf : ∀ a, Carries doc (f a)) :
    Carries doc (p >>= f) := ⟨fun c _ => (hf _).carries c _⟩

instance [Listing β] (p : Parse α) (f : α → Parse β) [hf : ∀ a, Carries doc (f a)] :
    Carries doc (p >>= f) := after hf

/-- Declarations, or what is found without them. -/
instance (priority := low) [Listing α] [Listing β] (p : Parse (Option α)) (f : Option α → Parse β)
    [hp : Carries doc p] [hrun : ∀ a, Running (f (some a))]
    [hsome : ∀ a, Lists (listed a) (f (some a))] [hnone : Carries doc (f none)] :
    Carries doc (p >>= f) := by
  refine ⟨fun c s i hi => ?_⟩
  have hcarried := hp.carries c s
  show ∃ d, (f (p c s).1 c (p c s).2).2.declarations[i]? = some d ∧ d.doc = doc
  have hi : i ∈ listed (f (p c s).1 c (p c s).2).1 := hi
  generalize hfound : (p c s).1 = found at hi hcarried ⊢
  cases found with
  | none => exact hnone.carries c _ i hi
  | some a =>
    obtain ⟨d, hd, hdoc⟩ := hcarried i ((hsome a).subset c _ hi)
    obtain ⟨span, shape, hkept⟩ := ((hrun a).runs c (p c s).2).keeps i d hd
    exact ⟨_, hkept, hdoc⟩

instance [Listing α] (b : Prop) [Decidable b] (p q : Parse α) [hp : Carries doc p]
    [hq : Carries doc q] : Carries doc (if b then p else q) := by split <;> assumption

instance [Listing α] : Carries doc (pure none : Parse (Option α)) := ⟨fun _ _ _ hi => absurd hi List.not_mem_nil⟩

instance : Carries doc (pure [] : Parse (List Statement)) := ⟨fun _ _ _ hi => absurd hi List.not_mem_nil⟩

instance : Carries doc (pure [] : Parse (List DeclIndex)) := ⟨fun _ _ _ hi => absurd hi List.not_mem_nil⟩

instance (priority := low) (p : Parse Statement) [hp : Productions.Undeclaring p] :
    Carries doc p := by
  refine ⟨fun c s i hi => ?_⟩
  have hno := hp.ne c s i
  generalize (p c s).1 = statement at hi hno
  cases statement with
  | declaration j =>
    rw [List.mem_singleton.mp hi] at hno
    exact absurd rfl hno
  | _ => exact absurd hi List.not_mem_nil

instance (name : Ident) (span : Span) (modifiers : Modifiers) (shape : DeclarationShape) :
    Carries doc (declare name span modifiers doc shape) := by
  refine ⟨fun c s i hi => ?_⟩
  rw [List.mem_singleton.mp hi]
  exact ⟨_, Array.getElem?_push_size, rfl⟩

/-- Declarations that are gathered. -/
theorem collect {step : Parse (List DeclIndex × Bool)} (hrun : Running step)
    (hstep : ∀ (c : Setting) (s : ParseState), ∀ i ∈ (step c s).1.1,
      ∃ d, (step c s).2.declarations[i]? = some d ∧ d.doc = doc) : Carries doc (collect step) := by
  refine ⟨fun c s => ?_⟩
  refine collect_yields
    (I := fun (is : List DeclIndex) s => ∀ i ∈ is,
      ∃ d : Declaration, s.declarations[i]? = some d ∧ d.doc = doc)
    (R := fun (is : List DeclIndex) s => ∀ i ∈ is,
      ∃ d : Declaration, s.declarations[i]? = some d ∧ d.doc = doc)
    (fun is s h => ?_) (fun _ _ h => h) (fun _ _ h => h) fun _ hi => absurd hi List.not_mem_nil
  have hall : ∀ i ∈ is ++ (step c s).1.1,
      ∃ d, (step c s).2.declarations[i]? = some d ∧ d.doc = doc := by
    intro i hi
    rcases List.mem_append.mp hi with hi | hi
    · obtain ⟨d, hd, hdoc⟩ := h i hi
      obtain ⟨span, shape, hkept⟩ := (hrun.runs c s).keeps i d hd
      exact ⟨_, hkept, hdoc⟩
    · exact hstep c s i hi
  exact ⟨hall, fun _ => hall⟩

end Carries

end Parse

namespace Productions

open Parse

variable (g : Productions) [hquiet : Quiet g] [hrun : Running g] (start : ℕ) (doc : Option String)
  (modifiers : Modifiers)

-- a production of many parts has an instance of many parts
set_option synthInstance.maxSize 10000

/-! ### Declarations -/

instance : Carries doc (g.functionDeclaration start doc modifiers) := by
  unfold functionDeclaration
  infer_instance

instance (kind : VariableKind) : Carries doc (g.declarator kind doc modifiers) := by
  unfold declarator
  infer_instance

instance : Carries doc (g.variableStatement doc modifiers) := by
  unfold variableStatement
  have hcollect (kind : VariableKind) : Carries doc (collect do
      let new ← g.declarator kind doc modifiers
      return (new, ← accept .comma)) := by
    refine .collect inferInstance fun c s i hi => ?_
    have hnew : Carries doc (g.declarator kind doc modifiers) := inferInstance
    obtain ⟨d, hd, hdoc⟩ := hnew.carries c s i hi
    have haccept : Parse.Running (accept .comma) := inferInstance
    obtain ⟨span, shape, hkept⟩ := (haccept.runs c _).keeps i d hd
    exact ⟨_, hkept, hdoc⟩
  infer_instance

instance : Carries doc (g.typeAlias start doc modifiers) := by
  unfold typeAlias
  infer_instance

instance : Carries doc (g.interfaceDeclaration start doc modifiers) := by
  unfold interfaceDeclaration
  infer_instance

instance : Carries doc (g.classDeclaration start doc modifiers) := by
  unfold classDeclaration
  infer_instance

instance : Carries doc (g.enumDeclaration start doc modifiers) := by
  unfold enumDeclaration
  infer_instance

instance (name : Ident) (naming : ModuleNaming) :
    Carries doc (g.moduleBody start doc modifiers name naming) := by
  unfold moduleBody
  infer_instance

instance : Carries doc (g.moduleProduction start doc modifiers) := by
  unfold moduleProduction
  infer_instance

instance : Carries doc (g.declaration? start doc modifiers) := by
  unfold declaration?
  dsimp only
  refine .after fun isWord => ?_
  split
  · infer_instance
  · refine .after fun t => ?_
    split <;> infer_instance

/-! ### Statements -/

instance (keyword : Span) : Carries doc (g.exportDefault start doc keyword) := by
  unfold exportDefault
  infer_instance

instance (keyword : Span) : Carries doc (g.exportStatement start doc keyword) := by
  unfold exportStatement
  dsimp only
  repeat' first | infer_instance | refine .after fun _ => ?_ | split

/-- What a statement declares carries the documentation found before its first token. -/
theorem statement_carries (c : Setting) (s : ParseState) :
    ∀ i ∈ declaredIn (g.statement c s).1,
      ∃ d, (g.statement c s).2.declarations[i]? = some d ∧ d.doc = s.doc c.text := by
  have hdocumented {α : Type} (f : Option String → Parse α) :
      (leadingDocHere >>= f) c s = f (s.doc c.text) c s := by
    show f (leadingDocHere c s).1 c (leadingDocHere c s).2 = _
    rw [leadingDocHere_run]
  have hrest (p : Parse (List Statement)) [hp : Carries (s.doc c.text) p] :
      ∀ i ∈ declaredIn (p c s).1, ∃ d, (p c s).2.declarations[i]? = some d ∧
        d.doc = s.doc c.text := hp.carries c s
  unfold statement
  dsimp only
  rw [hdocumented]
  exact hrest _

end Productions

end ApiSurface
