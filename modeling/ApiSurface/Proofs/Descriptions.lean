import ApiSurface.Proofs.ClosedGraph
/-!
What the symbols of a graph are described as: each by a description of the symbol it is a name of,
and only those that have exports as modules.
-/
namespace ApiSurface

/-- Whether a description is that of a module. -/
def DocShape.isModule : DocShape → Bool
  | .module _ => true
  | _ => false

namespace Describe

/-- A step never gives the description of a module. -/
def NoModule (step : Describe DocShape) : Prop :=
  ∀ ctx d shape, (step.runAt ctx d).1 = .ok shape → shape.isModule = false

theorem NoModule.pure {shape : DocShape} (h : shape.isModule = false) :
    NoModule (Pure.pure shape) := by
  intro _ _ _ hrun
  exact Except.ok.inj hrun ▸ h

theorem NoModule.bind {α : Type} {x : Describe α} {f : α → Describe DocShape}
    (hf : ∀ a, NoModule (f a)) : NoModule (x >>= f) := by
  intro ctx d shape hrun
  rw [runAt_bind] at hrun
  split at hrun
  · next a d' _ => exact hf a ctx d' shape hrun
  · exact absurd hrun (by simp)

theorem NoModule.inDeclaration {step : Describe DocShape} (h : NoModule step) (file : FileIndex)
    (i : DeclIndex) (names : List String) :
    NoModule (Describe.inDeclaration file i names step) := by
  refine NoModule.bind fun _ => ?_
  intro _ _ _ hrun
  exact h _ _ _ hrun

theorem single_noModule (depth : Depth) (d : Located) : NoModule (single depth d) := by
  unfold single
  split
  · apply NoModule.inDeclaration
    apply NoModule.bind
    intro t
    exact .pure rfl
  · apply NoModule.inDeclaration
    apply NoModule.bind
    intro params
    apply NoModule.bind
    intro t
    exact .pure rfl
  · apply NoModule.inDeclaration
    apply NoModule.bind
    intro params
    apply NoModule.bind
    intro base
    apply NoModule.bind
    intro implemented
    apply NoModule.bind
    intro parts
    exact .pure rfl
  · exact .pure rfl

end Describe

namespace Walk

open Describe

variable {p : Program} {limit : ℕ}

theorem shape_noModule {s : SymbolIndex} {kind : SymbolKind} (hkind : kind ≠ .nameSpace)
    (ds : List Located) (w : Walk) (r : Option String × DocShape)
    (h : ((Walk.shape p limit s kind ds).run w).1 = .ok r) : r.2.isModule = false := by
  have hdescribed {step : Describe DocShape} (hstep : NoModule step) {docs : Option String}
      (hrun : ((describing p step).run w).1.map (docs, ·) = .ok r) : r.2.isModule = false := by
    cases hr : ((describing p step).run w).1 with
    | error e =>
      rw [hr] at hrun
      exact absurd hrun (by simp [Except.map])
    | ok shape =>
      rw [hr] at hrun
      obtain rfl := Except.ok.inj hrun
      exact hstep ⟨p, default⟩ ⟨w, []⟩ shape hr
  cases kind with
  | nameSpace => exact absurd rfl hkind
  | function => exact hdescribed (NoModule.bind fun _ => .pure rfl) h
  | interface => exact hdescribed (NoModule.bind fun _ => .pure rfl) h
  | enum => exact hdescribed (NoModule.bind fun _ => .pure rfl) h
  | enumMember => exact hdescribed (NoModule.pure rfl) h
  | «variable» | typeAlias | classType | ambientModule | sourceFile | importAlias =>
    refine hdescribed ?_ h
    cases ds.head? with
    | none => exact .pure rfl
    | some d => exact single_noModule _ d

theorem isModuleLike_of_describedKind? {s : Symbol} (h : s.describedKind? = some .nameSpace) :
    s.isModuleLike = true := by
  have hfound := List.find?_some h
  simpa using hfound

theorem exists_of_described_isModule (r : Except DescribeError (Option String × DocShape))
    {s : SymbolIndex} {w : Walk}
    (h : ((match r with
      | .ok (docs, shape) => return ⟨(p.symbol s).name, docs, shape⟩
      | .error e => return p.undescribed (p.symbol s).name (p.located s) e.message :
      StateM Walk DocSymbol).run w).1.shape.isModule = true) :
    ∃ x, r = .ok x ∧ x.2.isModule = true := by
  cases r with
  | ok x => exact ⟨x, rfl, h⟩
  | error e => cases h

/-- What is described as a module has exports. -/
theorem describe_isModule {s : SymbolIndex} {w : Walk}
    (h : ((Walk.describe p limit s).run w).1.shape.isModule = true) :
    (p.symbol s).isModuleLike = true := by
  unfold Walk.describe at h
  dsimp only at h
  split at h
  · cases h
  · next kind hkind =>
    by_cases hname : kind = .nameSpace
    · exact isModuleLike_of_describedKind? (hname ▸ hkind)
    · -- whether or not its exports are mentioned too, it is described as another kind
      have hshape : ∀ r, ((Walk.shape p limit s kind ((p.located s).filter
          (·.declaration.shape.symbolKind = kind))).run w).1 = .ok r → r.2.isModule = false :=
        shape_noModule hname _ w
      rw [StateT.run_bind] at h
      split at h
      · obtain ⟨x, hx, hmodule⟩ := exists_of_described_isModule _ h
        exact absurd hmodule (by rw [hshape x hx]; simp)
      · obtain ⟨x, hx, hmodule⟩ := exists_of_described_isModule _ h
        exact absurd hmodule (by rw [hshape x hx]; simp)

/-- Each described symbol is what describing the symbol of its name came to. -/
def Described.Faithful (p : Program) (limit : ℕ) (done : Described) : Prop :=
  ∀ id d, done.symbols.get? id = some d → ∃ s w, done.handles.get? id = some s ∧
    ((Walk.describe p limit s).run w).1 = d

theorem describeFrom_faithful {n i : ℕ} {done done' : Described} {w w' : Walk}
    (h : done.Faithful p limit)
    (hrun : (describeFrom p limit n i done).run.run w = (.ok done', w')) :
    done'.Faithful p limit := by
  induction n generalizing i done w with
  | zero =>
    obtain ⟨hdone, -⟩ := (Prod.mk.injEq ..).mp hrun
    exact Except.ok.inj hdone ▸ h
  | succ n ih =>
    rw [describeFrom_succ] at hrun
    split at hrun
    · obtain ⟨hdone, -⟩ := (Prod.mk.injEq ..).mp hrun
      exact Except.ok.inj hdone ▸ h
    next s _ =>
      split at hrun
      · exact ih h hrun
      split at hrun
      · exact absurd (congrArg Prod.fst hrun) (by simp)
      dsimp only at hrun
      split at hrun
      · exact absurd (congrArg Prod.fst hrun) (by simp)
      -- one more symbol is described
      refine ih (fun id d hd => ?_) hrun
      rw [Table.get?_insert] at hd ⊢
      split at hd
      · next heq => exact ⟨s, _, if_pos heq, Option.some.inj hd⟩
      · next hne =>
        obtain ⟨t, v, ht, hv⟩ := h id d hd
        exact ⟨t, v, by rw [if_neg hne, ht], hv⟩

end Walk

namespace Program

variable {p : Program} {limit : ℕ} {entries : List (String × FileIndex)} {memory : Memory}
variable {g : Graph}

/-- In the graph of a walk only symbols with exports are described as modules. -/
theorem walk_isModuleLike (h : (p.walk limit entries memory).1 = .ok g) {id : SymbolId}
    {d : DocSymbol} {s : SymbolIndex} (hd : g.symbols.get? id = some d)
    (hs : g.handles.get? id = some s) (hmodule : d.shape.isModule = true) :
    (p.symbol s).isModuleLike = true := by
  obtain ⟨roots, w, done, w', -, hdone, rfl, -⟩ := walk_steps h
  have hstart : Walk.Described.Faithful p limit default := by
    intro id d hd
    exact absurd hd (by simp [Table.get?, show (default : Walk.Described).symbols = [] from rfl])
  obtain ⟨t, v, ht, rfl⟩ := Walk.describeFrom_faithful hstart hdone id d hd
  obtain rfl : t = s := Option.some.inj (ht.symm.trans hs)
  exact Walk.describe_isModule hmodule

end Program

end ApiSurface
