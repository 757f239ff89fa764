import ApiSurface.Proofs.ShallowParsing
/-!
How deeply nested the trees of declarations are. Between statements no type and no expression is open,
so what a declaration has in it fits into all levels, and what a class or an interface builds on into one
more, as it is entered where no level is counted.
-/
namespace ApiSurface

/-! ### Members of classes and declarations -/

section Meets

variable {n : ℕ}

instance (name : PropertyName) (optional : Bool) (type : Option TypeExpr) (initial : Option Expr)
    [h : Meets (AllFit n) type] [h' : Meets (AllFit n) initial] :
    Meets (AllFit n) (ClassMemberShape.property name optional type initial) :=
  ⟨List.forall_mem_append.mpr ⟨h.meets, h'.meets⟩⟩

instance (name : PropertyName) (optional : Bool) (s : Signature) (body : Option FunctionBody)
    [h : Meets (AllFit n) s] : Meets (AllFit n) (ClassMemberShape.method name optional s body) :=
  ⟨h.meets⟩

instance (s : Signature) (body : Option FunctionBody) [h : Meets (AllFit n) s] :
    Meets (AllFit n) (ClassMemberShape.constructor s body) := ⟨h.meets⟩

instance (name : PropertyName) (type : Option TypeExpr) (body : Option FunctionBody)
    [h : Meets (AllFit n) type] : Meets (AllFit n) (ClassMemberShape.getter name type body) :=
  ⟨h.meets⟩

instance (name : PropertyName) (param : Option Param) [h : Meets (AllFit n) param] :
    Meets (AllFit n) (ClassMemberShape.setter name param) := ⟨h.meets⟩

instance (params : List Param) (type : Option TypeExpr) [h : Meets (AllFit n) params]
    [h' : Meets (AllFit n) type] : Meets (AllFit n) (ClassMemberShape.index params type) :=
  ⟨List.forall_mem_append.mpr ⟨h.meets, h'.meets⟩⟩

instance : Meets (AllFit n) ClassMemberShape.unknown := ⟨List.forall_mem_nil _⟩

instance (span : Span) (doc : Option String) (modifiers : Modifiers) (shape : ClassMemberShape)
    [h : Meets (AllFit n) shape] : Meets (AllFit n) (ClassMember.mk span doc modifiers shape) :=
  ⟨h.meets⟩

instance (s : Signature) (body : Option FunctionBody) [h : Meets (AllFit n) s] :
    Meets (AllFit n) (DeclarationShape.function s body) := ⟨h.meets⟩

instance (kind : VariableKind) (type : Option TypeExpr) (initial : Option Expr)
    [h : Meets (AllFit n) type] [h' : Meets (AllFit n) initial] :
    Meets (AllFit n) (DeclarationShape.variable kind type initial) :=
  ⟨List.forall_mem_append.mpr ⟨h.meets, h'.meets⟩⟩

instance (params : List TypeParam) (type : TypeExpr) [h : Meets (AllFit n) params]
    [h' : Meets (AllFit n) type] : Meets (AllFit n) (DeclarationShape.typeAlias params type) :=
  ⟨List.forall_mem_append.mpr ⟨h.meets, h'.meets⟩⟩

instance (params : List TypeParam) (bases : List TypeExpr) (members : List TypeMember)
    [h : Meets (AllFit n) params] [h' : Meets (AllFit n) bases] [h'' : Meets (AllFit n) members] :
    Meets (AllFit n) (DeclarationShape.interface params bases members) :=
  ⟨List.forall_mem_append.mpr ⟨List.forall_mem_append.mpr ⟨h.meets, h'.meets⟩, h''.meets⟩⟩

instance (params : List TypeParam) (base : Option TypeExpr) (implemented : List TypeExpr)
    (members : List ClassMember) [h : Meets (AllFit n) params] [hbase : Meets (AllFit n) base]
    [h' : Meets (AllFit n) implemented] [h'' : Meets (AllFit n) members] :
    Meets (AllFit n) (DeclarationShape.class params base implemented members) :=
  ⟨List.forall_mem_append.mpr ⟨List.forall_mem_append.mpr
    ⟨List.forall_mem_append.mpr ⟨h.meets, hbase.meets⟩, h'.meets⟩, h''.meets⟩⟩

instance (members : List DeclIndex) : Meets (AllFit n) (DeclarationShape.enum members) :=
  ⟨List.forall_mem_nil _⟩

instance (initial : Option Expr) [h : Meets (AllFit n) initial] :
    Meets (AllFit n) (DeclarationShape.enumMember initial) := ⟨h.meets⟩

instance (naming : ModuleNaming) (body : Option (List Statement)) :
    Meets (AllFit n) (DeclarationShape.module naming body) := ⟨List.forall_mem_nil _⟩

instance (t : TypeExpr) [h : Meets (TypeExpr.Binds n 4) t] : Meets (AllFit n) t :=
  ⟨allFit_type.mpr h.meets.fits⟩

theorem AllFit.mono {α : Type} [Bears α] {a : α} {m : ℕ} (h : AllFit m a) (hmn : m ≤ n) :
    AllFit n a := fun x hx => (h x hx).mono hmn

end Meets

namespace Parse.Makes

variable {α β : Type} {d n : ℕ} {Q : β → Prop}

instance [Bears α] (p : Parse α) (f : α → Parse β) [Quiet p]
    [hp : Makes d (AllFit (room d + 1)) p]
    [hf : ∀ a : { a : α // AllFit (room d + 1) a }, Makes d Q (f a.1)] : Makes d Q (p >>= f) :=
  bind hp fun a ha => hf ⟨a, ha⟩

instance [Bears α] [Bears β] (step : α × β → Parse ((α × β) × Bool)) (a : α) (b : β)
    [hquiet : ∀ x, Quiet (step x)] [ha : Meets (AllFit n) a] [hb : Meets (AllFit n) b]
    [h : ∀ (a : { a : α // AllFit n a }) (b : { b : β // AllFit n b }),
      Makes d (Stepped (AllFit n)) (step (a.1, b.1))] : Makes d (AllFit n) (Parse.iterate step (a, b)) :=
  iterate (fun x hx => h ⟨x.1, (allFit_pair.mp hx).1⟩ ⟨x.2, (allFit_pair.mp hx).2⟩)
    (allFit_pair.mpr ⟨ha.meets, hb.meets⟩)

end Parse.Makes

namespace Productions.Shallow

open Parse

variable {g : Productions} [Quiet g] [hg : Shallow g] {d : ℕ}

-- a production of many parts has an instance of many parts
set_option synthInstance.maxSize 10000

instance : Makes d (AllFit (room d)) g.classAccessor := by
  unfold classAccessor
  infer_instance

instance : Makes d (AllFit (room d)) g.namedMember := by
  unfold namedMember
  infer_instance

instance : Makes d (AllFit (room d)) g.classMemberShape := by
  unfold classMemberShape
  infer_instance

instance : Makes d (AllFit (room d)) g.classMember := by
  unfold classMember
  infer_instance

instance : Makes d (AllFit (room d)) g.classMembers := by
  unfold classMembers
  infer_instance

/-- What a class or an interface builds on is entered where no level is counted. -/
instance : Makes d (TypeExpr.Binds (room d + 1) 4) g.heritageType := by
  unfold heritageType
  infer_instance

instance : Makes d (AllFit (room d + 1)) g.heritageList := by
  unfold heritageList
  infer_instance

end Productions.Shallow

/-! ### Tables of declarations -/

/-- A state between statements, in whose table the trees of all declarations fit. -/
structure ParseState.IsShallow (s : ParseState) : Prop where
  depth : s.context.depth = 0
  fits : ∀ d ∈ s.declarations, AllFit (room 0 + 1) d.shape

namespace Parse

variable {α β σ : Type}

/-- A parser whose declarations have trees that fit. -/
class Holding (p : Parse α) : Prop where
  holds : ∀ (c : Setting) (s : ParseState), s.IsShallow → (p c s).2.IsShallow

/-- What a parser between statements makes fits into a declaration. -/
class Supplies [Bears α] (p : Parse α) : Prop where
  makes : Makes 0 (AllFit (room 0 + 1)) p

instance [Bears α] (p : Parse α) [h : Makes 0 (AllFit (room 0 + 1)) p] : Supplies p := ⟨h⟩

instance [Bears α] (p : Parse α) [h : Makes 0 (AllFit (room 0)) p] : Supplies p :=
  ⟨h.mono fun _ ha => ha.mono (Nat.le_succ _)⟩

namespace Holding

instance (priority := low) (p : Parse α) [hp : Quiet p] : Holding p where
  holds c s hs := by
    have hkept := (hp.walks c s).extends
    exact ⟨by rw [hkept.context, hs.depth], by rw [hkept.declarations]; exact hs.fits⟩

theorem bind {p : Parse α} {f : α → Parse β} (hp : Holding p) (hf : ∀ a, Holding (f a)) :
    Holding (p >>= f) := ⟨fun c s hs => (hf _).holds c _ (hp.holds c s hs)⟩

theorem supplied [Bears α] {p : Parse α} {f : α → Parse β} [Quiet p] (hp : Supplies p)
    (hf : ∀ a, AllFit (room 0 + 1) a → Holding (f a)) : Holding (p >>= f) where
  holds c s hs := by
    have hp' : Holding p := inferInstance
    have hafter : (p c s).2.IsShallow := hp'.holds c s hs
    exact (hf _ (hp.makes.makes c s hs.depth)).holds c _ hafter

instance (p : Parse α) (f : α → Parse β) [hp : Holding p] [hf : ∀ a, Holding (f a)] :
    Holding (p >>= f) := bind hp hf

instance [Bears α] (p : Parse α) (f : α → Parse β) [Quiet p] [hp : Supplies p]
    [hf : ∀ a : { a : α // AllFit (room 0 + 1) a }, Holding (f a.1)] : Holding (p >>= f) :=
  supplied hp fun a ha => hf ⟨a, ha⟩

instance [Bears α] [Bears β] {γ : Type} (p : Parse (α × β)) (f : α × β → Parse γ) [Quiet p]
    [hp : Supplies p]
    [hf : ∀ (a : { a : α // AllFit (room 0 + 1) a }) (b : { b : β // AllFit (room 0 + 1) b }),
      Holding (f (a.1, b.1))] : Holding (p >>= f) :=
  supplied hp fun x hx => hf ⟨x.1, (allFit_pair.mp hx).1⟩ ⟨x.2, (allFit_pair.mp hx).2⟩

instance (priority := low) (p : Parse (Option α)) (f : Option α → Parse β) [hp : Holding p]
    [hsome : ∀ a, Holding (f (some a))] [hnone : Holding (f none)] : Holding (p >>= f) :=
  bind hp fun
    | some a => hsome a
    | none => hnone

instance (b : Prop) [Decidable b] (p q : Parse α) [hp : Holding p] [hq : Holding q] :
    Holding (if b then p else q) := by split <;> assumption

instance (step : σ → Parse (σ × Bool)) (x : σ) [hstep : Holding (step x)] :
    Holding (stepOn step x) := by
  unfold stepOn
  infer_instance

theorem iterateFrom {step : σ → Parse (σ × Bool)} (hstep : ∀ x, Holding (step x))
    (cs : List Char) (x : σ) : Holding (iterateFrom step cs x) := by
  induction cs generalizing x with
  | nil =>
    unfold Parse.iterateFrom
    infer_instance
  | cons c cs ih =>
    unfold Parse.iterateFrom
    infer_instance

instance (step : σ → Parse (σ × Bool)) (x : σ) [hstep : ∀ x, Holding (step x)] :
    Holding (iterate step x) :=
  bind inferInstance fun s => iterateFrom hstep (' ' :: s.rest) x

instance (step : Parse (List α × Bool)) [Holding step] : Holding (collect step) := by
  unfold collect gather
  infer_instance

instance (i : DeclIndex) (p : Parse α) [hp : Holding p] : Holding (inBodyOf i p) where
  holds c s hs := by
    have h := hp.holds c { s with context := { s.context with parent := some i } } ⟨hs.depth, hs.fits⟩
    exact ⟨h.depth, h.fits⟩

instance (name : Ident) (span : Span) (modifiers : Modifiers) (doc : Option String)
    (shape : DeclarationShape) [hshape : Meets (AllFit (room 0 + 1)) shape] :
    Holding (declare name span modifiers doc shape) where
  holds c s hs := by
    refine ⟨hs.depth, fun d hd => ?_⟩
    rcases Array.mem_push.mp hd with hd | rfl
    · exact hs.fits d hd
    · exact hshape.meets

instance (i : DeclIndex) (span : Span) (shape : DeclarationShape)
    [hshape : Meets (AllFit (room 0 + 1)) shape] : Holding (complete i span shape) where
  holds c s hs := by
    refine ⟨hs.depth, fun d hd => ?_⟩
    have hd : d ∈ s.declarations.modify i ({ · with span, shape }) := hd
    -- the declaration that is completed, or another one
    obtain ⟨j, hj⟩ := Array.mem_iff_getElem?.mp hd
    rw [Array.getElem?_modify] at hj
    split at hj
    · obtain ⟨e, -, rfl⟩ := Option.map_eq_some_iff.mp hj
      exact hshape.meets
    · exact hs.fits d (Array.mem_of_getElem? hj)

instance (start : ℕ) : Holding (modify fun s =>
    { s with firstStatement := s.firstStatement.or (some start) } : Parse Unit) :=
  ⟨fun _ _ hs => ⟨hs.depth, hs.fits⟩⟩

end Holding

end Parse

namespace Productions

open Parse

/-- Bodies and modules within themselves hold only declarations with trees that fit. -/
class Holding (g : Productions) : Prop where
  statements : Parse.Holding g.statements
  module : ∀ (start : ℕ) (doc : Option String) (modifiers : Modifiers),
    Parse.Holding (g.module start doc modifiers)

namespace Holding

open Parse.Holding (bind supplied)

variable (g : Productions) [hquiet : Quiet g] [hshallow : Shallow g] [hg : Holding g] (start : ℕ)
  (doc : Option String) (modifiers : Modifiers)

-- a production of many parts has an instance of many parts
set_option synthInstance.maxSize 10000

instance : Parse.Holding g.statements := hg.statements

instance : Parse.Holding (g.module start doc modifiers) := hg.module start doc modifiers

/-! ### Declarations -/

instance : Parse.Holding g.enumMember := by
  unfold enumMember
  infer_instance

instance : Parse.Holding (g.enumDeclaration start doc modifiers) := by
  unfold enumDeclaration
  infer_instance

instance (name : Ident) (naming : ModuleNaming) :
    Parse.Holding (g.moduleBody start doc modifiers name naming) := by
  unfold moduleBody
  infer_instance

instance : Parse.Holding (g.moduleProduction start doc modifiers) := by
  unfold moduleProduction
  infer_instance

instance : Parse.Holding (g.functionDeclaration start doc modifiers) := by
  unfold functionDeclaration
  infer_instance

instance (kind : VariableKind) : Parse.Holding (g.declarator kind doc modifiers) := by
  unfold declarator
  infer_instance

instance : Parse.Holding (g.variableStatement doc modifiers) := by
  unfold variableStatement
  infer_instance

instance : Parse.Holding (g.typeAlias start doc modifiers) := by
  unfold typeAlias
  infer_instance

instance : Parse.Holding (g.interfaceDeclaration start doc modifiers) := by
  unfold interfaceDeclaration
  infer_instance

instance : Parse.Holding (g.classDeclaration start doc modifiers) := by
  unfold classDeclaration
  infer_instance

instance : Parse.Holding (g.declaration? start doc modifiers) := by
  unfold declaration?
  dsimp only
  refine bind inferInstance fun isWord => ?_
  split
  · infer_instance
  · refine bind inferInstance fun t => ?_
    split <;> infer_instance

/-! ### Statements -/

instance : Parse.Holding markModule := by
  unfold markModule
  have hmark : Parse.Holding (modify ({ · with isModule := true }) : Parse Unit) :=
    ⟨fun _ _ hs => ⟨hs.depth, hs.fits⟩⟩
  infer_instance

instance (isExport : Bool) : Parse.Holding (importStatement start isExport) := by
  unfold importStatement
  infer_instance

instance (keyword : Span) : Parse.Holding (g.exportDefault start doc keyword) := by
  unfold exportDefault
  infer_instance

instance (keyword : Span) : Parse.Holding (g.exportStatement start doc keyword) := by
  unfold exportStatement
  dsimp only
  repeat' first | infer_instance | refine bind inferInstance fun _ => ?_ | split

instance : Parse.Holding g.statement := by
  unfold statement
  dsimp only
  infer_instance

instance (inBody : Bool) : Parse.Holding (g.statementStep inBody) := by
  unfold statementStep
  dsimp only
  infer_instance

instance (inBody : Bool) : Parse.Holding (g.statementList inBody) := by
  unfold statementList
  infer_instance

end Holding

instance : Holding exhausted where
  statements := by
    unfold exhausted beyond
    infer_instance
  module start doc modifiers := by
    unfold exhausted beyond
    infer_instance

instance (g : Productions) [Quiet g] [Shallow g] [Holding g] : Holding (around g) where
  statements := inferInstanceAs (Parse.Holding (g.statementList true))
  module start doc modifiers :=
    inferInstanceAs (Parse.Holding (g.moduleProduction start doc modifiers))

instance (n : ℕ) : Holding (ofDepth n) := by
  induction n with
  | zero => exact inferInstanceAs (Holding exhausted)
  | succ n ih => exact inferInstanceAs (Holding (around (ofDepth n)))

end Productions

end ApiSurface
