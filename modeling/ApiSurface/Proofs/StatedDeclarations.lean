import ApiSurface.Proofs.GrownTables
import ApiSurface.Proofs.LeadingDocuments
/-!
Where the declarations of a file come from. Each in the statements of a file, or in the body of a
module, was made by a statement that was read from one of the tokens, but for the parts of a dotted
name behind the first.
-/
namespace ApiSurface

/-! ### Where a declaration comes from -/

/-- From the token at `p` on, a statement is read that makes the declaration `i` of a table. -/
def StatedAt (c : Setting) (table : Array Declaration) (p : ℕ) (i : DeclIndex) : Prop :=
  ∃ (n : ℕ) (s : ParseState), s.reading.Stands c.text ∧ s.current.kind ≠ .endOfFile ∧ s.pos = p ∧
    i ∈ declaredIn ((Productions.ofDepth n).statement c s).1 ∧
      TableKeeps ((Productions.ofDepth n).statement c s).2.declarations table

/-- Behind a dot, a module is read that is the declaration `i` of a table. -/
def DottedModule (c : Setting) (table : Array Declaration) (i : DeclIndex) : Prop :=
  ∃ (n : ℕ) (s : ParseState) (start : ℕ) (modifiers : Modifiers), s.reading.Stands c.text ∧
    s.current.kind = .dot ∧
      ((Productions.ofDepth n).module start none modifiers c (Parse.next s)).1 = i ∧
        TableKeeps ((Productions.ofDepth n).module start none modifiers c
          (Parse.next s)).2.declarations table

/-- What a body lists was made by statements, or it is the rest of a dotted name. -/
def HasSource (c : Setting) (table : Array Declaration) (body : List Statement) : Prop :=
  (∀ i ∈ declaredIn body, ∃ p, StatedAt c table p i) ∨
    ∃ i, body = [.declaration i] ∧ DottedModule c table i

/-- Each body in a table has a source. -/
def Sourced (c : Setting) (table : Array Declaration) : Prop :=
  ∀ d ∈ table, ∀ naming body, d.shape = .module naming (some body) → HasSource c table body

section

variable {c : Setting} {table table' : Array Declaration} {i : DeclIndex} {p : ℕ}

theorem StatedAt.mono (h : StatedAt c table p i) (hkeeps : TableKeeps table table') :
    StatedAt c table' p i := by
  obtain ⟨n, s, hs, hkind, hpos, hi, hkept⟩ := h
  exact ⟨n, s, hs, hkind, hpos, hi, hkept.trans hkeeps⟩

theorem HasSource.mono {body : List Statement} (h : HasSource c table body)
    (hkeeps : TableKeeps table table') : HasSource c table' body := by
  rcases h with h | ⟨i, hbody, n, s, start, modifiers, hs, hdot, hi, hkept⟩
  · exact Or.inl fun i hi => (h i hi).imp fun p hp => hp.mono hkeeps
  · exact Or.inr ⟨i, hbody, n, s, start, modifiers, hs, hdot, hi, hkept.trans hkeeps⟩

/-- A form of declaration that has no body yet, or none at all. -/
class Bodiless (shape : DeclarationShape) : Prop where
  ne : ∀ naming body, shape ≠ .module naming (some body)

instance (signature : Signature) (body : Option FunctionBody) :
    Bodiless (.function signature body) := ⟨nofun⟩

instance (kind : VariableKind) (type : Option TypeExpr) (initial : Option Expr) :
    Bodiless (.variable kind type initial) := ⟨nofun⟩

instance (params : List TypeParam) (type : TypeExpr) : Bodiless (.typeAlias params type) := ⟨nofun⟩

instance (params : List TypeParam) (types : List TypeExpr) (members : List TypeMember) :
    Bodiless (.interface params types members) := ⟨nofun⟩

instance (params : List TypeParam) (type : Option TypeExpr) (types : List TypeExpr)
    (members : List ClassMember) : Bodiless (.class params type types members) := ⟨nofun⟩

instance (members : List DeclIndex) : Bodiless (.enum members) := ⟨nofun⟩

instance (initial : Option Expr) : Bodiless (.enumMember initial) := ⟨nofun⟩

instance (naming : ModuleNaming) : Bodiless (.module naming none) := ⟨nofun⟩

theorem Sourced.push (h : Sourced c table) (d : Declaration) [hd : Bodiless d.shape] :
    Sourced c (table.push d) := by
  intro e he naming body hshape
  rcases Array.mem_push.mp he with he | rfl
  · exact (h e he naming body hshape).mono (.push table d)
  · exact absurd hshape (hd.ne naming body)

theorem Sourced.complete (h : Sourced c table) (i : ℕ) (span : Span) (shape : DeclarationShape)
    (hbody : ∀ naming body, shape = .module naming (some body) → HasSource c table body) :
    Sourced c (table.modify i ({ · with span, shape })) := by
  intro e he naming body hshape
  have hkeeps := TableKeeps.complete table i span shape
  obtain ⟨j, hj⟩ := Array.mem_iff_getElem?.mp he
  rw [Array.getElem?_modify] at hj
  split at hj
  · obtain ⟨d, -, rfl⟩ := Option.map_eq_some_iff.mp hj
    exact (hbody naming body hshape).mono hkeeps
  · exact (h e (Array.mem_of_getElem? hj) naming body hshape).mono hkeeps

end

/-! ### Parsers that give each body a source -/

/-- A state at a token of the text, in whose table each body has a source. -/
structure ParseState.IsSourced (c : Setting) (s : ParseState) : Prop where
  stands : s.reading.Stands c.text
  sourced : Sourced c s.declarations

namespace Parse

variable {α β σ : Type}

/-- A parser that gives a source to each body it enters. -/
class Sourcing (p : Parse α) : Prop where
  sourced : ∀ (c : Setting) (s : ParseState), s.IsSourced c → (p c s).2.IsSourced c

namespace Sourcing

theorem of_table {p : Parse α} (hrun : Running p)
    (h : ∀ (c : Setting) (s : ParseState), s.IsSourced c → Sourced c (p c s).2.declarations) :
    Sourcing p := ⟨fun c s hs => ⟨(hrun.runs c s).stands hs.stands, h c s hs⟩⟩

instance (priority := low) (p : Parse α) [hp : Quiet p] : Sourcing p :=
  of_table inferInstance fun c s hs => by
    rw [(hp.walks c s).extends.declarations]
    exact hs.sourced

theorem bind {p : Parse α} {f : α → Parse β} (hp : Sourcing p) (hf : ∀ a, Sourcing (f a)) :
    Sourcing (p >>= f) := ⟨fun c s hs => (hf _).sourced c _ (hp.sourced c s hs)⟩

instance (p : Parse α) (f : α → Parse β) [hp : Sourcing p] [hf : ∀ a, Sourcing (f a)] :
    Sourcing (p >>= f) := bind hp hf

instance (priority := low) (p : Parse (Option α)) (f : Option α → Parse β) [hp : Sourcing p]
    [hsome : ∀ a, Sourcing (f (some a))] [hnone : Sourcing (f none)] : Sourcing (p >>= f) :=
  bind hp fun
    | some a => hsome a
    | none => hnone

instance (b : Prop) [Decidable b] (p q : Parse α) [hp : Sourcing p] [hq : Sourcing q] :
    Sourcing (if b then p else q) := by split <;> assumption

instance (step : σ → Parse (σ × Bool)) (x : σ) [hstep : Sourcing (step x)] :
    Sourcing (stepOn step x) := by
  unfold stepOn
  infer_instance

theorem iterateFrom {step : σ → Parse (σ × Bool)} (hstep : ∀ x, Sourcing (step x))
    (cs : List Char) (x : σ) : Sourcing (iterateFrom step cs x) := by
  induction cs generalizing x with
  | nil =>
    unfold Parse.iterateFrom
    infer_instance
  | cons c cs ih =>
    unfold Parse.iterateFrom
    infer_instance

instance (step : σ → Parse (σ × Bool)) (x : σ) [hstep : ∀ x, Sourcing (step x)] :
    Sourcing (iterate step x) :=
  bind inferInstance fun s => iterateFrom hstep (' ' :: s.rest) x

instance (step : Parse (List α × Bool)) [Sourcing step] : Sourcing (collect step) := by
  unfold collect gather
  infer_instance

instance (i : DeclIndex) (p : Parse α) [hp : Sourcing p] : Sourcing (inBodyOf i p) :=
  ⟨fun c s hs =>
    have h := hp.sourced c (s.inBody i) ⟨hs.stands, hs.sourced⟩
    ⟨h.stands, h.sourced⟩⟩

instance (name : Ident) (span : Span) (modifiers : Modifiers) (doc : Option String)
    (shape : DeclarationShape) [hshape : Bodiless shape] :
    Sourcing (declare name span modifiers doc shape) :=
  of_table inferInstance fun _ s hs =>
    hs.sourced.push ⟨name, span, modifiers, doc, shape, s.context.parent⟩

instance (i : DeclIndex) (span : Span) (shape : DeclarationShape) [hshape : Bodiless shape] :
    Sourcing (complete i span shape) :=
  of_table inferInstance fun _ _ hs => hs.sourced.complete i span shape fun naming body heq =>
    absurd heq (hshape.ne naming body)

instance (start : ℕ) : Sourcing (modify fun s =>
    { s with firstStatement := s.firstStatement.or (some start) } : Parse Unit) :=
  of_table inferInstance fun _ _ hs => hs.sourced

/-- What comes behind a parser that gives each body a source. -/
theorem yields {p : Parse α} [hp : Sourcing p] [hrun : Running p] {c : Setting} {s : ParseState}
    (hs : s.IsSourced c) : Yields p c s fun _ s' =>
      s'.IsSourced c ∧ TableKeeps s.declarations s'.declarations :=
  ⟨hp.sourced c s hs, (hrun.runs c s).keeps⟩

end Sourcing

end Parse

namespace Productions

open Parse

/-- Bodies and modules within themselves, to some depth, give each body a source, and list what
statements make. -/
class Sourcing (g : Productions) : Prop where
  depth : ∃ n, g = ofDepth n
  statements : Parse.Sourcing g.statements
  stated : ∀ (c : Setting) (s : ParseState), s.IsSourced c → ∀ i ∈ declaredIn (g.statements c s).1,
    ∃ p, StatedAt c (g.statements c s).2.declarations p i
  module : ∀ (start : ℕ) (doc : Option String) (modifiers : Modifiers),
    Parse.Sourcing (g.module start doc modifiers)

namespace Sourcing

open Parse.Sourcing (bind)

variable (g : Productions) [hquiet : Quiet g] [hrun : Running g] [hg : Sourcing g] (start : ℕ)
  (doc : Option String) (modifiers : Modifiers)

-- a production of many parts has an instance of many parts
set_option synthInstance.maxSize 10000

instance : Parse.Sourcing g.statements := hg.statements

instance : Parse.Sourcing (g.module start doc modifiers) := hg.module start doc modifiers

/-! ### Declarations -/

/-- A module is completed with a body that has a source. -/
theorem complete_yields {c : Setting} {s : ParseState} (hs : s.IsSourced c) (i : DeclIndex)
    (naming : ModuleNaming) {body : Option (List Statement)}
    (hbody : ∀ statements, body = some statements → HasSource c s.declarations statements) :
    Yields (do complete i (← spanFrom start) (.module naming body); return i : Parse DeclIndex) c s
      fun _ s' => s'.IsSourced c := by
  refine .bind (Parse.Sourcing.yields hs) fun span s₁ h₁ => ?_
  have htable : Sourced c (complete i span (.module naming body) c s₁).2.declarations := by
    refine h₁.1.sourced.complete i span _ fun naming' statements heq => ?_
    obtain ⟨rfl, rfl⟩ := DeclarationShape.module.inj heq
    exact (hbody statements rfl).mono h₁.2
  exact ⟨h₁.1.stands, htable⟩

instance (name : Ident) (naming : ModuleNaming) :
    Parse.Sourcing (g.moduleBody start doc modifiers name naming) := by
  refine ⟨fun c s hs => ?_⟩
  show Yields (g.moduleBody start doc modifiers name naming) c s fun _ s' => s'.IsSourced c
  unfold moduleBody
  refine .bind (Parse.Sourcing.yields hs) fun index s₁ h₁ => ?_
  refine .bind (Parse.Sourcing.yields h₁.1) fun isOpen s₂ h₂ => ?_
  extract_lets tail
  split
  · refine .inBodyOf (P := fun statements s' => s'.IsSourced c ∧
      ∀ i ∈ declaredIn statements, ∃ p, StatedAt c s'.declarations p i) ?_ fun statements s₃ h₃ => ?_
    · have hinner : (s₂.inBody index).IsSourced c := ⟨h₂.1.stands, h₂.1.sourced⟩
      exact ⟨hg.statements.sourced c _ hinner, hg.stated c _ hinner⟩
    · have hout : (s₃.outOf s₂).IsSourced c := ⟨h₃.1.stands, h₃.1.sourced⟩
      refine .bind (Parse.Sourcing.yields hout) fun _ s₄ h₄ => ?_
      refine complete_yields start h₄.1 index naming fun body heq => Or.inl fun i hi => ?_
      obtain rfl := Option.some.inj heq
      exact (h₃.2 i hi).imp fun p hp => hp.mono h₄.2
  · exact .bind (Parse.Sourcing.yields h₂.1) fun _ s₃ h₃ =>
      complete_yields start h₃.1 index naming nofun

instance : Parse.Sourcing (g.moduleProduction start doc modifiers) := by
  unfold moduleProduction
  refine bind inferInstance fun isString => ?_
  split
  · infer_instance
  refine bind inferInstance fun name => ⟨fun c s hs => ?_⟩
  show Yields _ c s fun _ s' => s'.IsSourced c
  refine .isAt ?_
  split
  · next hdot =>
    refine .bind (P := fun _ s' => s'.IsSourced c ∧ s'.current = s.current)
      ⟨(Parse.Sourcing.yields hs).1, rfl⟩ fun index s₁ h₁ => ?_
    refine .advance ?_
    extract_lets innerModifiers
    refine .look fun position => ?_
    have hinner : ((next s₁).inBody index).IsSourced c := by
      have hnext := Parse.Sourcing.yields (p := advance) h₁.1
      exact ⟨hnext.1.stands, hnext.1.sourced⟩
    -- the rest of the name is read behind the dot
    have hpart (inner : DeclIndex) (s' : ParseState)
        (h : g.module position none innerModifiers c ((next s₁).inBody index) = (inner, s')) :
        DottedModule c s'.declarations inner := by
      obtain ⟨n, rfl⟩ := hg.depth
      have hkind : s₁.current.kind = .dot := by
        rw [h₁.2]
        exact eq_of_beq hdot
      refine ⟨n, s₁.inBody index, position, innerModifiers, h₁.1.stands, hkind,
        congrArg Prod.fst h, ?_⟩
      have hlast := congrArg (·.2.declarations) h
      exact hlast ▸ .refl _
    refine .inBodyOf (P := fun inner s' => s'.IsSourced c ∧ DottedModule c s'.declarations inner)
      ⟨(hg.module position none innerModifiers).sourced c _ hinner, hpart _ _ rfl⟩
      fun inner s₂ h₂ => ?_
    have hout : (s₂.outOf (next s₁)).IsSourced c := ⟨h₂.1.stands, h₂.1.sourced⟩
    refine complete_yields start hout index .identifier fun body heq => Or.inr ⟨inner, ?_, h₂.2⟩
    exact (Option.some.inj heq).symm
  · have hbody : Parse.Sourcing (g.moduleBody start doc modifiers name .identifier) := inferInstance
    exact hbody.sourced c s hs

instance : Parse.Sourcing g.enumMember := by
  unfold enumMember
  infer_instance

instance : Parse.Sourcing (g.enumDeclaration start doc modifiers) := by
  unfold enumDeclaration
  infer_instance

instance : Parse.Sourcing (g.functionDeclaration start doc modifiers) := by
  unfold functionDeclaration
  infer_instance

instance (kind : VariableKind) : Parse.Sourcing (g.declarator kind doc modifiers) := by
  unfold declarator
  infer_instance

instance : Parse.Sourcing (g.variableStatement doc modifiers) := by
  unfold variableStatement
  infer_instance

instance : Parse.Sourcing (g.typeAlias start doc modifiers) := by
  unfold typeAlias
  infer_instance

instance : Parse.Sourcing (g.interfaceDeclaration start doc modifiers) := by
  unfold interfaceDeclaration
  infer_instance

instance : Parse.Sourcing (g.classDeclaration start doc modifiers) := by
  unfold classDeclaration
  infer_instance

instance : Parse.Sourcing (g.declaration? start doc modifiers) := by
  unfold declaration?
  dsimp only
  refine bind inferInstance fun isWord => ?_
  split
  · infer_instance
  · refine bind inferInstance fun t => ?_
    split <;> infer_instance

/-! ### Statements -/

instance : Parse.Sourcing markModule := by
  unfold markModule
  have hmark : Parse.Sourcing (modify ({ · with isModule := true }) : Parse Unit) :=
    ⟨fun _ _ hs => ⟨hs.stands, hs.sourced⟩⟩
  infer_instance

instance (isExport : Bool) : Parse.Sourcing (importStatement start isExport) := by
  unfold importStatement
  infer_instance

instance (keyword : Span) : Parse.Sourcing (g.exportDefault start doc keyword) := by
  unfold exportDefault
  infer_instance

instance (keyword : Span) : Parse.Sourcing (g.exportStatement start doc keyword) := by
  unfold exportStatement
  dsimp only
  repeat' first | infer_instance | refine bind inferInstance fun _ => ?_ | split

instance : Parse.Sourcing g.statement := by
  unfold statement
  dsimp only
  infer_instance

instance (inBody : Bool) : Parse.Sourcing (g.statementStep inBody) := by
  unfold statementStep
  dsimp only
  infer_instance

instance (inBody : Bool) : Parse.Sourcing (g.statementList inBody) := by
  unfold statementList
  infer_instance

/-- A step of a list of statements reads a statement at the current token, or none. -/
theorem statementStep_stated (inBody : Bool) {c : Setting} {s : ParseState} (hs : s.IsSourced c) :
    Yields (g.statementStep inBody) c s fun r s' =>
      s'.IsSourced c ∧ ∀ i ∈ declaredIn r.1, ∃ p, StatedAt c s'.declarations p i := by
  have hnone {more : Bool} {s' : ParseState} (h : s'.IsSourced c) :
      Yields (pure (([] : List Statement), more)) c s' fun r s' =>
        s'.IsSourced c ∧ ∀ i ∈ declaredIn r.1, ∃ p, StatedAt c s'.declarations p i :=
    .pure ⟨h, fun i hi => absurd hi List.not_mem_nil⟩
  unfold statementStep
  refine .isAt ?_
  split
  · split
    · exact .bind (Parse.Sourcing.yields hs) fun _ s₁ h₁ => hnone h₁.1
    · exact hnone hs
  next hmore =>
  refine .look fun isClosed => ?_
  split
  · exact hnone hs
  refine .look fun start => ?_
  extract_lets tail
  have htail {s' : ParseState} (h : s'.IsSourced c) (hkind : s'.current.kind ≠ .endOfFile) :
      Yields (tail ()) c s' fun r s' =>
        s'.IsSourced c ∧ ∀ i ∈ declaredIn r.1, ∃ p, StatedAt c s'.declarations p i := by
    have hstatement : Yields g.statement c s' fun statements s'' => s''.IsSourced c ∧
        ∀ i ∈ declaredIn statements, StatedAt c s''.declarations s'.pos i := by
      obtain ⟨n, rfl⟩ := hg.depth
      exact ⟨(Parse.Sourcing.yields h).1, fun i hi => ⟨n, s', h.stands, hkind, rfl, hi, .refl _⟩⟩
    refine .bind hstatement fun statements s₁ h₁ => .look fun after => .look fun isEnd => ?_
    split
    · refine .bind (Parse.Sourcing.yields h₁.1) fun _ s₂ h₂ =>
        .bind (Parse.Sourcing.yields h₂.1) fun _ s₃ h₃ => .pure ⟨h₃.1, fun i hi => ?_⟩
      exact ⟨_, (h₁.2 i hi).mono (h₂.2.trans h₃.2)⟩
    · exact .pure ⟨h₁.1, fun i hi => ⟨_, h₁.2 i hi⟩⟩
  have hkind : s.current.kind ≠ .endOfFile := fun hend => hmore (beq_iff_eq.mpr hend)
  split
  · refine .bind (P := fun _ s' => s'.IsSourced c ∧ s'.current = s.current)
      ⟨(Parse.Sourcing.yields hs).1, rfl⟩ fun _ s₁ h₁ => htail h₁.1 ?_
    rwa [h₁.2]
  · exact htail hs hkind

/-- Each declaration in a list of statements is made by one of them, at the token where it starts. -/
theorem statementList_stated (inBody : Bool) (c : Setting) (s : ParseState) (hs : s.IsSourced c) :
    ∀ i ∈ declaredIn (g.statementList inBody c s).1,
      ∃ p, StatedAt c (g.statementList inBody c s).2.declarations p i := by
  have hall : Yields (g.statementList inBody) c s fun statements s' => s'.IsSourced c ∧
      ∀ i ∈ declaredIn statements, ∃ p, StatedAt c s'.declarations p i := by
    refine collect_yields
      (I := fun statements s' => s'.IsSourced c ∧
        ∀ i ∈ declaredIn statements, ∃ p, StatedAt c s'.declarations p i)
      (fun statements s₁ h => ?_) (fun _ _ h => ⟨⟨h.1.stands, h.1.sourced⟩, h.2⟩)
      (fun _ _ h => ⟨⟨h.1.stands, h.1.sourced⟩, h.2⟩) ⟨hs, fun i hi => absurd hi List.not_mem_nil⟩
    obtain ⟨hlast, hnew⟩ := statementStep_stated g inBody h.1
    obtain ⟨-, hkeeps⟩ := Parse.Sourcing.yields (p := g.statementStep inBody) h.1
    have hboth : ∀ i ∈ declaredIn (statements ++ (g.statementStep inBody c s₁).1.1),
        ∃ p, StatedAt c (g.statementStep inBody c s₁).2.declarations p i := by
      intro i hi
      rcases List.mem_append.mp (declaredIn_append _ _ ▸ hi) with hi | hi
      · exact (h.2 i hi).imp fun p hp => hp.mono hkeeps
      · exact hnew i hi
    exact ⟨⟨hlast, hboth⟩, fun _ => ⟨hlast, hboth⟩⟩
  exact hall.2

end Sourcing

instance : Sourcing exhausted where
  depth := ⟨0, rfl⟩
  statements := by
    unfold exhausted beyond
    infer_instance
  stated c s hs i hi := absurd hi List.not_mem_nil
  module start doc modifiers := by
    unfold exhausted beyond
    infer_instance

instance (g : Productions) [Quiet g] [Running g] [hg : Sourcing g] : Sourcing (around g) where
  depth := by
    obtain ⟨n, rfl⟩ := hg.depth
    exact ⟨n + 1, rfl⟩
  statements := inferInstanceAs (Parse.Sourcing (g.statementList true))
  stated := Sourcing.statementList_stated g true
  module start doc modifiers :=
    inferInstanceAs (Parse.Sourcing (g.moduleProduction start doc modifiers))

instance (n : ℕ) : Sourcing (ofDepth n) := by
  induction n with
  | zero => exact inferInstanceAs (Sourcing exhausted)
  | succ n ih => exact inferInstanceAs (Sourcing (around (ofDepth n)))

end Productions

end ApiSurface
