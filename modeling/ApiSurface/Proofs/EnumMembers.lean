import ApiSurface.Proofs.DeclarationForest
/-!
Members of enums stand in enums. One is entered only while the body of an enum is read, and what an
enum is stays an enum, so no list of statements names a member.
-/
namespace ApiSurface

/-- An enum. -/
def Declaration.IsEnum (d : Declaration) : Prop := ∃ members, d.shape = .enum members

/-- A form of declaration that stands among statements. -/
def DeclarationShape.IsStatement : DeclarationShape → Prop
  | .enumMember _ => False
  | _ => True

theorem Declaration.not_isMember {d : Declaration} (h : d.shape.IsStatement) : ¬ d.IsMember := by
  rintro ⟨initial, hshape⟩
  rw [hshape] at h
  exact h

namespace ParseState

variable {s s₁ s' : ParseState} {d : Declaration} {i k : DeclIndex}

/-- The declaration with an index is an enum. -/
def EnumAt (s : ParseState) (i : DeclIndex) : Prop :=
  ∃ d, s.declarations[i]? = some d ∧ d.IsEnum

/-- A declaration that is a member of an enum has an enum around it. -/
def HoldsMember (s : ParseState) (d : Declaration) : Prop :=
  d.IsMember → ∃ j, d.parent = some j ∧ s.EnumAt j

/-- From one state to another, what was entered is an enum or none as before, and members of enums
were entered in enums only. -/
structure Keeps (s s' : ParseState) : Prop where
  parent : s'.context.parent = s.context.parent
  size : s.declarations.size ≤ s'.declarations.size
  enumAt : ∀ i < s.declarations.size, s'.EnumAt i ↔ s.EnumAt i
  members : (∀ d ∈ s.declarations, s.HoldsMember d) → ∀ d ∈ s'.declarations, s'.HoldsMember d

theorem EnumAt.lt (h : s.EnumAt i) : i < s.declarations.size := by
  obtain ⟨d, hd, -⟩ := h
  exact (Array.getElem?_eq_some_iff.mp hd).1

theorem Keeps.enum (h : s.Keeps s') (hi : s.EnumAt i) : s'.EnumAt i := (h.enumAt i hi.lt).mpr hi

theorem Keeps.trans (h : s.Keeps s₁) (h' : s₁.Keeps s') : s.Keeps s' where
  parent := h'.parent.trans h.parent
  size := Nat.le_trans h.size h'.size
  enumAt i hi := (h'.enumAt i (Nat.lt_of_lt_of_le hi h.size)).trans (h.enumAt i hi)
  members hs := h'.members (h.members hs)

/-- What neither declares anything nor leaves the body that the parser stands in. -/
theorem Keeps.of_eq (hparent : s'.context.parent = s.context.parent)
    (hdeclarations : s'.declarations = s.declarations) : s.Keeps s' := by
  have henum (i : DeclIndex) : s'.EnumAt i ↔ s.EnumAt i := by rw [EnumAt, EnumAt, hdeclarations]
  refine ⟨hparent, Nat.le_of_eq (by rw [hdeclarations]), fun i _ => henum i, fun hs d hd hd' => ?_⟩
  obtain ⟨j, hj, hmember⟩ := hs d (hdeclarations ▸ hd) hd'
  exact ⟨j, hj, (henum j).mpr hmember⟩

theorem Keeps.refl (s : ParseState) : s.Keeps s := .of_eq rfl rfl

theorem Walks.keeps (h : s.Walks s') : s.Keeps s' :=
  .of_eq (congrArg ParseContext.parent h.extends.context) h.extends.declarations

theorem entered_enumAt (hi : i < s.declarations.size) : (s.entered d).EnumAt i ↔ s.EnumAt i := by
  rw [EnumAt, EnumAt, entered, Array.getElem?_push_lt hi, Array.getElem?_eq_getElem hi]

/-- A member of an enum is entered where an enum is around it. -/
theorem entered_keeps (hd : s.HoldsMember d) : s.Keeps (s.entered d) where
  parent := rfl
  size := Nat.le_of_lt (by simp [entered])
  enumAt _ := entered_enumAt
  members hs e he hmember := by
    have hfound : ∃ j, e.parent = some j ∧ s.EnumAt j := by
      rcases Array.mem_push.mp he with he | rfl
      · exact hs e he hmember
      · exact hd hmember
    obtain ⟨j, hj, henum⟩ := hfound
    exact ⟨j, hj, (entered_enumAt henum.lt).mpr henum⟩

/-- Behind a body, the parser stands where it stood before it. -/
theorem Keeps.outOf (h : (s.inBody k).Keeps s') : s.Keeps (s'.outOf s) :=
  ⟨rfl, h.size, h.enumAt, h.members⟩

/-- A declaration that is completed after what is declared in it. -/
theorem Keeps.complete (h : (s.entered d).Keeps s') (hd : d.shape.IsStatement)
    {change : Declaration → Declaration} (hchange : ∀ e, (change e).shape.IsStatement)
    (henum : d.IsEnum → ∀ e, (change e).IsEnum) :
    s.Keeps { s' with declarations := s'.declarations.modify s.declarations.size change } := by
  let k := s.declarations.size
  let last : ParseState := { s' with declarations := s'.declarations.modify k change }
  have hentered : s.Keeps (s.entered d) := entered_keeps fun hmember =>
    absurd hmember (Declaration.not_isMember hd)
  have hbody : s.Keeps s' := hentered.trans h
  have hself : (s.entered d).declarations[k]? = some d := Array.getElem?_push_size
  have hsame {i : DeclIndex} (hi : i ≠ k) : last.EnumAt i ↔ s'.EnumAt i := by
    rw [EnumAt, EnumAt, Array.getElem?_modify, if_neg (Ne.symm hi)]
  -- the completed entry is an enum if it was entered as one
  have hlast {i : DeclIndex} (hi : s'.EnumAt i) : last.EnumAt i := by
    by_cases hik : i = k
    · subst hik
      have hk : (s.entered d).EnumAt k := by
        refine (h.enumAt k ?_).mp hi
        exact (Array.getElem?_eq_some_iff.mp hself).1
      obtain ⟨d', hd', hd'enum⟩ := hk
      obtain rfl := Option.some.inj (hself.symm.trans hd')
      obtain ⟨e, he, -⟩ := hi
      refine ⟨change e, ?_, henum hd'enum e⟩
      rw [Array.getElem?_modify, if_pos rfl, he, Option.map_some]
    · exact (hsame hik).mpr hi
  refine ⟨hbody.parent, Nat.le_trans hbody.size (Nat.le_of_eq Array.size_modify.symm),
    fun i hi => (hsame (Nat.ne_of_lt hi)).trans (hbody.enumAt i hi), fun hs e he hmember => ?_⟩
  obtain ⟨i, hi⟩ := Array.mem_iff_getElem?.mp he
  rw [Array.getElem?_modify] at hi
  split at hi
  · obtain ⟨e', -, rfl⟩ := Option.map_eq_some_iff.mp hi
    exact absurd hmember (Declaration.not_isMember (hchange e'))
  · obtain ⟨j, hj, henum'⟩ := hbody.members hs e (Array.mem_of_getElem? hi) hmember
    exact ⟨j, hj, hlast henum'⟩

end ParseState

namespace Parse

open ParseState

variable {α β : Type}

/-- A parser that enters members of enums in enums only. -/
class Keeping (p : Parse α) : Prop where
  keeps : ∀ (c : Setting) (s : ParseState), s.Keeps (p c s).2

namespace Keeping

theorem bind {p : Parse α} {f : α → Parse β} (hp : Keeping p) (hf : ∀ a, Keeping (f a)) :
    Keeping (p >>= f) := ⟨fun c s => (hp.keeps c s).trans ((hf _).keeps c _)⟩

instance (p : Parse α) (f : α → Parse β) [hp : Keeping p] [hf : ∀ a, Keeping (f a)] :
    Keeping (p >>= f) := bind hp hf

instance (p : Parse α) [hp : Quiet p] : Keeping p := ⟨fun c s => (hp.walks c s).keeps⟩

instance (c : Prop) [Decidable c] (p q : Parse α) [hp : Keeping p] [hq : Keeping q] :
    Keeping (if c then p else q) := by split <;> assumption

instance (k : DeclIndex) (p : Parse α) [hp : Keeping p] : Keeping (inBodyOf k p) :=
  ⟨fun c s => (hp.keeps c (s.inBody k)).outOf⟩

theorem collect {step : Parse (List α × Bool)} (hstep : Keeping step) : Keeping (collect step) where
  keeps c s := by
    refine collect_yields (I := fun _ s' => s.Keeps s') (R := fun _ s' => s.Keeps s')
      (fun xs s₁ h => ?_) (fun _ _ h => h.trans (.of_eq rfl rfl))
      (fun _ _ h => h.trans (.of_eq rfl rfl)) (.refl s)
    have hnext := h.trans (hstep.keeps c s₁)
    exact ⟨hnext, fun _ => hnext⟩

variable (name : Ident) (span : Span) (modifiers : Modifiers) (doc : Option String)

theorem declare {shape : DeclarationShape} (h : shape.IsStatement) :
    Keeping (declare name span modifiers doc shape) :=
  ⟨fun _ _ => entered_keeps fun hmember => absurd hmember (Declaration.not_isMember h)⟩

instance (signature : Signature) (body : Option FunctionBody) :
    Keeping (Parse.declare name span modifiers doc (.function signature body)) :=
  declare name span modifiers doc trivial

instance (kind : VariableKind) (type : Option TypeExpr) (initial : Option Expr) :
    Keeping (Parse.declare name span modifiers doc (.variable kind type initial)) :=
  declare name span modifiers doc trivial

instance (params : List TypeParam) (type : TypeExpr) :
    Keeping (Parse.declare name span modifiers doc (.typeAlias params type)) :=
  declare name span modifiers doc trivial

instance (params : List TypeParam) (bases : List TypeExpr) (members : List TypeMember) :
    Keeping (Parse.declare name span modifiers doc (.interface params bases members)) :=
  declare name span modifiers doc trivial

instance (params : List TypeParam) (base : Option TypeExpr) (implemented : List TypeExpr)
    (members : List ClassMember) :
    Keeping (Parse.declare name span modifiers doc (.class params base implemented members)) :=
  declare name span modifiers doc trivial

variable {name span modifiers doc}

/-- A declaration with what is declared in it. -/
theorem entering {shape : DeclarationShape} {f : DeclIndex → Parse β}
    (hf : ∀ (d : Declaration) (c : Setting) (s : ParseState), d.shape = shape →
      Yields (f s.declarations.size) c (s.entered d) fun _ s' => s.Keeps s') :
    Keeping (Parse.declare name span modifiers doc shape >>= f) :=
  ⟨fun c s => hf ⟨name, span, modifiers, doc, shape, s.context.parent⟩ c s rfl⟩

end Keeping

/-- Going on after a declaration was entered. -/
theorem Yields.keep {p : Parse α} [hp : Keeping p] {f : α → Parse β} {c : Setting}
    {s₀ s : ParseState} {Q : β → ParseState → Prop} (h : s₀.Keeps s)
    (hf : ∀ a s', s₀.Keeps s' → Yields (f a) c s' Q) : Yields (p >>= f) c s Q :=
  hf _ _ (h.trans (hp.keeps c s))

end Parse

namespace Productions

open Parse ParseState

/-- Statements and modules within themselves enter members of enums in enums only. -/
class Keeping (g : Productions) : Prop where
  statements : Parse.Keeping g.statements
  module : ∀ start doc modifiers, Parse.Keeping (g.module start doc modifiers)

namespace Keeping

variable (g : Productions) (start : ℕ) (doc : Option String) (modifiers : Modifiers)

open Parse.Keeping (bind)

-- a production of many parts has an instance of many parts
set_option synthInstance.maxSize 10000

/-! ### Modules and enums -/

theorem moduleBody (hg : Keeping g) (name : Ident) (naming : ModuleNaming) :
    Parse.Keeping (g.moduleBody start doc modifiers name naming) := by
  have hstatements := hg.statements
  unfold Productions.moduleBody
  refine .entering fun d c s hd => ?_
  extract_lets tail
  have htail {body : Option (List Statement)} {s' : ParseState} (h : (s.entered d).Keeps s') :
      Yields (tail body) c s' fun _ s' => s.Keeps s' := by
    refine .look fun span => h.complete (by rw [hd]; trivial) (fun _ => trivial) ?_
    rintro ⟨members, hshape⟩
    rw [hd] at hshape
    cases hshape
  refine .keep (.refl _) fun isOpen s₁ h₁ => ?_
  split
  · exact .keep h₁ fun statements s₂ h₂ => .keep h₂ fun _ s₃ h₃ => htail h₃
  · exact .keep h₁ fun _ s₂ h₂ => htail h₂

theorem moduleProduction (hg : Keeping g) :
    Parse.Keeping (g.moduleProduction start doc modifiers) := by
  have hmodule := hg.module
  have hbody := moduleBody g start doc modifiers hg
  unfold Productions.moduleProduction
  refine bind inferInstance fun isString => ?_
  split
  · infer_instance
  · refine bind inferInstance fun name => bind inferInstance fun isDotted => ?_
    split
    · refine .entering fun d c s hd => .keep (.refl _) fun _ s₁ h₁ => ?_
      extract_lets inner
      refine .look fun position => .keep h₁ fun j s₂ h₂ => .look fun span => ?_
      refine h₂.complete (by rw [hd]; trivial) (fun _ => trivial) ?_
      rintro ⟨members, hshape⟩
      rw [hd] at hshape
      cases hshape
    · infer_instance

variable [hquiet : Quiet g]

/-- In the body of an enum, members may be entered. -/
theorem enumMember {c : Setting} {s : ParseState} {k : DeclIndex}
    (hparent : s.context.parent = some k) (hk : s.EnumAt k) :
    Yields g.enumMember c s fun _ s' => s.Keeps s' := by
  unfold Productions.enumMember
  refine .isAtAny ?_
  split
  · exact .pure (.refl s)
  · refine .keep (.refl s) fun doc s₁ h₁ => .keep h₁ fun start s₂ h₂ => .isAtAny ?_
    split
    · refine .keep h₂ fun name s₃ h₃ => .keep h₃ fun initial s₄ h₄ => .keep h₄ fun span s₅ h₅ => ?_
      have hheld : s₅.HoldsMember ⟨name, span, [], doc, .enumMember initial, s₅.context.parent⟩ :=
        fun _ => ⟨k, h₅.parent.trans hparent, h₅.enum hk⟩
      exact .bind (P := fun _ s' => s.Keeps s') (h₅.trans (entered_keeps hheld))
        fun i s₆ h₆ => .keep h₆ fun _ s₇ h₇ => .pure h₇
    · exact .keep h₂ fun _ s₃ h₃ => .keep h₃ fun _ s₄ h₄ => .pure h₄

instance : Parse.Keeping (g.enumDeclaration start doc modifiers) := by
  unfold Productions.enumDeclaration
  refine bind inferInstance fun _ => bind inferInstance fun name => .entering fun d c s hd => ?_
  let s₀ := (s.entered d).inBody s.declarations.size
  have hopen : s₀.EnumAt s.declarations.size := ⟨d, Array.getElem?_push_size, [], hd⟩
  refine .inBodyOf (P := fun _ s' => s₀.Keeps s') ?_ fun members s₁ h₁ => .look fun span => ?_
  · refine .keep (.refl s₀) fun isOpen s₁ h₁ => ?_
    split
    · refine .bind (collect_yields (I := fun _ s' => s₀.Keeps s') (R := fun _ s' => s₀.Keeps s')
        (fun _ s₂ h => ?_) (fun _ _ h => h.trans (.of_eq rfl rfl))
        (fun _ _ h => h.trans (.of_eq rfl rfl)) h₁)
        fun members s₂ h₂ => .keep h₂ fun _ s₃ h₃ => .pure h₃
      refine (enumMember g h.parent (h.enum hopen)).mono fun r s₃ hr => ?_
      exact ⟨h.trans hr, fun _ => h.trans hr⟩
    · exact .pure h₁
  · exact h₁.outOf.complete (by rw [hd]; trivial) (fun _ => trivial) fun _ _ => ⟨members, rfl⟩

/-! ### Other declarations -/

instance : Parse.Keeping (g.functionDeclaration start doc modifiers) := by
  unfold Productions.functionDeclaration
  infer_instance

instance (kind : VariableKind) : Parse.Keeping (g.declarator kind doc modifiers) := by
  unfold Productions.declarator
  infer_instance

instance : Parse.Keeping (g.variableStatement doc modifiers) := by
  unfold Productions.variableStatement
  refine bind inferInstance fun t => bind inferInstance fun _ => bind (.collect ?_) ?_ <;>
    infer_instance

instance : Parse.Keeping (g.typeAlias start doc modifiers) := by
  unfold Productions.typeAlias
  infer_instance

instance : Parse.Keeping (g.interfaceDeclaration start doc modifiers) := by
  unfold Productions.interfaceDeclaration
  infer_instance

instance : Parse.Keeping (g.classDeclaration start doc modifiers) := by
  unfold Productions.classDeclaration
  infer_instance

theorem declaration? (hg : Keeping g) : Parse.Keeping (g.declaration? start doc modifiers) := by
  have hbody := moduleBody g start doc modifiers hg
  have hmodule := moduleProduction g start doc modifiers hg
  unfold Productions.declaration?
  extract_lets one declared
  have hone (p : Parse DeclIndex) [Parse.Keeping p] : Parse.Keeping (one p) :=
    bind inferInstance fun _ => inferInstance
  have hdeclared : Parse.Keeping declared := by
    unfold declared
    infer_instance
  refine bind inferInstance fun isWord => ?_
  split
  · infer_instance
  · refine bind inferInstance fun t => ?_
    split <;> infer_instance

/-! ### Statements -/

instance : Parse.Keeping markModule :=
  bind inferInstance fun s => by
    split
    · exact ⟨fun _ _ => .of_eq rfl rfl⟩
    · infer_instance

instance (isExport : Bool) : Parse.Keeping (importStatement start isExport) := by
  unfold importStatement
  infer_instance

instance (keyword : Span) : Parse.Keeping (g.exportDefault start doc keyword) := by
  unfold Productions.exportDefault
  infer_instance

theorem exportStatement (hg : Keeping g) (keyword : Span) :
    Parse.Keeping (g.exportStatement start doc keyword) := by
  have hdeclaration (modifiers : Modifiers) := declaration? g start doc modifiers hg
  unfold Productions.exportStatement
  repeat' first | infer_instance | refine bind inferInstance fun _ => ?_ | split | dsimp only

theorem statement (hg : Keeping g) : Parse.Keeping g.statement := by
  have hdeclaration (start : ℕ) (doc : Option String) (modifiers : Modifiers) :=
    declaration? g start doc modifiers hg
  have hexport (start : ℕ) (doc : Option String) (keyword : Span) :=
    exportStatement g start doc hg keyword
  unfold Productions.statement
  repeat' first | infer_instance | refine bind inferInstance fun _ => ?_ | split

theorem statementList (hg : Keeping g) (inBody : Bool) :
    Parse.Keeping (g.statementList inBody) := by
  have hstatement := statement g hg
  refine .collect ?_
  have hstart (start : ℕ) : Parse.Keeping (modify fun s : ParseState =>
      { s with firstStatement := s.firstStatement.or (some start) } : Parse Unit) :=
    ⟨fun _ _ => .of_eq rfl rfl⟩
  unfold statementStep
  infer_instance

theorem ofDepth (n : ℕ) : Keeping (ofDepth n) := by
  induction n with
  | zero =>
    exact ⟨inferInstanceAs (Parse.Keeping (beyond (return []))), fun start doc modifiers =>
      bind inferInstance fun _ => .declare _ _ _ _ trivial⟩
  | succ n ih =>
    exact ⟨statementList _ ih true, fun start doc modifiers =>
      moduleProduction _ start doc modifiers ih⟩

end Keeping

end Productions

/-- A member of an enum has an enum for its parent. -/
theorem SourceFile.parse_members (name : String) (text : List Char) {i : DeclIndex}
    {d : Declaration} (hd : (parse name text).declaration? i = some d) (hmember : d.IsMember) :
    ∃ j e, d.parent = some j ∧ (parse name text).declaration? j = some e ∧ e.IsEnum := by
  have hkeeps : (ParseState.start text).Keeps (statementsOf name text).2 :=
    (Productions.Keeping.statementList _ (Productions.Keeping.ofDepth (text.length + 1)) false).keeps
      _ _
  have hnone : ∀ d ∈ (ParseState.start text).declarations, (ParseState.start text).HoldsMember d :=
    fun d hd => absurd hd (by simp [ParseState.start, Parse.next])
  obtain ⟨j, hj, e, he, henum⟩ := hkeeps.members hnone d (Array.mem_of_getElem? hd) hmember
  exact ⟨j, e, hj, he, henum⟩

end ApiSurface
