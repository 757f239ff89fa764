import ApiSurface.Proofs.GrownTables
import ApiSurface.Proofs.SteadyParsing
/-!
The first statement of a file. A constant that is declared there, and an expression that is exported
by default, are initialized with what is read behind the words before it. What the first statement
declares is still in the table at the end of the file.
-/
namespace ApiSurface

/-- The declaration is a constant with an initializer and no type that is written down. -/
structure Declaration.IsConstant (name : String) (initial : Expr) (d : Declaration) : Prop where
  text : d.name.text = name
  shape : d.shape = .variable .const none (some initial)

/-! ### What comes first -/

namespace Parse

variable {α β : Type} {c : Setting} {s : ParseState}

/-- Looking at tokens, with what is seen. -/
theorem Yields.seen {p : Parse α} [hp : Still p] {f : α → Parse β} {Q : β → ParseState → Prop}
    (h : Yields (f (p c s).1) c s Q) : Yields (p >>= f) c s Q := by
  show Yields (f (p c s).1) c (p c s).2 Q
  rwa [hp.state]

theorem Yields.peek {f : Token → Parse β} {Q : β → ParseState → Prop}
    (h : Yields (f (next s).current) c s Q) : Yields (peek >>= f) c s Q := .seen h

theorem Yields.reject {kind : TokenKind} {f : Bool → Parse β} {Q : β → ParseState → Prop}
    (hkind : s.current.kind ≠ kind) (h : Yields (f false) c s Q) :
    Yields (accept kind >>= f) c s Q := by
  show Yields (f (accept kind c s).1) c (accept kind c s).2 Q
  rwa [accept_run_of_ne hkind]

theorem Yields.accept {kind : TokenKind} {f : Bool → Parse β} {Q : β → ParseState → Prop}
    (hkind : s.current.kind = kind) (h : Yields (f true) c (next s) Q) :
    Yields (accept kind >>= f) c s Q := by
  have hrun : Parse.accept kind c s = (true, next s) := by
    show (if s.current.kind == kind then (do Parse.advance; return true : Parse Bool)
      else return false) c s = _
    rw [if_pos (beq_iff_eq.mpr hkind)]
    rfl
  show Yields (f (Parse.accept kind c s).1) c (Parse.accept kind c s).2 Q
  rwa [hrun]

/-- A repetition whose first step asks for no more. -/
theorem iterate_run_of_end {σ : Type} {step : σ → Parse (σ × Bool)} {x y : σ} {s' : ParseState}
    (h : Yields (step x) c s fun r s₁ => r = (y, false) ∧ s₁ = s') :
    iterate step x c s = (y, s') := by
  have h : step x c s = ((y, false), s') := Prod.ext h.1 h.2
  have hstep : stepOn step x c s = ((y, false), s') := by
    show (if (step x c s).1.2 && (step x c s).2.pos ≤ s.pos then
      (do stall; return (step x c s).1 : Parse (σ × Bool)) else return (step x c s).1) c
        (step x c s).2 = _
    rw [h]
    rfl
  show (if (stepOn step x c s).1.2 then iterateFrom step s.rest (stepOn step x c s).1.1
    else return (stepOn step x c s).1.1) c (stepOn step x c s).2 = _
  rw [hstep]
  rfl

/-- What a repetition finds first stays first, and what holds of it stays so while declarations are
entered. -/
theorem collect_yields_head {step : Parse (List α × Bool)} {T : α → ParseState → Prop}
    (hT : ∀ x s s' listed, T x s → s.Lists s' listed → T x s')
    (hstep : ∀ s, s.Ordered → Yields step c s fun _ s' => ∃ listed, s.Lists s' listed)
    (hs : s.Ordered) (hfirst : Yields step c s fun r s' => ∃ x ∈ r.1.head?, T x s') :
    Yields (collect step) c s fun xs s' => s'.Ordered ∧ ∃ x ∈ xs.head?, T x s' := by
  have hstall (xs : List α) (s : ParseState) : (s.Ordered ∧ ∃ x ∈ xs.head?, T x s) →
      ({ s with stalled := true } : ParseState).Ordered ∧
        ∃ x ∈ xs.head?, T x { s with stalled := true } := by
    rintro ⟨hs, x, hx, hTx⟩
    exact ⟨hs.of_eq rfl, x, hx, hT x _ _ _ hTx (ParseState.Passes.stall hs).lists⟩
  have hboth : Yields step c s fun r s' => s'.Ordered ∧ ∃ x ∈ r.1.head?, T x s' := by
    obtain ⟨listed, hlists⟩ := hstep s hs
    exact ⟨hlists.ordered, hfirst⟩
  refine collect_yields_of_first (I := fun xs s' => s'.Ordered ∧ ∃ x ∈ xs.head?, T x s')
    (hboth.mono fun r s' h => ⟨h, fun _ => h⟩) (fun xs s₁ h => ?_) hstall hstall
  obtain ⟨hs₁, x, hx, hTx⟩ := h
  refine (hstep s₁ hs₁).mono ?_
  rintro r s₂ ⟨listed, hlists⟩
  have hhead : x ∈ (xs ++ r.1).head? := by
    rw [List.head?_append, Option.mem_def.mp hx]
    rfl
  have hafter := hT x _ _ _ hTx hlists
  exact ⟨⟨hlists.ordered, x, hhead, hafter⟩, fun _ => ⟨hlists.ordered, x, hhead, hafter⟩⟩

end Parse

/-! ### Modifiers -/

/-- Whether two tokens in a row would be read as modifiers of a declaration: a word that is one with
another word behind it on its line, or `const` before `enum`. -/
def Token.opensModifiers (t following : Token) : Bool :=
  ["declare", "abstract", "async", "default"].any t.isWord &&
      (following.kind == .identifier && !following.afterBreak) ||
    t.isWord "const" && following.isWord "enum"

namespace Productions

open Parse

variable {c : Setting} {s : ParseState}

theorem declarationModifiers_none
    (h : s.current.opensModifiers (next s).current = false) :
    declarationModifiers c s = ([], s) := by
  obtain ⟨hword, henum⟩ := Bool.or_eq_false_iff.mp h
  unfold declarationModifiers
  refine iterate_run_of_end (.current ?_)
  dsimp only
  split
  -- a word that is a modifier only before another one on its line
  · next m hmodifier =>
    have hany : ["declare", "abstract", "async", "default"].any s.current.isWord = true := by
      grind
    rw [hany, Bool.true_and] at hword
    refine .seen ?_
    show Yields (if (nextIsIdentifierOnLine c s).1 = true then _ else _) c s _
    have hnone : (nextIsIdentifierOnLine c s).1 = false := hword
    rw [hnone]
    exact ⟨rfl, rfl⟩
  · refine .seen ?_
    have hother : (s.current.isWord "const" && (nextIsWord "enum" c s).1) = false := henum
    rw [hother]
    exact ⟨rfl, rfl⟩

/-! ### Constants -/

variable {g : Productions}

/-- The table holds a declaration of which something is known. -/
def Holds (P : Declaration → Prop) (i : DeclIndex) (s : ParseState) : Prop :=
  ∃ d, s.declarations[i]? = some d ∧ P d

theorem Holds.lists {P : Declaration → Prop} {i : DeclIndex} {s' : ParseState}
    {listed : List DeclIndex} (h : Holds P i s) (hs : s.Lists s' listed) : Holds P i s' := by
  obtain ⟨d, hd, hP⟩ := h
  obtain ⟨new, hnew⟩ := hs
  exact ⟨d, hnew.kept hd, hP⟩

/-- A declarator of a name and an initializer. -/
theorem declarator_yields (hname : s.current.kind = .identifier)
    (hequals : (next s).current.kind = .equals) (doc : Option String) (modifiers : Modifiers) :
    Yields (g.declarator .const doc modifiers) c s fun is s' => ∃ i ∈ is.head?,
      Holds (·.IsConstant s.current.value (g.expression c (next (next s))).1) i s' := by
  have hbrace : [TokenKind.openBrace, .openBracket].contains s.current.kind = false := by
    rw [hname]
    rfl
  have hcolon : Yields (whenever (accept .colon) g.type) c (next s) fun type s' =>
      type = none ∧ s' = next s := by
    refine .reject (by rw [hequals]; decide) ?_
    exact ⟨rfl, rfl⟩
  have hinitial : Yields g.initializer c (next s) fun initial _ =>
      initial = some (g.expression c (next (next s))).1 := by
    refine .accept hequals ?_
    exact rfl
  have hidentifier : Yields identifier c s fun name s' =>
      name.text = s.current.value ∧ s' = next s := by
    unfold identifier
    refine .isAt ?_
    rw [hname]
    exact ⟨rfl, rfl⟩
  unfold declarator
  refine .isAtAny ?_
  rw [hbrace]
  refine .bind hidentifier ?_
  rintro name _ ⟨hname, rfl⟩
  refine .reject (by rw [hequals]; decide) ?_
  refine .bind hcolon ?_
  rintro type _ ⟨rfl, rfl⟩
  refine .bind hinitial ?_
  rintro initial s₁ rfl
  exact ⟨_, rfl, _, Array.getElem?_push_size, hname, rfl⟩

/-- The first of some constants, of a name and an initializer. -/
theorem variableStatement_yields [Quiet g] (hs : s.Ordered) (hvalue : s.current.value = "const")
    (hname : (next s).current.kind = .identifier)
    (hequals : (next (next s)).current.kind = .equals) (doc : Option String)
    (modifiers : Modifiers) :
    Yields (g.variableStatement doc modifiers) c s fun is s' =>
      ∃ i ∈ is.head?, Holds (·.IsConstant (next s).current.value
        (g.expression c (next (next (next s)))).1) i s' := by
  let T := Holds (·.IsConstant (next s).current.value (g.expression c (next (next (next s)))).1)
  have hfirst := ParseState.next_passes hs
  unfold variableStatement
  refine .current ?_
  rw [hvalue]
  refine .advance (.bind (collect_yields_head (T := T) (fun i _ _ _ => Holds.lists) ?_
    hfirst.ordered ?_) fun is s₁ h₁ => ?_)
  · intro s₂ h₂
    refine .bind (declarator_grows h₂ .const doc modifiers) fun is s₃ h₃ =>
      .bind (Passing.yields h₃.ordered) fun more s₄ h₄ => .pure ⟨is, h₃.andThen h₄⟩
  · have hnew : Yields (g.declarator .const doc modifiers) c (next s) fun is s' =>
        (next s).Lists s' is ∧ ∃ i ∈ is.head?, T i s' :=
      ⟨declarator_grows hfirst.ordered .const doc modifiers,
        declarator_yields hname hequals doc modifiers⟩
    refine .bind hnew fun is s₂ h₂ => .bind (Passing.yields h₂.1.ordered) fun more s₃ h₃ => .pure ?_
    obtain ⟨i, hi, hT⟩ := h₂.2
    exact ⟨i, hi, hT.lists h₃.lists⟩
  · refine .bind (Passing.yields h₁.1) fun _ s₂ h₂ => .pure ?_
    obtain ⟨i, hi, hT⟩ := h₁.2
    exact ⟨i, hi, hT.lists h₂.lists⟩

theorem isWord_of_ne {t : Token} {word : String} (h : t.value ≠ word) : t.isWord word = false := by
  rw [Token.isWord, beq_eq_false_iff_ne.mpr h, Bool.and_false]

/-- A statement that starts with a word and is no import. -/
theorem statement_yields (hkind : s.current.kind = .identifier) (himport : s.current.value ≠ "import")
    {Q : List Statement → ParseState → Prop}
    (hexport : s.current.isWord "export" = true → ∀ doc start, Yields (do
        advance
        markModule
        g.exportStatement start doc s.current.span) c s Q)
    (hother : s.current.isWord "export" = false → ∀ doc start, Yields (do
        let modifiers ← declarationModifiers
        match ← g.declaration? start doc modifiers with
        | some statements => return statements
        | none => return [← unknownStatement start]) c s Q) :
    Yields g.statement c s Q := by
  have hat : ¬ (s.current.kind == .at_) = true := by
    rw [hkind]
    decide
  unfold statement
  refine .look fun doc => .look fun start => .reject (by rw [hkind]; decide) (.isAt ?_)
  extract_lets tail
  rw [if_neg hat]
  refine .isAtWord (.peek ?_)
  rw [isWord_of_ne himport]
  refine .isAtWord ?_
  cases hword : s.current.isWord "export" with
  | true => exact .current (hexport hword doc start)
  | false => exact hother hword doc start

/-- Before a word that is none, a declaration has no modifiers. -/
theorem unmodified_yields {β : Type} {f : Modifiers → Parse β} {Q : β → ParseState → Prop}
    (hplain : s.current.opensModifiers (next s).current = false) (h : Yields (f []) c s Q) :
    Yields (declarationModifiers >>= f) c s Q := by
  show Yields (f (declarationModifiers c s).1) c (declarationModifiers c s).2 Q
  rwa [declarationModifiers_none hplain]

/-- A constant of a name and an initializer. -/
theorem constant_yields [Quiet g] (hs : s.Ordered) (hconst : s.current.kind = .identifier)
    (hvalue : s.current.value = "const") (hname : (next s).current.kind = .identifier)
    {name : String} (htext : (next s).current.value = name) (henum : name ≠ "enum")
    (hequals : (next (next s)).current.kind = .equals) :
    Yields g.statement c s fun statements s' => ∃ i, .declaration i ∈ statements.head? ∧
      Holds (·.IsConstant name (g.expression c (next (next (next s)))).1) i s' := by
  subst htext
  have hplain : s.current.opensModifiers (next s).current = false := by
    simp [Token.opensModifiers, Token.isWord, hvalue, henum]
  refine statement_yields hconst (by rw [hvalue]; decide) (fun hexport => ?_) fun _ doc start =>
    unmodified_yields hplain ?_
  · rw [isWord_of_ne (by rw [hvalue]; decide)] at hexport
    cases hexport
  refine .bind (P := fun found s' => ∃ is : List DeclIndex, found = some (is.map .declaration) ∧
    ∃ i ∈ is.head?, Holds (·.IsConstant (next s).current.value
      (g.expression c (next (next (next s)))).1) i s') ?_ ?_
  · unfold declaration?
    refine .isAt ?_
    rw [hconst]
    refine .current ?_
    rw [hvalue]
    refine .bind (variableStatement_yields hs hvalue hname hequals doc []) fun is s' h => .pure ?_
    exact ⟨is, rfl, h⟩
  · rintro _ s' ⟨is, rfl, i, hi, hd⟩
    refine .pure ⟨i, ?_, hd⟩
    rw [List.head?_map, Option.mem_def.mp hi]
    rfl

/-! ### Default exports -/

/-- A parser that enters a declaration and gives it back, which is no variable. -/
class NoVariable (p : Parse DeclIndex) : Prop where
  holds : ∀ (c : Setting) (s : ParseState),
    Holds (fun d => ∀ name initial, ¬ d.IsConstant name initial) (p c s).1 (p c s).2

-- a production of many parts has an instance of many parts
set_option synthInstance.maxSize 10000

namespace NoVariable

variable {name : Ident} {span : Span} {modifiers : Modifiers} {doc : Option String}

instance {α : Type} (p : Parse α) (f : α → Parse DeclIndex) [hf : ∀ a, NoVariable (f a)] :
    NoVariable (p >>= f) := ⟨fun c _ => (hf _).holds c _⟩

instance (b : Prop) [Decidable b] (p q : Parse DeclIndex) [hp : NoVariable p] [hq : NoVariable q] :
    NoVariable (if b then p else q) := by split <;> assumption

theorem declare {shape : DeclarationShape}
    (h : ∀ initial, shape ≠ .variable .const none (some initial)) :
    NoVariable (declare name span modifiers doc shape) :=
  ⟨fun _ _ => ⟨_, Array.getElem?_push_size, fun _ initial hd => h initial hd.shape⟩⟩

instance (signature : Signature) (body : Option FunctionBody) :
    NoVariable (Parse.declare name span modifiers doc (.function signature body)) := declare nofun

instance (typeParams : List TypeParam) (extends_ : List TypeExpr) (members : List TypeMember) :
    NoVariable (Parse.declare name span modifiers doc (.interface typeParams extends_ members)) :=
  declare nofun

instance (typeParams : List TypeParam) (extends_ : Option TypeExpr) (implements : List TypeExpr)
    (members : List ClassMember) :
    NoVariable (Parse.declare name span modifiers doc (.class typeParams extends_ implements members)) :=
  declare nofun

variable (start : ℕ)

instance : NoVariable (g.functionDeclaration start doc modifiers) := by
  unfold functionDeclaration
  dsimp only
  infer_instance

instance : NoVariable (g.interfaceDeclaration start doc modifiers) := by
  unfold interfaceDeclaration
  infer_instance

instance : NoVariable (g.classDeclaration start doc modifiers) := by
  unfold classDeclaration
  dsimp only
  infer_instance

end NoVariable

/-- If the declaration is a constant, it is initialized with the expression that starts in a state,
whatever has been noted there of the file and of the run. -/
def InitialAt (g : Productions) (c : Setting) (s : ParseState) (d : Declaration) : Prop :=
  ∀ name initial, d.IsConstant name initial →
    ∃ isModule stalled, initial = (g.expression c { s with isModule, stalled }).1

/-- What is known of a declaration, if the statement is one. -/
def Tells (P : Declaration → Prop) (x : Statement) (s : ParseState) : Prop :=
  ∀ i, x = .declaration i → Holds P i s

/-- Where a function, class or interface could start, one is entered or nothing is taken. -/
theorem declaration_yields (hword : (isAtWords ["function", "class", "interface"] c s).1 = true)
    (start : ℕ) (doc : Option String) (modifiers : Modifiers) :
    Yields (g.declaration? start doc modifiers) c s fun found s' => (found = none ∧ s' = s) ∨
      ∃ i, found = some [.declaration i] ∧
        Holds (fun d => ∀ name initial, ¬ d.IsConstant name initial) i s' := by
  have hone {p : Parse DeclIndex} [hp : NoVariable p] :
      Yields (do return some [.declaration (← p)]) c s fun found s' => (found = none ∧ s' = s) ∨
        ∃ i, found = some [Statement.declaration i] ∧
          Holds (fun d => ∀ name initial, ¬ d.IsConstant name initial) i s' :=
    .inr ⟨_, rfl, hp.holds c s⟩
  obtain ⟨hkind, hword⟩ := Bool.and_eq_true_iff.mp hword
  have hword : s.current.value = "function" ∨ s.current.value = "class" ∨
      s.current.value = "interface" := by simpa using hword
  unfold declaration?
  refine .isAt ?_
  rw [hkind]
  refine .current ?_
  rcases hword with hword | hword | hword <;> rw [hword]
  · exact hone
  · exact hone
  · refine .look fun isName => ?_
    split
    · exact hone
    · exact .inl ⟨rfl, rfl⟩

/-- To see whether a name makes up a statement changes nothing but a mark. -/
theorem isAtWholeName_state (c : Setting) (s : ParseState) :
    ∃ stalled, (isAtWholeName c s).2 = { s with stalled } := by
  have hquiet : Parse.Quiet (do let _ ← entityName; canEndStatement) := inferInstance
  show ∃ stalled, ((if (!(s.current.kind == .identifier)) = true then return false else
    lookAhead (do let _ ← entityName; canEndStatement) : Parse Bool) c s).2 = { s with stalled }
  split
  · exact ⟨s.stalled, rfl⟩
  · rw [hquiet.lookAhead_run]
    exact ⟨_, rfl⟩

theorem exportDefault_yields (start : ℕ) (doc : Option String) (keyword : Span) :
    Yields (g.exportDefault start doc keyword) c s fun x s' => Tells (InitialAt g c s) x s' := by
  obtain ⟨stalled, hstate⟩ := isAtWholeName_state c s
  unfold exportDefault
  refine .bind (P := fun _ s' => s' = { s with stalled }) hstate ?_
  rintro isWhole _ rfl
  split
  · exact fun i hi => absurd hi (Undeclaring.ne (p := exportAssignment start false) c _ i)
  · refine .bind (P := fun initial _ => initial = (g.expression c { s with stalled }).1) rfl ?_
    rintro initial s₁ rfl i hi
    obtain rfl := Statement.declaration.inj hi
    refine ⟨_, Array.getElem?_push_size, fun name initial hd => ⟨s.isModule, stalled, ?_⟩⟩
    exact (Option.some.inj (DeclarationShape.variable.inj hd.shape).2.2).symm

/-- What is exported by default, unless it begins with what could be modifiers. -/
theorem exportStatement_yields (hkind : s.current.kind = .identifier)
    (hvalue : s.current.value = "default")
    (hplain : (next s).current.opensModifiers (next (next s)).current = false) (start : ℕ)
    (doc : Option String) (keyword : Span) :
    Yields (g.exportStatement start doc keyword) c s fun statements s' =>
      ∃ x ∈ statements.head?, Tells (InitialAt g c (next s)) x s' := by
  have hno {word : String} (hne : "default" ≠ word) : s.current.isWord word = false :=
    isWord_of_ne (hvalue ▸ hne)
  have hdefault : s.current.isWord "default" = true := by
    rw [Token.isWord, hkind, hvalue]
    rfl
  have hend {span : Span} : Yields (do return [← g.exportDefault start doc span]) c (next s)
      fun statements s' => ∃ x ∈ statements.head?, Tells (InitialAt g c (next s)) x s' :=
    (exportDefault_yields start doc span).bind fun x s' h => ⟨x, rfl, h⟩
  unfold exportStatement
  -- the forms of export that are tried before
  refine .reject (by rw [hkind]; decide) (.reject (by rw [hkind]; decide) (.isAtWord ?_))
  rw [hno (by decide)]
  refine .look fun isNamespace => .isAtWord ?_
  rw [hno (by decide)]
  refine .isAtWord ?_
  rw [hno (by decide)]
  refine .look fun isList => .isAt ?_
  rw [beq_eq_false_iff_ne.mpr (by rw [hkind]; decide)]
  refine .isAtWord ?_
  rw [hdefault]
  refine .current (.advance (unmodified_yields hplain (.seen ?_)))
  split
  · next hword =>
    refine .bind (declaration_yields hword start doc _) ?_
    rintro _ s' (⟨rfl, rfl⟩ | ⟨i, rfl, d, hd, hvariable⟩)
    · exact hend
    -- a function, class or interface is no constant
    · refine ⟨_, rfl, fun i' hi => ⟨d, Statement.declaration.inj hi ▸ hd, ?_⟩⟩
      exact fun name initial hconst => absurd hconst (hvariable name initial)
  · exact hend

/-- A file that exports something by default. -/
theorem export_yields (hkind : s.current.kind = .identifier) (hvalue : s.current.value = "export")
    (hdefault : (next s).current.kind = .identifier) (hword : (next s).current.value = "default")
    (hplain : (next (next s)).current.opensModifiers (next (next (next s))).current = false) :
    Yields g.statement c s fun statements s' =>
      ∃ x ∈ statements.head?, Tells (InitialAt g c (next (next s))) x s' := by
  have hexport : s.current.isWord "export" = true := by
    rw [Token.isWord, hkind, hvalue]
    rfl
  refine statement_yields hkind (by rw [hvalue]; decide) (fun _ doc start => .advance ?_)
    fun hother => absurd hexport (Bool.eq_false_iff.mp hother)
  refine .bind (P := fun _ s' => ∃ isModule, s' = { next s with isModule }) ?_ ?_
  · show ∃ isModule, ((if (next s).context.parent.isNone = true then
      modify ({ · with isModule := true }) else pure () : Parse Unit) c (next s)).2 =
        { next s with isModule }
    split
    · exact ⟨true, rfl⟩
    · exact ⟨(next s).isModule, rfl⟩
  · rintro _ _ ⟨isModule, rfl⟩
    exact exportStatement_yields (s := { next s with isModule }) hdefault hword hplain start doc _

/-! ### The first statement of a file -/

theorem Tells.lists {P : Declaration → Prop} {x : Statement} {s' : ParseState}
    {listed : List DeclIndex} (h : Tells P x s) (hs : s.Lists s' listed) : Tells P x s' :=
  fun i hi => (h i hi).lists hs

/-- What holds of the first statement still does at the end of the file. -/
theorem statementList_yields [Quiet g] (hg : g.Growing) (hs : s.Ordered)
    (hkind : s.current.kind ≠ .endOfFile) {first : ℕ} (hfirst : s.firstStatement = some first)
    {T : Statement → ParseState → Prop} (hT : ∀ x s s' listed, T x s → s.Lists s' listed → T x s')
    (h : Yields g.statement c s fun statements s' => ∃ x ∈ statements.head?, T x s') :
    Yields (g.statementList false) c s fun statements s' => ∃ x ∈ statements.head?, T x s' := by
  -- where the first statement starts is noted once
  have hnoted (start : ℕ) : { s with firstStatement := s.firstStatement.or (some start) } = s := by
    obtain ⟨_, _, _, _, _, _, _, _, _⟩ := s
    obtain rfl := hfirst
    rfl
  have hboth : Yields g.statement c s fun statements s' =>
      s.Lists s' (declaredIn statements) ∧ ∃ x ∈ statements.head?, T x s' :=
    ⟨statement_grows hg (.refl hs), h⟩
  have hlater (s : ParseState) (hs : s.Ordered) : Yields (g.statementStep false) c s fun _ s' =>
      ∃ listed, s.Lists s' listed :=
    (statementStep_grows hg hs false).mono fun r s' h => ⟨_, h⟩
  refine (collect_yields_head hT hlater hs ?_).mono fun _ _ h => h.2
  unfold statementStep
  refine .isAt ?_
  rw [beq_eq_false_iff_ne.mpr hkind]
  refine .look fun isClosed => ?_
  rw [Bool.false_and]
  refine .look fun start => ?_
  extract_lets tail
  refine .bind (P := fun _ s' => s' = s) (hnoted start) ?_
  rintro _ _ rfl
  refine .bind hboth fun statements s₁ h₁ => .look fun after => .look fun isEnd => ?_
  obtain ⟨hlists, x, hx, hTx⟩ := h₁
  split
  · refine .pass (.refl hlists.ordered) fun _ s₂ h₂ => .pass h₂ fun _ s₃ h₃ => .pure ?_
    exact ⟨x, hx, hT x _ _ _ hTx h₃.lists⟩
  · exact ⟨x, hx, hTx⟩

end Productions

end ApiSurface
