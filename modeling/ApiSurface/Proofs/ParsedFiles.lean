import ApiSurface.Proofs.DeclaringProductions
/-!
What parsing a whole file makes: a table of declarations whose names stand one after the other, and
statements that list them without listing any twice.
-/
namespace ApiSurface

namespace Productions

open Parse ParseState

/-! ### Statements that declare nothing -/

/-- A parser whose statement is no declaration. -/
class Undeclaring (p : Parse Statement) : Prop where
  ne : ∀ (c : Setting) (s : ParseState) (i : DeclIndex), (p c s).1 ≠ .declaration i

namespace Undeclaring

-- a production of many parts has an instance of many parts
set_option synthInstance.maxSize 10000

instance {α : Type} (p : Parse α) (f : α → Parse Statement) [hf : ∀ a, Undeclaring (f a)] :
    Undeclaring (p >>= f) := ⟨fun c _ i => (hf _).ne c _ i⟩

instance (b : Prop) [Decidable b] (p q : Parse Statement) [hp : Undeclaring p]
    [hq : Undeclaring q] : Undeclaring (if b then p else q) := by split <;> assumption

instance (span : Span) (typeOnly : Bool) (default nameSpace : Option Ident)
    (named : List ImportSpecifier) (specifier : String) : Undeclaring
      (pure (.importFrom span typeOnly default nameSpace named specifier)) :=
  ⟨fun _ _ _ => Statement.noConfusion⟩

instance (span : Span) (name : Ident) (isExport : Bool) (target : ImportTarget) :
    Undeclaring (pure (.importEquals span name isExport target)) :=
  ⟨fun _ _ _ => Statement.noConfusion⟩

instance (span : Span) (typeOnly : Bool) (specifiers : List ExportSpecifier)
    (specifier : Option String) :
    Undeclaring (pure (.exportNamed span typeOnly specifiers specifier)) :=
  ⟨fun _ _ _ => Statement.noConfusion⟩

instance (span : Span) (exportedAs : Option Ident) (specifier : String) :
    Undeclaring (pure (.exportAll span exportedAs specifier)) :=
  ⟨fun _ _ _ => Statement.noConfusion⟩

instance (span : Span) (isEquals : Bool) (target : EntityName) :
    Undeclaring (pure (.exportAssignment span isEquals target)) :=
  ⟨fun _ _ _ => Statement.noConfusion⟩

instance (span : Span) : Undeclaring (pure (.unknown span)) :=
  ⟨fun _ _ _ => Statement.noConfusion⟩

instance (start : ℕ) (typeOnly : Bool) (default nameSpace : Option Ident)
    (named : List ImportSpecifier) :
    Undeclaring (importEnd start typeOnly default nameSpace named) := by
  unfold importEnd
  infer_instance

instance (start : ℕ) (name : Ident) (isExport : Bool) :
    Undeclaring (importEquals start name isExport) := by
  unfold importEquals
  infer_instance

instance (start : ℕ) (typeOnly : Bool) (default : Option Ident) :
    Undeclaring (importNames start typeOnly default) := by
  unfold importNames
  infer_instance

instance (start : ℕ) (isExport : Bool) : Undeclaring (importStatement start isExport) := by
  unfold importStatement
  infer_instance

instance (start : ℕ) (typeOnly : Bool) : Undeclaring (exportList start typeOnly) := by
  unfold exportList
  infer_instance

instance (start : ℕ) : Undeclaring (exportAll start) := by
  unfold exportAll
  infer_instance

instance (start : ℕ) (isEquals : Bool) : Undeclaring (exportAssignment start isEquals) := by
  unfold exportAssignment
  infer_instance

instance (start : ℕ) : Undeclaring (unknownStatement start) := by
  unfold unknownStatement
  infer_instance

end Undeclaring

/-! ### Statements -/

variable {g : Productions} [Quiet g] {c : Setting} {s s₁ : ParseState} {n : ℕ}

theorem undeclaring_yields {p : Parse Statement} [Passing p] [hp : Undeclaring p]
    (hs : s.Tidy) (h : s.Passes s₁) :
    Yields p c s₁ fun statement s' => s.Declares s' [statement] := by
  refine fun n => ((h.trans (Passing.passes c s₁ h.ordered)).adds hs).weaken fun f _ => ?_
  rw [SourceFile.boundIn_singleton (hp.ne c s₁)]

/-- A single statement. -/
theorem single_yields {p : Parse Statement}
    (h : Yields p c s₁ fun statement s' => s.Declares s' [statement]) :
    Yields (do return [← p]) c s₁ fun statements s' => s.Declares s' statements :=
  .bind h fun _ _ h => .pure h

theorem exportDefault_declares (hs : s.Tidy) (hfresh : s.Fresh) {keyword : Span}
    (hname : s.Names s₁ ⟨"default", keyword⟩) (hlead : 0 < keyword.start) (start : ℕ)
    (doc : Option String) : Yields (g.exportDefault start doc keyword) c s₁ fun statement s' =>
      s.Declares s' [statement] := by
  unfold exportDefault
  refine .past hname fun isWhole s₂ hname => ?_
  split
  · exact undeclaring_yields hs hname.passes
  · refine .past hname fun initial s₃ hname => .past hname fun _ s₄ hname =>
      .past hname fun span s₅ hname => ?_
    exact .bind (declare_yields hs hfresh hname (Or.inl hlead) (by trivial)) fun i s' h =>
      .pure h.2.1

/-- An export from after `default` on. -/
theorem defaultExport_declares (hg : g.Declaring n) (hs : s.Tidy)
    (hword : s.current.kind = .identifier) (hpos : 0 < s.pos) (hahead : s.ahead ≤ n) (start : ℕ)
    (doc : Option String) :
    Yields (do
      let modifiers := withModifiers [.exported, .default] (← declarationModifiers)
      let declared ← do
        if ← isAtWords ["function", "class", "interface"] then g.declaration? start doc modifiers
        else pure none
      match declared with
      | some statements => return statements
      | none => return [← g.exportDefault start doc s.current.span]) c (next s)
      fun statements s' => s.Declares s' statements := by
  have hfirst := next_passes hs.ordered
  have hkeyword := names_next hs.ordered (ne_end_of_word hword) "default"
  refine .past hkeyword fun found s₁ h₁ => .past h₁ fun isDeclaration s₂ h₂ => ?_
  extract_lets tail
  have hdefault {s' : ParseState} (h : s.Names s' ⟨"default", s.current.span⟩) :
      Yields (tail none) c s' fun statements s' => s.Declares s' statements :=
    single_yields (exportDefault_declares hs (hs.fresh hword) h hpos start doc)
  split
  · refine .bind (declaration_declares hg (h₂.passes.tidy hs)
      (Nat.le_trans h₂.passes.ahead_le hahead) start doc _) fun declared s₃ h₃ => ?_
    cases declared with
    | some statements => exact .pure (h₃.1.after h₂.passes)
    | none => exact hdefault (h₂.andThen (h₃.2 rfl))
  · exact hdefault h₂

theorem exportStatement_declares (hg : g.Declaring n) (hs : s.Tidy) (hpos : 0 < s.pos)
    (hahead : s.ahead ≤ n) (start : ℕ) (doc : Option String) (keyword : Span) :
    Yields (g.exportStatement start doc keyword) c s fun statements s' =>
      s.Declares s' statements := by
  unfold exportStatement
  refine .pass (.refl hs.ordered) fun isAll s₁ h₁ => ?_
  split
  · exact single_yields (undeclaring_yields hs h₁)
  refine .pass h₁ fun isEquals s₂ h₂ => ?_
  split
  · refine .pass h₂ fun isWhole s₃ h₃ => ?_
    split
    · exact single_yields (undeclaring_yields hs h₃)
    · exact .pass h₃ fun _ s₄ h₄ => single_yields (undeclaring_yields hs h₄)
  refine .pass h₂ fun isAs s₃ h₃ => .pass h₃ fun isNamespace s₄ h₄ => ?_
  split
  · exact single_yields (undeclaring_yields hs h₄)
  refine .pass h₄ fun isImport s₅ h₅ => ?_
  split
  · exact single_yields (undeclaring_yields hs h₅)
  refine .pass h₅ fun isType s₆ h₆ => .pass h₆ fun isList s₇ h₇ => ?_
  extract_lets typeOnly tail
  have htail {s' : ParseState} (h : s.Passes s') : Yields (tail ()) c s' fun statements s' =>
      s.Declares s' statements := by
    refine .pass h fun isList s₁ h₁ => ?_
    split
    · exact single_yields (undeclaring_yields hs h₁)
    refine .isAtWord ?_
    split
    · next hdefault =>
      have hword : s₁.current.kind = .identifier := by
        simp only [Token.isWord, Bool.and_eq_true, beq_iff_eq] at hdefault
        exact hdefault.1
      refine .current (.advance ?_)
      exact (defaultExport_declares hg (h₁.tidy hs) hword (Nat.lt_of_lt_of_le hpos h₁.pos_le)
        (Nat.le_trans h₁.ahead_le hahead) start doc).mono fun statements s' h => h.after h₁
    · refine .pass h₁ fun found s₂ h₂ => ?_
      refine .bind (declaration_declares hg (h₂.tidy hs) (Nat.le_trans h₂.ahead_le hahead) start doc
        (withModifiers [.exported] found)) fun declared s₃ h₃ => ?_
      cases declared with
      | some statements => exact .pure (h₃.1.after h₂)
      | none =>
        exact .pass (h₂.trans (h₃.2 rfl)) fun _ s₄ h₄ => single_yields (undeclaring_yields hs h₄)
  split
  · exact .pass h₇ fun _ s₈ h₈ => htail h₈
  · exact htail h₇

theorem statement_declares (hg : g.Declaring n) (hs : s.Tidy) (hahead : s.ahead ≤ n) :
    Yields g.statement c s fun statements s' => s.Declares s' statements := by
  unfold statement
  refine .pass (.refl hs.ordered) fun doc s₁ h₁ => .pass h₁ fun start s₂ h₂ =>
    .pass h₂ fun isNone s₃ h₃ => ?_
  split
  · exact .pure (h₃.declares hs)
  refine .pass h₃ fun isDecorated s₄ h₄ => ?_
  extract_lets tail
  have htail {s' : ParseState} (h : s.Passes s') : Yields (tail ()) c s' fun statements s' =>
      s.Declares s' statements := by
    refine .pass h fun isImport s₁ h₁ => .pass h₁ fun after s₂ h₂ => ?_
    split
    · exact single_yields (undeclaring_yields hs h₂)
    refine .isAtWord ?_
    split
    · next hexport =>
      have hend : s₂.current.kind ≠ .endOfFile := by
        simp only [Token.isWord, Bool.and_eq_true, beq_iff_eq] at hexport
        exact ne_end_of_word hexport.1
      have hpos := Nat.zero_lt_of_lt (next_passed h₂.ordered hend).1
      have hnext := h₂.trans (next_passes h₂.ordered)
      refine .current (.advance (.bind (Passing.yields hnext.ordered) fun _ s₃ h₃ => ?_))
      have hall := hnext.trans h₃
      exact (exportStatement_declares hg (hall.tidy hs) (Nat.lt_of_lt_of_le hpos h₃.pos_le)
        (Nat.le_trans hall.ahead_le hahead) start doc _).mono fun statements s' h => h.after hall
    · refine .pass h₂ fun found s₃ h₃ => ?_
      refine .bind (declaration_declares hg (h₃.tidy hs) (Nat.le_trans h₃.ahead_le hahead) start doc
        found) fun declared s₄ h₄ => ?_
      cases declared with
      | some statements => exact .pure (h₄.1.after h₃)
      | none => exact single_yields (undeclaring_yields hs (h₃.trans (h₄.2 rfl)))
  split
  · exact .pass h₄ fun _ s₅ h₅ => htail h₅
  · exact htail h₄

theorem statementStep_declares (hg : g.Declaring n) (hs : s.Tidy) (hahead : s.ahead ≤ n)
    (inBody : Bool) :
    Yields (g.statementStep inBody) c s fun r s' => s.Declares s' r.1 := by
  unfold statementStep
  refine .pass (.refl hs.ordered) fun isEnd s₁ h₁ => ?_
  split
  · split
    · exact .pass h₁ fun _ s₂ h₂ => .pure (h₂.declares hs)
    · exact .pure (h₁.declares hs)
  refine .pass h₁ fun isClosed s₂ h₂ => ?_
  split
  · exact .pure (h₂.declares hs)
  refine .pass h₂ fun start s₃ h₃ => ?_
  extract_lets tail
  have htail {s' : ParseState} (h : s.Passes s') : Yields (tail ()) c s' fun r s' =>
      s.Declares s' r.1 := by
    refine .bind (statement_declares hg (h.tidy hs) (Nat.le_trans h.ahead_le hahead))
      fun statements s₄ h₄ => ?_
    have hall := h₄.after h
    refine .bind (Passing.yields hall.tidy.ordered) fun after s₅ h₅ =>
      .pass h₅ fun isEnd s₆ h₆ => ?_
    split
    · exact .pass h₆ fun _ s₇ h₇ => .pass h₇ fun _ s₈ h₈ => .pure (hall.andThen h₈)
    · exact .pure (hall.andThen h₆)
  split
  · refine .bind (P := fun _ s' => s.Passes s') ?_ fun _ s₄ h₄ => htail h₄
    exact h₃.trans (.of_eq h₃.ordered rfl rfl rfl)
  · exact htail h₃

theorem statementList_declares (hg : g.Declaring n) (hs : s.Tidy) (hahead : s.ahead ≤ n)
    (inBody : Bool) :
    Yields (g.statementList inBody) c s fun statements s' => s.Declares s' statements := by
  refine collect_yields (I := fun statements s' => s.Declares s' statements)
    (fun statements s₁ h => ?_) (fun _ _ h => h.andThen (.stall h.tidy.ordered))
    (fun _ _ h => h.andThen (.stall h.tidy.ordered)) ((Passes.refl hs.ordered).declares hs)
  refine (statementStep_declares hg h.tidy (Nat.le_trans (h 0).ahead_le hahead) inBody).mono
    fun r s₂ hr => ?_
  exact ⟨h.append hr, fun _ => h.append hr⟩

/-- Productions within each other `n` deep declare what is claimed while fewer than `n` characters
are left, as each takes a token before it enters one again. -/
theorem ofDepth_declaring (n : ℕ) : (ofDepth n).Declaring n := by
  induction n with
  | zero => exact ⟨fun _ _ _ hlt => absurd hlt (Nat.not_lt_zero _),
      fun _ _ _ _ _ _ _ hlt => absurd hlt (Nat.not_lt_zero _)⟩
  | succ n ih =>
    exact ⟨fun c s hs hlt => statementList_declares ih hs (Nat.le_of_lt_succ hlt) true,
      fun c s start doc modifiers hs hready hlt =>
        moduleProduction_declares ih hs hready (Nat.le_of_lt_succ hlt) start doc modifiers⟩

end Productions

namespace ParseState

/-- A text starts with nothing declared. -/
theorem start_tidy (text : List Char) : (start text).Tidy where
  ordered := next_ordered _
  increasing i j d e hij hd := absurd hd (by simp [start, Parse.next])
  behind d hd := absurd hd (Array.not_mem_empty d)
  fresh _ d hd := absurd hd (Array.not_mem_empty d)
  leading d hd := absurd hd (Array.not_mem_empty d)
  members d hd := absurd hd (Array.not_mem_empty d)

theorem start_ahead_le (text : List Char) : (start text).ahead ≤ text.length :=
  Nat.le_trans (ahead_next_le _) (Lexer.ofText_rest_le text)

end ParseState

namespace SourceFile

/-- What is known of the table of declarations of a file and of those that its statements list. -/
structure Tidy (f : SourceFile) : Prop where
  increasing : ∀ (i j : DeclIndex) (d e : Declaration), i < j → f.declaration? i = some d →
    f.declaration? j = some e → d.offset < e.offset
  leading : ∀ (i : DeclIndex) (d : Declaration), f.declaration? i = some d →
    0 < d.offset ∨ d.MayLead
  nodup : ∀ n, (f.boundIn n f.statements).Nodup
  bound : ∀ (n : ℕ) (i : DeclIndex), i ∈ f.boundIn n f.statements →
    ∃ d, f.declaration? i = some d ∧ ¬ d.IsGlobal
  members : ∀ (i : DeclIndex) (d : Declaration), f.declaration? i = some d →
    d.ListsMembers f.declarations

/-- What the statements of a file declare. -/
theorem statementsOf_declares (name : String) (text : List Char) :
    (ParseState.start text).Declares (statementsOf name text).2 (statementsOf name text).1 :=
  Productions.statementList_declares (Productions.ofDepth_declaring _) (ParseState.start_tidy text)
    (Nat.le_succ_of_le (ParseState.start_ahead_le text)) false

theorem parse_tidy (name : String) (text : List Char) : (parse name text).Tidy := by
  let last := (statementsOf name text).2
  have hall : (ParseState.start text).Declares last (parse name text).statements :=
    statementsOf_declares name text
  have hheld : (ParseState.start text).HeldBy last (parse name text) := fun _ _ _ => rfl
  have hlast := hall.tidy
  constructor
  case increasing => exact hlast.increasing
  case leading => exact fun i d hd => hlast.leading d (Array.mem_of_getElem? hd)
  case nodup => exact fun n => (hall n).nodup _ hheld
  case members => exact fun i d hd => hlast.members d (Array.mem_of_getElem? hd)
  case bound =>
    intro n i hi
    have hlt : i < last.declarations.size := ((hall n).range _ hheld i hi).2
    exact ⟨_, Array.getElem?_eq_getElem hlt, (hall n).bound _ hheld i hi _
      (Array.getElem?_eq_getElem hlt)⟩

end SourceFile

end ApiSurface
