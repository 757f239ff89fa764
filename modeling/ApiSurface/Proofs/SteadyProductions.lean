import ApiSurface.Proofs.QuietProductions
import ApiSurface.Proofs.SteadyParsing
/-!
The productions make progress: each takes a token before it enters a production again.
-/
namespace ApiSurface

namespace Productions

open Parse

/-- Productions that may be entered as long as fewer than `k` characters are left. -/
class Steady (g : Productions) (k : ℕ) : Prop where
  type : Parse.Steady k true false g.type
  operandType : Parse.Steady k true false g.operandType
  expression : Parse.Steady k true false g.expression
  operand : Parse.Steady k true false g.operand
  statements : Parse.Steady k true false g.statements
  module : ∀ (start : ℕ) (doc : Option String) (modifiers : Modifiers),
    Parse.Steady k true false (g.module start doc modifiers)

namespace Steady

variable {α : Type} {k : ℕ} {taken inside : Bool} (g : Productions) [hg : Steady g k]

open Advances (bind excluded find look shown)

-- a production of many parts has an instance of many parts
set_option synthInstance.maxSize 10000

instance : Parse.Steady k true inside g.type := hg.type.outside

instance : Parse.Steady k true inside g.operandType := hg.operandType.outside

instance : Parse.Steady k true inside g.expression := hg.expression.outside

instance : Parse.Steady k true inside g.operand := hg.operand.outside

instance : Parse.Steady k true inside g.statements := hg.statements.outside

instance (start : ℕ) (doc : Option String) (modifiers : Modifiers) :
    Parse.Steady k true inside (g.module start doc modifiers) :=
  (hg.module start doc modifiers).outside

instance : Parse.Steady k true inside g.freeType := by
  unfold freeType
  infer_instance

instance (kind : TokenKind) [Known kind.isInner true] :
    Parse.Steady k taken inside (g.typeAfter kind) := by
  unfold typeAfter
  infer_instance

instance : Parse.Steady k taken inside g.initializer := by
  unfold initializer
  infer_instance

/-! ### Signatures -/

instance : Parse.Steady k taken inside g.typeArguments := by
  unfold typeArguments
  infer_instance

instance : Parse.Steady k taken inside g.typeArgumentsOnLine := by
  unfold typeArgumentsOnLine
  infer_instance

instance : Parse.Steady k taken inside g.typeParameter := by
  unfold typeParameter
  infer_instance

instance : Parse.Steady k taken inside g.typeParameters := by
  unfold typeParameters
  infer_instance

instance : Parse.Steady k taken inside g.decorators := by
  unfold decorators
  infer_instance

instance (words : List (String × Modifier)) (mayFollow : TokenKind → Bool) :
    Parse.Steady k taken inside (modifiersOf words mayFollow) := by
  unfold modifiersOf
  -- the end of the text is no word, so no modifier is found there
  refine .iterate (fun found => .current (fun t ht => ?_) fun _ t ht => ?_) []
  · split <;> infer_instance
  · split
    · next hfind =>
      have hword := List.find?_some hfind
      exact absurd hword (by simp [Token.isWord, ht])
    · infer_instance

instance : Parse.Steady k taken inside g.parameter := by
  unfold parameter
  infer_instance

instance : Parse.Steady k taken inside g.parameters := by
  unfold parameters
  infer_instance

instance : Parse.Steady k true inside g.resultType := by
  unfold resultType
  infer_instance

instance : Parse.Steady k taken inside g.signature := by
  unfold signature
  infer_instance

instance : Parse.Steady k true inside g.arrowSignature := by
  unfold arrowSignature
  infer_instance

instance : Parse.Steady k taken inside isAtIndexSignature := by
  unfold isAtIndexSignature
  infer_instance

instance : Parse.Steady k taken inside g.indexSignature := by
  unfold indexSignature
  infer_instance

instance : Parse.Steady k taken inside propertyName := by
  unfold propertyName
  refine bind inferInstance fun t => ?_
  split <;> infer_instance

section Kinds

variable {c : Setting} {s : ParseState}

/-- At an angle bracket, type arguments take a token. -/
theorem typeArguments_reaches (h : s.Within k taken inside) (hkind : s.current.kind = .less) :
    Reaches s (fun _ => true) (g.typeArguments c s) := by
  unfold typeArguments
  exact .of_answer inferInstance h (accept_answer hkind) inferInstance

/-- A function type takes a token before its result. -/
theorem arrowSignature_reaches (h : s.Within k taken inside)
    (hkind : s.current.kind = .less ∨ s.current.kind = .openParen) :
    Reaches s (fun _ => true) (g.arrowSignature c s) := by
  unfold arrowSignature
  -- the first token goes to the type parameters, or else to the parameters
  rcases hkind with hless | hparen
  · have hfirst : Reaches s (fun _ => true) (g.typeParameters c s) := by
      unfold typeParameters
      exact .of_answer inferInstance h (accept_answer hless) inferInstance
    exact hfirst.bind h fun _ => inferInstance
  · have hnone : g.typeParameters c s = ([], s) := by
      unfold typeParameters
      rw [bind_run (accept_run_of_ne (by rw [hparen]; decide))]
      rfl
    have hfirst : Reaches s (fun _ => true) (g.parameters c s) := by
      unfold parameters
      exact .of_answer inferInstance h (expect_answer hparen) inferInstance
    rw [bind_run hnone]
    exact hfirst.bind h fun _ => inferInstance

end Kinds

/-! ### Types -/

variable [hquiet : Quiet g]

instance (word : String) : Parse.Steady k taken inside (isAtMemberModifier word) := by
  unfold isAtMemberModifier
  infer_instance

instance : Parse.Steady k taken inside g.accessorMember := by
  unfold accessorMember
  infer_instance

instance : Parse.Steady k taken inside g.typeMemberShape := by
  unfold typeMemberShape
  refine bind inferInstance fun t => ?_
  split <;> infer_instance

instance : Parse.Steady k taken inside g.typeMember := by
  unfold typeMember
  infer_instance

instance : Parse.Steady k taken inside g.typeMembers := by
  unfold typeMembers
  infer_instance

instance (start : ℕ) (value : LiteralType) :
    Parse.Steady k taken inside (literalType start value) := by
  unfold literalType
  infer_instance

instance (start : ℕ) (isTypeof : Bool) :
    Parse.Steady k taken inside (g.moduleType start isTypeof) := by
  unfold Productions.moduleType
  dsimp only
  infer_instance

instance : Parse.Steady k taken inside g.wordType := by
  unfold wordType
  infer_instance

instance : Parse.Steady k true inside g.tupleItem := by
  unfold tupleItem
  infer_instance

instance : Parse.Steady k taken true g.tupleType := by
  unfold tupleType
  infer_instance

instance : Parse.Steady k taken inside isAtMappedType := by
  unfold isAtMappedType
  infer_instance

instance : Looking isAtMappedType := by
  unfold isAtMappedType
  infer_instance

instance (present expected : Parse Bool)
    [∀ taken inside, Parse.Steady k taken inside present]
    [∀ taken inside, Parse.Steady k taken inside expected] :
    Parse.Steady k taken inside (mappedModifier present expected) := by
  unfold mappedModifier
  infer_instance

instance : Parse.Steady k taken true g.mappedType := by
  unfold mappedType
  infer_instance

instance : Parse.Steady k taken inside g.standingType := by
  unfold standingType
  refine .current (fun t ht => ?_) fun _ t ht => ?_
  · dsimp only
    split <;> infer_instance
  · rw [ht]
    infer_instance

instance : Parse.Steady k taken inside g.suffixedType := by
  unfold suffixedType
  infer_instance

instance : Parse.Steady k taken inside operandFollows := by
  unfold operandFollows
  infer_instance

instance : Parse.Steady k taken inside typeOperator? := by
  unfold typeOperator?
  infer_instance

instance : Finding typeOperator? := by
  unfold typeOperator?
  infer_instance

instance : Looking operandFollows := by
  unfold operandFollows
  infer_instance

instance : Parse.Steady k taken inside g.inferBound := by
  unfold inferBound
  infer_instance

instance : Parse.Steady k taken inside g.operatedType := by
  unfold operatedType
  dsimp only
  refine bind inferInstance fun start => find inferInstance inferInstance (fun op => ?_)
    inferInstance
  refine look inferInstance inferInstance fun follows => look inferInstance inferInstance
    fun operator? => ?_
  split <;> infer_instance

instance (sign : TokenKind) (part : Parse TypeExpr) (make : List TypeExpr → TypeShape)
    [Known sign.isInner true] [∀ taken inside, Parse.Steady k taken inside part] :
    Parse.Steady k taken inside (signedList sign part make) := by
  unfold signedList
  infer_instance

instance : Parse.Steady k taken inside g.intersectionType := by
  unfold intersectionType
  infer_instance

instance : Parse.Steady k taken inside g.unionType := by
  unfold unionType
  infer_instance

instance : Parse.Steady k taken inside isAtFunctionType := by
  unfold isAtFunctionType
  infer_instance

instance : Looking isAtFunctionType := by
  unfold isAtFunctionType
  infer_instance

theorem kind_of_isAtFunctionType {c : Setting} {s : ParseState}
    (h : (isAtFunctionType c s).1 = true) :
    s.current.kind = .less ∨ s.current.kind = .openParen := by
  unfold isAtFunctionType at h
  change ((if s.current.kind == .less then (return true : Parse Bool) else
    (do if !(← isAt .openParen) then return false else lookAhead _)) c s).1 = true at h
  split at h
  · next hless => exact Or.inl (eq_of_beq hless)
  · change ((if !(s.current.kind == .openParen) then (return false : Parse Bool) else
      lookAhead _) c s).1 = true at h
    split at h
    · cases h
    · next hparen => exact Or.inr (by simpa using hparen)

instance : Parse.Steady k taken inside g.branches := by
  unfold branches
  infer_instance

instance : Parse.Steady k taken inside g.typeForm := by
  unfold typeForm
  -- the parameters of a function type are only known to take a token by the look ahead
  refine look inferInstance inferInstance fun start => ⟨fun c s h => ?_⟩
  refine .look inferInstance inferInstance h fun s' hcurrent h' => ?_
  cases hanswer : (isAtFunctionType c s).1 with
  | true =>
    have hkind := kind_of_isAtFunctionType hanswer
    rw [← hcurrent] at hkind
    exact (arrowSignature_reaches g h' hkind).bind h' fun _ => inferInstance
  | false => exact Advances.reaches c s' h'

instance : Parse.Steady k taken inside g.typeProduction := by
  unfold typeProduction
  infer_instance

/-! ### Expressions -/

instance (start : ℕ) (shape : ExprShape) : Parse.Steady k taken inside (exprFrom start shape) := by
  unfold exprFrom
  infer_instance

instance : Parse.Steady k taken inside isAtArrowParameters := by
  unfold isAtArrowParameters
  infer_instance

instance : Parse.Steady k taken inside g.arrowHead := by
  unfold arrowHead
  infer_instance

instance : Finding g.arrowHead := by
  unfold arrowHead
  infer_instance

instance : Parse.Steady k taken inside g.arrowForm := by
  unfold arrowForm
  dsimp only
  infer_instance

instance : Parse.Steady k taken inside g.arrowFunction := by
  unfold arrowFunction
  infer_instance

instance : Parse.Steady k taken true g.arrayLiteral := by
  unfold arrayLiteral
  dsimp only
  infer_instance

instance : Parse.Steady k taken inside g.method := by
  unfold method
  infer_instance

instance : Parse.Steady k true inside g.objectItem := by
  unfold objectItem
  infer_instance

instance : Parse.Steady k taken true g.objectLiteral := by
  unfold objectLiteral
  infer_instance

instance : Parse.Steady k taken inside g.wordExpression := by
  unfold wordExpression
  refine bind inferInstance fun start => bind inferInstance fun t => ?_
  dsimp only
  split <;> infer_instance

instance : Parse.Steady k taken inside g.primary := by
  unfold primary
  refine .current (fun t ht => ?_) fun _ t ht => ?_
  · dsimp only
    split <;> infer_instance
  · rw [ht]
    infer_instance

instance : Looking g.isAtGenericCall := by
  unfold isAtGenericCall
  infer_instance

instance : Parse.Steady k taken inside g.isAtGenericCall := by
  unfold isAtGenericCall
  infer_instance

instance (start : ℕ) (e : Expr) (optional : Bool) :
    Parse.Steady k taken inside (memberAccess start e optional) := by
  unfold memberAccess
  dsimp only
  refine bind inferInstance fun b => ?_
  split
  · refine bind inferInstance fun name => ?_
    split <;> infer_instance
  · infer_instance

instance (start : ℕ) (e : Expr) : Stepping k taken false (g.suffixStep start e) := by
  unfold suffixStep
  refine ⟨fun c s h => .of_current ?_⟩
  -- type arguments stand behind a look ahead, from which the current token is still known
  by_cases hless : s.current.kind = .less
  · rw [hless]
    refine .look inferInstance inferInstance h fun s' hcurrent h' => ?_
    cases (g.isAtGenericCall c s).1 with
    | true => exact (typeArguments_reaches g h' (hcurrent ▸ hless)).bind h' fun _ => inferInstance
    | false => exact Advances.reaches c s' h'
  · by_cases hend : s.current.kind = .endOfFile
    · rw [hend]
      exact Advances.reaches c s h
    · refine Advances.after ?_ (.refl h.ordered) (h.inner hend)
      split <;> first | infer_instance | exact absurd ‹_› hless

instance : Parse.Steady k taken inside g.suffixed := by
  unfold suffixed
  infer_instance

instance : Parse.Steady k taken inside g.operandProduction := by
  unfold operandProduction
  refine bind inferInstance fun start => .current (fun t ht => ?_) fun _ t ht => ?_
  · split <;> infer_instance
  · rw [unaryOperator?, ht]
    infer_instance

instance (start : ℕ) (e : Expr) : Parse.Steady k taken inside (g.assertions start e) := by
  unfold assertions
  infer_instance

instance : Parse.Steady k taken inside g.expressionForm := by
  unfold expressionForm
  refine bind inferInstance fun start => bind inferInstance fun arrow? => ?_
  split <;> infer_instance

instance : Parse.Steady k taken inside g.expressionProduction := by
  unfold expressionProduction
  infer_instance

/-! ### Members of classes -/

instance : Parse.Steady k taken inside g.classAccessor := by
  unfold classAccessor
  infer_instance

instance : Parse.Steady k taken inside g.namedMember := by
  unfold namedMember
  infer_instance

instance : Parse.Steady k taken inside g.classMemberShape := by
  unfold classMemberShape
  infer_instance

instance : Parse.Steady k taken inside g.classMember := by
  unfold classMember
  infer_instance

instance : Parse.Steady k taken inside g.classMembers := by
  unfold classMembers
  infer_instance

/-! ### Parts of declarations -/

instance : Parse.Steady k taken inside skipHeritage := by
  unfold skipHeritage
  infer_instance

instance : Parse.Steady k taken inside g.heritageType := by
  unfold heritageType
  infer_instance

instance : Parse.Steady k taken inside g.heritageList := by
  unfold heritageList
  infer_instance

instance : Parse.Steady k taken inside isBeforeModuleName := by
  unfold isBeforeModuleName
  infer_instance

instance : Parse.Steady k taken inside declarationModifiers := by
  unfold declarationModifiers
  refine .iterate (fun found => .current (fun t ht => ?_) fun _ t ht => ?_) []
  · dsimp only
    split <;> infer_instance
  · have hword (word : String) : t.isWord word = false := by simp [Token.isWord, ht]
    simp only [hword, Bool.false_eq_true, if_false]
    infer_instance

/-! ### Imports and exports -/

instance : Parse.Steady k taken inside markModule := by
  unfold markModule
  refine bind inferInstance fun c => ?_
  split
  · exact Parse.Steady.of_goesOn fun _ _ h => .of_eq h.ordered rfl rfl
  · infer_instance

instance : Parse.Steady k taken inside skipAttributes := by
  unfold skipAttributes
  infer_instance

instance : Parse.Steady k taken inside isAtTypeOnlyImport := by
  unfold isAtTypeOnlyImport
  infer_instance

instance : Parse.Steady k taken inside isAtTypeOnlySpecifier := by
  unfold isAtTypeOnlySpecifier
  infer_instance

instance : Parse.Steady k taken inside importSpecifier := by
  unfold importSpecifier
  infer_instance

instance (start : ℕ) (typeOnly : Bool) (default nameSpace : Option Ident)
    (named : List ImportSpecifier) :
    Parse.Steady k taken inside (importEnd start typeOnly default nameSpace named) := by
  unfold importEnd
  infer_instance

instance (start : ℕ) (name : Ident) (isExport : Bool) :
    Parse.Steady k taken inside (importEquals start name isExport) := by
  unfold importEquals
  infer_instance

instance (start : ℕ) (typeOnly : Bool) (default : Option Ident) :
    Parse.Steady k taken inside (importNames start typeOnly default) := by
  unfold importNames
  infer_instance

instance (start : ℕ) (isExport : Bool) :
    Parse.Steady k taken inside (importStatement start isExport) := by
  unfold importStatement
  infer_instance

instance : Parse.Steady k taken inside exportSpecifier := by
  unfold exportSpecifier
  infer_instance

instance (start : ℕ) (typeOnly : Bool) :
    Parse.Steady k taken inside (exportList start typeOnly) := by
  unfold exportList
  infer_instance

instance (start : ℕ) : Parse.Steady k taken inside (exportAll start) := by
  unfold exportAll
  infer_instance

instance : Parse.Steady k taken inside isAtWholeName := by
  unfold isAtWholeName
  infer_instance

instance (start : ℕ) (isEquals : Bool) :
    Parse.Steady k taken inside (exportAssignment start isEquals) := by
  unfold exportAssignment
  infer_instance

instance (start : ℕ) : Parse.Steady k taken inside (unknownStatement start) := by
  unfold unknownStatement
  infer_instance

/-! ### Declarations -/

variable (start : ℕ) (doc : Option String) (modifiers : Modifiers)

instance : Parse.Steady k taken inside (g.functionDeclaration start doc modifiers) := by
  unfold functionDeclaration
  dsimp only
  infer_instance

instance (kind : VariableKind) : Parse.Steady k taken inside (g.declarator kind doc modifiers) := by
  unfold declarator
  infer_instance

instance : Parse.Steady k taken inside (g.variableStatement doc modifiers) := by
  unfold variableStatement
  infer_instance

instance : Parse.Steady k taken true (g.typeAlias start doc modifiers) := by
  unfold typeAlias
  infer_instance

instance : Parse.Steady k taken inside (g.interfaceDeclaration start doc modifiers) := by
  unfold interfaceDeclaration
  infer_instance

instance : Parse.Steady k taken inside (g.classDeclaration start doc modifiers) := by
  unfold classDeclaration
  dsimp only
  infer_instance

instance : Stepping k taken inside g.enumMember := by
  unfold enumMember
  infer_instance

instance : Parse.Steady k taken inside (g.enumDeclaration start doc modifiers) := by
  unfold enumDeclaration
  infer_instance

instance (name : Ident) (naming : ModuleNaming) :
    Parse.Steady k taken inside (g.moduleBody start doc modifiers name naming) := by
  unfold moduleBody
  dsimp only
  infer_instance

instance : Parse.Steady k taken inside (g.moduleProduction start doc modifiers) := by
  unfold moduleProduction
  infer_instance

instance : Parse.Steady k taken inside (g.declaration? start doc modifiers) := by
  unfold declaration?
  dsimp only
  refine shown inferInstance inferInstance ?_ inferInstance
  refine look inferInstance inferInstance fun t => ?_
  split <;> infer_instance

/-! ### Statements -/

instance (keyword : Span) : Parse.Steady k true inside (g.exportDefault start doc keyword) := by
  unfold exportDefault
  infer_instance

instance (keyword : Span) : Parse.Steady k taken inside (g.exportStatement start doc keyword) := by
  unfold exportStatement
  dsimp only
  infer_instance

instance : Parse.Steady k taken inside g.statement := by
  unfold statement
  dsimp only
  infer_instance

instance (inBody : Bool) : Stepping k taken false (g.statementStep inBody) := by
  unfold statementStep
  dsimp only
  refine excluded inferInstance inferInstance inferInstance ?_
  refine look inferInstance inferInstance fun isClosed => ?_
  split
  · infer_instance
  refine ⟨fun c s h => .of_position ?_⟩
  split
  -- where the first statement starts is noted before it is parsed
  · refine Reaches.look ⟨fun _ _ => rfl⟩
      (.of_goesOn fun _ _ h => .of_eq h.ordered rfl rfl) h fun s' hcurrent h' => ?_
    have hpos : s'.pos = s.pos := congrArg (·.span.start) hcurrent
    rw [← hpos]
    exact Parse.Steady.orReport inferInstance h' _
  · exact Parse.Steady.orReport inferInstance h _

instance (inBody : Bool) : Parse.Steady k taken inside (g.statementList inBody) := by
  unfold statementList
  infer_instance

end Steady

/-- No state allows to enter a production that may not be entered at all. -/
theorem steady_zero {α : Type} (p : Parse α) : Parse.Steady 0 true false p :=
  .of_goesOn fun _ _ h => absurd h.ahead_le (Nat.not_succ_le_zero _)

/-- Productions one level around steady ones are steady with one more token left. -/
instance (g : Productions) (k : ℕ) [Steady g k] [Quiet g] : Steady g.around (k + 1) where
  type := Advances.enter (inferInstance : Parse.Steady k false false g.typeProduction)
  operandType := Advances.enter (inferInstance : Parse.Steady k false false g.operatedType)
  expression := Advances.enter (inferInstance : Parse.Steady k false false g.expressionProduction)
  operand := Advances.enter (inferInstance : Parse.Steady k false false g.operandProduction)
  statements := Advances.enter (inferInstance : Parse.Steady k false false (g.statementList true))
  module start doc modifiers := Advances.enter
    (inferInstance : Parse.Steady k false false (g.moduleProduction start doc modifiers))

instance (n : ℕ) : Steady (ofDepth n) n := by
  induction n with
  | zero =>
    -- fewer than no characters are never left
    exact ⟨steady_zero _, steady_zero _, steady_zero _, steady_zero _, steady_zero _,
      fun _ _ _ => steady_zero _⟩
  | succ n ih => exact inferInstanceAs (Steady (ofDepth n).around (n + 1))

/-- The statements of a file end with the text. -/
theorem statementStep_end (g : Productions) {c : Setting} {s : ParseState}
    (h : (g.statementStep false c s).1.2 = false) :
    (g.statementStep false c s).2.current.kind = .endOfFile := by
  by_cases hend : s.current.kind = .endOfFile
  · have hat : isAt .endOfFile c s = (true, s) := by
      show (s.current.kind == .endOfFile, s) = _
      rw [beq_iff_eq.mpr hend]
    unfold statementStep
    rw [bind_run hat]
    exact hend
  · have hat : isAt .endOfFile c s = (false, s) := by
      show (s.current.kind == .endOfFile, s) = _
      rw [beq_eq_false_iff_ne.mpr hend]
    unfold statementStep at h
    rw [bind_run hat] at h
    exact absurd (h.symm.trans (Continuing.more c s)) Bool.false_ne_true

end Productions

end ApiSurface
