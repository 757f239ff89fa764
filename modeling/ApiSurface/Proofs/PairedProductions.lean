import ApiSurface.Proofs.PairedParsing
/-!
The productions of two parsers that go side by side. Each of them finds what is alike if the
productions that occur inside it do; so they do at every depth.
-/
namespace ApiSurface

namespace Productions

open Parse

/-- Productions of two parsers that find what is alike. -/
class Paired {c c' : Setting} (P : Pairing c c') (g g' : Productions) : Prop where
  type : Parse.Paired P g.type g'.type
  operandType : Parse.Paired P g.operandType g'.operandType
  expression : Parse.Paired P g.expression g'.expression
  operand : Parse.Paired P g.operand g'.operand
  statements : Parse.Paired P g.statements g'.statements
  module : ∀ (start start' : ℕ) (doc doc' : Option String) (modifiers : Modifiers),
    P.start start start' → P.Documented doc doc' →
      Parse.Paired P (g.module start doc modifiers) (g'.module start' doc' modifiers)

namespace Paired

open Parse.Paired (of ident takeIdent seen documented braced orAdvance)

variable {c c' : Setting} {P : Pairing c c'} {g g' : Productions} [hquiet : Quiet g]
  [hquiet' : Quiet g'] [hrun : Running g] [hg : Paired P g g']

-- a production of many parts has an instance of many parts
set_option synthInstance.maxSize 1000000

instance : Parse.Paired P g.type g'.type := hg.type

instance : Parse.Paired P g.operandType g'.operandType := hg.operandType

instance : Parse.Paired P g.expression g'.expression := hg.expression

instance : Parse.Paired P g.operand g'.operand := hg.operand

instance : Parse.Paired P g.statements g'.statements := hg.statements

instance (start start' : ℕ) (doc doc' : Option String) (modifiers : Modifiers)
    [h : Starts P.toLikeness start start'] [hd : Documents P.toLikeness doc doc'] :
    Parse.Paired P (g.module start doc modifiers) (g'.module start' doc' modifiers) :=
  hg.module start start' doc doc' modifiers h.start hd.documented

instance : Parse.Paired P g.freeType g'.freeType := by
  unfold freeType
  infer_instance

instance (kind : TokenKind) : Parse.Paired P (g.typeAfter kind) (g'.typeAfter kind) := by
  unfold typeAfter
  infer_instance

instance : Parse.Paired P g.initializer g'.initializer := by
  unfold initializer
  infer_instance

/-! ### Signatures -/

instance : Parse.Paired P g.typeArguments g'.typeArguments := by
  unfold typeArguments
  infer_instance

instance : Parse.Paired P g.typeArgumentsOnLine g'.typeArgumentsOnLine := by
  unfold typeArgumentsOnLine
  infer_instance

instance : Parse.Paired P g.typeParameter g'.typeParameter := by
  unfold typeParameter
  infer_instance

instance : Parse.Paired P g.typeParameters g'.typeParameters := by
  unfold typeParameters
  infer_instance

instance : Parse.Paired P g.decorators g'.decorators := by
  unfold decorators
  infer_instance

instance (words : List (String × Modifier)) (mayFollow : TokenKind → Bool) :
    Parse.Paired P (modifiersOf words mayFollow) (modifiersOf words mayFollow) := by
  unfold modifiersOf
  refine .iterate [] (fun found => .bind inferInstance fun t => ?_)
    fun found => ⟨.current fun t t' h _ => of ?_⟩
  · split <;> infer_instance
  · simp only [h.isWord]
    split <;> infer_instance

instance (s s' : Span) [h : Agree P.toLikeness s s'] : Agree.AgreeAsWritten P.toLikeness
    ⟨s.text c.text, s⟩ ⟨s'.text c'.text, s'⟩ := ⟨.inr (P.fragment h.alike), h.alike⟩

instance : Parse.Paired P g.parameter g'.parameter := by
  unfold parameter
  infer_instance

instance : Parse.Paired P g.parameters g'.parameters := by
  unfold parameters
  infer_instance

instance : Parse.Paired P g.resultType g'.resultType := by
  unfold resultType
  infer_instance

instance : Parse.Paired P g.signature g'.signature := by
  unfold signature
  infer_instance

instance : Parse.Paired P g.arrowSignature g'.arrowSignature := by
  unfold arrowSignature
  infer_instance

instance : Parse.Paired P isAtIndexSignature isAtIndexSignature := by
  unfold isAtIndexSignature
  infer_instance

instance : Parse.Paired P g.indexSignature g'.indexSignature := by
  unfold indexSignature
  infer_instance

instance (s s' : Span) [h : Agree P.toLikeness s s'] : Agree P.toLikeness
    (PropertyName.computed (s.text c.text) s) (.computed (s'.text c'.text) s') :=
  ⟨.computed (P.fragment h.alike) h.alike⟩

instance : Parse.Paired P propertyName propertyName := by
  unfold propertyName
  refine ⟨.current fun t t' h _ => ?_⟩
  have hspan : Agree P.toLikeness t.span t'.span := ⟨h.span⟩
  rw [h.kind]
  split
  · next hkind => exact ident (by simp +contextual [hkind])
  · next hkind => exact ident (by simp +contextual [hkind])
  · next hkind =>
    rw [h.value (hkind ▸ nofun)]
    exact of inferInstance
  · next hkind =>
    rw [h.value (hkind ▸ nofun)]
    exact of inferInstance
  · exact of inferInstance
  · exact of inferInstance

/-! ### Types -/

instance (word : String) : Parse.Paired P (isAtMemberModifier word) (isAtMemberModifier word) := by
  unfold isAtMemberModifier
  infer_instance

instance : Parse.Paired P g.accessorMember g'.accessorMember := by
  unfold accessorMember
  infer_instance

instance : Parse.Paired P g.typeMemberShape g'.typeMemberShape := by
  unfold typeMemberShape
  infer_instance

omit hquiet' hrun in
/-- A member starts before the end of the text. -/
theorem typeMember : P.Goes (· ≠ .endOfFile) (Comparable.alike P.toLikeness) g.typeMember
    g'.typeMember := by
  unfold Productions.typeMember
  exact documented fun x => inferInstance

instance : Parse.Paired P g.typeMembers g'.typeMembers := by
  unfold typeMembers
  refine braced inferInstance ⟨.isAtAny (of inferInstance) (.bind (orAdvance (.bind
    (typeMember.mono (by simp +contextual)) (fun _ => inferInstance) fun m m' h => ?_))
    (fun _ => inferInstance) fun m m' h => .pure ⟨.cons h .nil, rfl⟩)⟩
  have hmember : Agree P.toLikeness m m' := ⟨h⟩
  exact of inferInstance

instance (start start' : ℕ) (value : LiteralType) [Starts P.toLikeness start start'] :
    Parse.Paired P (literalType start value) (literalType start' value) := by
  unfold literalType
  infer_instance

instance (start start' : ℕ) (isTypeof : Bool) [Starts P.toLikeness start start'] :
    Parse.Paired P (g.moduleType start isTypeof) (g'.moduleType start' isTypeof) := by
  unfold Productions.moduleType
  dsimp only
  infer_instance

omit hquiet' hrun in
theorem wordType : P.Goes (· ≠ .template) (Comparable.alike P.toLikeness) g.wordType
    g'.wordType := by
  unfold Productions.wordType
  refine .see Seen.position fun p p' h => ?_
  have hstart : Starts P.toLikeness p p' := ⟨h⟩
  refine seen fun _ => .ite (fun _ => of inferInstance) fun _ => seen fun _ => seen fun _ =>
    .ite (fun _ => of inferInstance) fun _ => seen fun _ => seen fun _ =>
    .ite (fun _ => of inferInstance) fun _ => seen fun _ => seen fun _ =>
    .ite (fun _ => ident fun _ h => h) fun _ => of inferInstance

instance : Parse.Paired P g.tupleItem g'.tupleItem := by
  unfold tupleItem
  infer_instance

instance : Parse.Paired P g.tupleType g'.tupleType := by
  unfold tupleType
  infer_instance

instance : Parse.Paired P isAtMappedType isAtMappedType := by
  unfold isAtMappedType
  infer_instance

instance (present present' expected expected' : Parse Bool) [Parse.Quiet present]
    [Parse.Quiet expected] [Parse.Paired P present present'] [Parse.Paired P expected expected'] :
    Parse.Paired P (mappedModifier present expected) (mappedModifier present' expected') := by
  unfold mappedModifier
  infer_instance

instance : Parse.Paired P g.mappedType g'.mappedType := by
  unfold mappedType
  infer_instance

instance : Parse.Paired P g.standingType g'.standingType := by
  unfold standingType
  refine ⟨.current fun t t' h _ => ?_⟩
  have hstart : Starts P.toLikeness t.span.start t'.span.start := ⟨h.span.start⟩
  dsimp only
  rw [h.kind]
  split
  · exact of inferInstance
  · exact of inferInstance
  · exact of inferInstance
  · next hkind =>
    rw [h.value (hkind ▸ nofun)]
    exact of inferInstance
  · next hkind =>
    rw [h.value (hkind ▸ nofun)]
    exact of inferInstance
  · next hkind =>
    rw [h.value (hkind ▸ nofun)]
    exact of inferInstance
  · exact of inferInstance
  · next hkind => exact wordType.mono (by simp +contextual [hkind])
  · -- a number is read only from a token that is one
    refine .see Seen.peek fun a a' ha => ?_
    rw [ha.kind]
    refine .ite (fun hnumber => ?_) fun _ => .ite (fun hnumber => ?_) fun _ => of inferInstance
    all_goals
      rw [Bool.and_eq_true, beq_iff_eq, beq_iff_eq] at hnumber
      rw [ha.value (hnumber.2 ▸ nofun)]
      exact of inferInstance

instance : Parse.Paired P g.suffixedType g'.suffixedType := by
  unfold suffixedType
  infer_instance

instance : Parse.Paired P operandFollows operandFollows := by
  unfold operandFollows
  infer_instance

instance : Parse.Paired P typeOperator? typeOperator? := by
  unfold typeOperator?
  infer_instance

instance : Parse.Paired P g.inferBound g'.inferBound := by
  unfold inferBound
  infer_instance

instance : Parse.Paired P g.operatedType g'.operatedType := by
  unfold operatedType
  infer_instance

/-- A list is made into what is alike of what is alike. -/
theorem signedList {sign : TokenKind} {part part' : Parse TypeExpr}
    {make : List TypeExpr → TypeShape} [Parse.Quiet part] [Parse.Paired P part part']
    (hmake : ∀ ts ts' [Agree P.toLikeness ts ts'], Agree P.toLikeness (make ts) (make ts')) :
    Parse.Paired P (signedList sign part make) (signedList sign part' make) := by
  unfold Productions.signedList
  infer_instance

instance : Parse.Paired P g.intersectionType g'.intersectionType :=
  signedList fun _ _ _ => inferInstance

instance : Parse.Paired P g.unionType g'.unionType := signedList fun _ _ _ => inferInstance

instance : Parse.Paired P isAtFunctionType isAtFunctionType := by
  unfold isAtFunctionType
  infer_instance

instance : Parse.Paired P g.branches g'.branches := by
  unfold branches
  infer_instance

instance : Parse.Paired P g.typeForm g'.typeForm := by
  unfold typeForm
  infer_instance

instance : Parse.Paired P g.typeProduction g'.typeProduction := by
  unfold typeProduction
  infer_instance

/-! ### Expressions -/

instance (start start' : ℕ) (shape shape' : ExprShape) [Starts P.toLikeness start start']
    [Agree P.toLikeness shape shape'] :
    Parse.Paired P (exprFrom start shape) (exprFrom start' shape') := by
  unfold exprFrom
  infer_instance

instance : Parse.Paired P isAtArrowParameters isAtArrowParameters := by
  unfold isAtArrowParameters
  infer_instance

instance : Parse.Paired P g.arrowHead g'.arrowHead := by
  unfold arrowHead
  infer_instance

instance : Parse.Paired P g.arrowForm g'.arrowForm := by
  unfold arrowForm
  infer_instance

instance : Parse.Paired P g.arrowFunction g'.arrowFunction := by
  unfold arrowFunction
  infer_instance

instance : Parse.Paired P g.arrayLiteral g'.arrayLiteral := by
  unfold arrayLiteral
  infer_instance

instance : Parse.Paired P g.method g'.method := by
  unfold method
  infer_instance

instance : Parse.Paired P g.objectItem g'.objectItem := by
  unfold objectItem
  infer_instance

instance : Parse.Paired P g.objectLiteral g'.objectLiteral := by
  unfold objectLiteral
  infer_instance

omit hquiet' hrun in
theorem wordExpression : P.Goes (· ≠ .template) (Comparable.alike P.toLikeness) g.wordExpression
    g'.wordExpression := by
  unfold Productions.wordExpression
  refine .see Seen.position fun p p' h => .current fun t t' ht hkind => of ?_
  have hstart : Starts P.toLikeness p p' := ⟨h⟩
  dsimp only
  rw [ht.value hkind]
  split <;> infer_instance

instance : Parse.Paired P g.primary g'.primary := by
  unfold primary
  refine ⟨.current fun t t' h _ => ?_⟩
  have hstart : Starts P.toLikeness t.span.start t'.span.start := ⟨h.span.start⟩
  dsimp only
  rw [h.kind]
  split
  · next hkind =>
    rw [h.value (hkind ▸ nofun)]
    exact of inferInstance
  · next hkind =>
    rw [h.value (hkind ▸ nofun)]
    exact of inferInstance
  · next hkind =>
    rw [h.value (hkind ▸ nofun)]
    exact of inferInstance
  · rw [h.substitutes]
    exact of inferInstance
  · exact of inferInstance
  · exact of inferInstance
  · exact of inferInstance
  · next hkind => exact wordExpression.mono (by simp +contextual [hkind])
  · exact of inferInstance

instance : Parse.Paired P g.isAtGenericCall g'.isAtGenericCall := by
  unfold isAtGenericCall
  refine ⟨.lookAhead (.get fun s s' hs => .bind
    (inferInstance : Parse.Paired P g.typeArguments g'.typeArguments).goes (fun _ => inferInstance)
    fun _ _ _ => .get fun m m' hm => of ?_)⟩
  rw [hs.reports_size, hm.reports_size]
  infer_instance

instance (start start' : ℕ) (e e' : Expr) (optional : Bool) [Starts P.toLikeness start start']
    [he : Agree P.toLikeness e e'] :
    Parse.Paired P (memberAccess start e optional) (memberAccess start' e' optional) := by
  unfold memberAccess
  refine ⟨.isAtAny ((takeIdent.mono (by simp +contextual [or_imp])).bind (fun n => ?_)
    fun n n' h => of ?_) (of inferInstance)⟩
  · split <;> infer_instance
  · have hn : Agree P.toLikeness n n' := ⟨h⟩
    obtain ⟨⟨-, hshape⟩⟩ := he
    dsimp only
    cases hshape with
    | @entity entity entity' h =>
      have hentity : Agree P.toLikeness entity entity' := ⟨h⟩
      cases optional <;> infer_instance
    | _ => infer_instance

instance (start start' : ℕ) (e e' : Expr) [Starts P.toLikeness start start']
    [Agree P.toLikeness e e'] :
    Parse.Paired P (g.suffixStep start e) (g'.suffixStep start' e') := by
  unfold suffixStep
  refine ⟨.current fun t t' h _ => of ?_⟩
  rw [h.kind, h.afterBreak]
  split <;> infer_instance

instance : Parse.Paired P g.suffixed g'.suffixed := by
  unfold suffixed
  infer_instance

omit hquiet hquiet' hrun hg in
theorem unaryOperator?_eq {t t' : Token} (h : t.Alike P.toLikeness t') :
    unaryOperator? t' = unaryOperator? t := by
  unfold unaryOperator?
  rw [h.kind]
  split
  all_goals try rfl
  next hkind =>
    have hplain : t.kind ≠ .template := by
      rw [hkind]
      decide
    rw [h.value hplain]

instance : Parse.Paired P g.operandProduction g'.operandProduction := by
  unfold operandProduction
  refine ⟨.see Seen.position fun p p' h => .current fun t t' ht _ => of ?_⟩
  have hstart : Starts P.toLikeness p p' := ⟨h⟩
  rw [unaryOperator?_eq ht]
  split <;> infer_instance

instance (start start' : ℕ) (e e' : Expr) [Starts P.toLikeness start start']
    [Agree P.toLikeness e e'] :
    Parse.Paired P (g.assertions start e) (g'.assertions start' e') := by
  unfold assertions
  infer_instance

instance : Parse.Paired P g.expressionForm g'.expressionForm := by
  unfold expressionForm
  infer_instance

instance : Parse.Paired P g.expressionProduction g'.expressionProduction := by
  unfold expressionProduction
  infer_instance

/-! ### Members of classes -/

instance : Parse.Paired P g.classAccessor g'.classAccessor := by
  unfold classAccessor
  infer_instance

instance : Parse.Paired P g.namedMember g'.namedMember := by
  unfold namedMember
  infer_instance

instance : Parse.Paired P g.classMemberShape g'.classMemberShape := by
  unfold classMemberShape
  infer_instance

omit hquiet' hrun in
theorem classMember : P.Goes (· ≠ .endOfFile) (Comparable.alike P.toLikeness) g.classMember
    g'.classMember := by
  unfold Productions.classMember
  exact documented fun x => inferInstance

instance : Parse.Paired P g.classMembers g'.classMembers := by
  unfold classMembers
  exact braced inferInstance ⟨.isAtAny (of inferInstance) (.accept (of inferInstance) (.bind
    (orAdvance (classMember.mono (by simp +contextual))) (fun _ => inferInstance)
    fun m m' h => .pure ⟨.cons h .nil, rfl⟩))⟩

/-! ### Declarations -/

section

variable (start start' : ℕ) (doc doc' : Option String) (modifiers : Modifiers)
  [hstart : Starts P.toLikeness start start'] [hdoc : Documents P.toLikeness doc doc']

instance : Parse.Paired P (g.functionDeclaration start doc modifiers)
    (g'.functionDeclaration start' doc' modifiers) := by
  unfold functionDeclaration
  infer_instance

instance (kind : VariableKind) : Parse.Paired P (g.declarator kind doc modifiers)
    (g'.declarator kind doc' modifiers) := by
  unfold declarator
  infer_instance

omit hquiet' hrun in
theorem variableStatement : P.Goes (· ≠ .template) (Comparable.alike P.toLikeness)
    (g.variableStatement doc modifiers) (g'.variableStatement doc' modifiers) := by
  unfold Productions.variableStatement
  refine .current fun t t' h hkind => of ?_
  dsimp only
  rw [h.value hkind]
  infer_instance

instance : Parse.Paired P (g.typeAlias start doc modifiers) (g'.typeAlias start' doc' modifiers) := by
  unfold typeAlias
  infer_instance

instance : Parse.Paired P skipHeritage skipHeritage := by
  unfold skipHeritage
  infer_instance

instance : Parse.Paired P g.heritageType g'.heritageType := by
  unfold heritageType
  infer_instance

instance : Parse.Paired P g.heritageList g'.heritageList := by
  unfold heritageList
  infer_instance

instance : Parse.Paired P (g.interfaceDeclaration start doc modifiers)
    (g'.interfaceDeclaration start' doc' modifiers) := by
  unfold interfaceDeclaration
  infer_instance

instance : Parse.Paired P (g.classDeclaration start doc modifiers)
    (g'.classDeclaration start' doc' modifiers) := by
  unfold classDeclaration
  infer_instance

instance : Parse.Paired P g.enumMember g'.enumMember := by
  unfold enumMember
  refine ⟨.isAtAny (of inferInstance) ((documented fun x => ?_).mono (by simp +contextual))⟩
  exact ⟨.isAtAny (ident (by simp +contextual [or_imp])) (of inferInstance)⟩

instance : Parse.Paired P (g.enumDeclaration start doc modifiers)
    (g'.enumDeclaration start' doc' modifiers) := by
  unfold enumDeclaration
  infer_instance

instance (name name' : Ident) (naming : ModuleNaming) [Agree P.toLikeness name name'] :
    Parse.Paired P (g.moduleBody start doc modifiers name naming)
      (g'.moduleBody start' doc' modifiers name' naming) := by
  unfold moduleBody
  infer_instance

instance : Parse.Paired P (g.moduleProduction start doc modifiers)
    (g'.moduleProduction start' doc' modifiers) := by
  unfold moduleProduction
  exact ⟨.isAt (ident (by simp +contextual)) (of inferInstance)⟩

instance : Seen P isBeforeModuleName isBeforeModuleName := by
  unfold isBeforeModuleName
  infer_instance

instance : Parse.Paired P (g.declaration? start doc modifiers)
    (g'.declaration? start' doc' modifiers) := by
  unfold declaration?
  dsimp only
  refine ⟨.test (fun kind => !(kind == .identifier)) (of inferInstance)
    (.current fun t t' h hword => ?_)⟩
  have hkind : t.kind = .identifier := by simpa using hword.2
  rw [h.value (hkind ▸ nofun)]
  have hdeclared : P.Goes (· = t.kind) (Comparable.alike P.toLikeness)
      (do return some ((← g.variableStatement doc modifiers).map Statement.declaration))
      (do return some ((← g'.variableStatement doc' modifiers).map Statement.declaration)) :=
    .bind ((variableStatement doc doc' modifiers).mono (by simp +contextual [hkind]))
      (fun _ => inferInstance) fun indices _ h => by
        obtain rfl := (Plain.alike_iff P.toLikeness _ _).mp h
        exact of inferInstance
  split
  · exact of inferInstance
  · exact hdeclared
  · exact hdeclared
  · refine .see Seen.peek fun a a' ha => ?_
    rw [ha.kind]
    exact .ite (fun _ => hdeclared) fun _ => of inferInstance
  · exact of inferInstance
  · exact of inferInstance
  · exact of inferInstance
  · exact of inferInstance
  · exact of inferInstance
  · exact of inferInstance
  · exact seen fun _ => .ite (fun _ => ident (by simp +contextual [hkind])) fun _ =>
      of inferInstance
  · exact of inferInstance

instance : Parse.Paired P declarationModifiers declarationModifiers := by
  unfold declarationModifiers
  refine .iterate [] (fun found => .bind inferInstance fun t => ?_)
    fun found => ⟨.current fun t t' h _ => of ?_⟩
  · dsimp only
    split <;> infer_instance
  · simp only [h.isWord]
    split <;> infer_instance

/-! ### Statements -/

instance : Parse.Paired P markModule markModule := by
  unfold markModule
  have hmark : Parse.Paired P (modify ({ · with isModule := true }))
      (modify ({ · with isModule := true })) :=
    ⟨.modify fun _ _ hs => ⟨hs.reading, hs.reports, hs.declarations, P.modules_self _, hs.context⟩⟩
  infer_instance

instance : Parse.Paired P skipAttributes skipAttributes := by
  unfold skipAttributes
  infer_instance

instance : Parse.Paired P isAtTypeOnlyImport isAtTypeOnlyImport := by
  unfold isAtTypeOnlyImport
  infer_instance

instance : Parse.Paired P isAtTypeOnlySpecifier isAtTypeOnlySpecifier := by
  unfold isAtTypeOnlySpecifier
  infer_instance

instance : Parse.Paired P importSpecifier importSpecifier := by
  unfold importSpecifier
  infer_instance

instance (typeOnly : Bool) (default default' nameSpace nameSpace' : Option Ident)
    (named named' : List ImportSpecifier) [Agree P.toLikeness default default']
    [Agree P.toLikeness nameSpace nameSpace'] [Agree P.toLikeness named named'] :
    Parse.Paired P (importEnd start typeOnly default nameSpace named)
      (importEnd start' typeOnly default' nameSpace' named') := by
  unfold importEnd
  infer_instance

instance (name name' : Ident) (isExport : Bool) [Agree P.toLikeness name name'] :
    Parse.Paired P (importEquals start name isExport) (importEquals start' name' isExport) := by
  unfold importEquals
  infer_instance

instance (typeOnly : Bool) (default default' : Option Ident)
    [Agree P.toLikeness default default'] : Parse.Paired P (importNames start typeOnly default)
      (importNames start' typeOnly default') := by
  unfold importNames
  infer_instance

instance (isExport : Bool) :
    Parse.Paired P (importStatement start isExport) (importStatement start' isExport) := by
  unfold importStatement
  infer_instance

instance : Parse.Paired P exportSpecifier exportSpecifier := by
  unfold exportSpecifier
  infer_instance

instance (typeOnly : Bool) :
    Parse.Paired P (exportList start typeOnly) (exportList start' typeOnly) := by
  unfold exportList
  infer_instance

instance : Parse.Paired P (exportAll start) (exportAll start') := by
  unfold exportAll
  infer_instance

instance : Parse.Paired P isAtWholeName isAtWholeName := by
  unfold isAtWholeName
  infer_instance

instance (isEquals : Bool) :
    Parse.Paired P (exportAssignment start isEquals) (exportAssignment start' isEquals) := by
  unfold exportAssignment
  infer_instance

instance : Parse.Paired P (unknownStatement start) (unknownStatement start') := by
  unfold unknownStatement
  infer_instance

instance (keyword keyword' : Span) [Agree P.toLikeness keyword keyword'] :
    Parse.Paired P (g.exportDefault start doc keyword) (g'.exportDefault start' doc' keyword') := by
  unfold exportDefault
  infer_instance

instance (keyword keyword' : Span) [Agree P.toLikeness keyword keyword'] :
    Parse.Paired P (g.exportStatement start doc keyword)
      (g'.exportStatement start' doc' keyword') := by
  unfold exportStatement
  dsimp only
  infer_instance

end

omit hquiet' in
theorem statement : P.Goes (· ≠ .endOfFile) (Comparable.alike P.toLikeness) g.statement
    g'.statement := by
  unfold Productions.statement
  exact documented fun x => inferInstance

omit hquiet' in
/-- A statement that is passed if it took nothing. -/
theorem statementFrom {p p' : ℕ} (hp : P.start p p') :
    P.Goes (· ≠ .endOfFile) (Comparable.alike P.toLikeness)
      (do
        let statements ← g.statement
        if (← position) == p && !(← isAt .endOfFile) then
          report .statementExpected
          advance
        return (statements, true))
      (do
        let statements ← g'.statement
        if (← position) == p' && !(← isAt .endOfFile) then
          report .statementExpected
          advance
        return (statements, true)) := by
  refine .bind statement (fun _ => inferInstance) fun x x' h => .see Seen.position
    fun q q' hq => of ?_
  have hx : Agree P.toLikeness x x' := ⟨h⟩
  dsimp only
  rw [Pairing.beq_eq hq hp]
  infer_instance

instance (inBody : Bool) : Parse.Paired P (g.statementStep inBody) (g'.statementStep inBody) := by
  unfold statementStep
  cases inBody with
  | false =>
    exact ⟨.isAt (of inferInstance) (seen fun _ => .atStatement fun p p' hp =>
      (statementFrom hp).mono (by simp +contextual))⟩
  | true =>
    exact ⟨.isAt (of inferInstance) (seen fun _ => .ite (fun _ => of inferInstance) fun _ =>
      .see Seen.position fun p p' hp => (statementFrom hp).mono (by simp +contextual))⟩

instance (inBody : Bool) : Parse.Paired P (g.statementList inBody) (g'.statementList inBody) := by
  unfold statementList
  infer_instance

end Paired

instance {c c' : Setting} {P : Pairing c c'} (g : Productions) : Paired P exhausted g where
  type := ⟨.stall _ _⟩
  operandType := ⟨.stall _ _⟩
  expression := ⟨.stall _ _⟩
  operand := ⟨.stall _ _⟩
  statements := ⟨.stall _ _⟩
  module _ _ _ _ _ _ _ := ⟨.stall _ _⟩

instance {c c' : Setting} {P : Pairing c c'} (g g' : Productions) [Quiet g] [Quiet g'] [Running g]
    [Paired P g g'] : Paired P (around g) (around g') where
  type := inferInstanceAs (Parse.Paired P g.typeProduction g'.typeProduction)
  operandType := inferInstanceAs (Parse.Paired P g.operatedType g'.operatedType)
  expression := inferInstanceAs (Parse.Paired P g.expressionProduction g'.expressionProduction)
  operand := inferInstanceAs (Parse.Paired P g.operandProduction g'.operandProduction)
  statements := inferInstanceAs (Parse.Paired P (g.statementList true) (g'.statementList true))
  module start start' doc doc' modifiers h hd := by
    have hstart : Starts P.toLikeness start start' := ⟨h⟩
    have hdoc : Documents P.toLikeness doc doc' := ⟨hd⟩
    exact inferInstanceAs (Parse.Paired P (g.moduleProduction start doc modifiers)
      (g'.moduleProduction start' doc' modifiers))

/-- What is parsed to a depth is alike what is parsed to a greater one. -/
theorem paired_ofDepth {c c' : Setting} (P : Pairing c c') {m n : ℕ} (h : m ≤ n) :
    Paired P (ofDepth m) (ofDepth n) := by
  induction m generalizing n with
  | zero => exact inferInstanceAs (Paired P exhausted (ofDepth n))
  | succ m ih =>
    cases n with
    | zero => cases h
    | succ n =>
      have hinner := ih (Nat.le_of_succ_le_succ h)
      exact inferInstanceAs (Paired P (around (ofDepth m)) (around (ofDepth n)))

end Productions

namespace SourceFile

/-- Two texts that go together from their first tokens on are parsed alike. -/
theorem statementsOf_alike {name name' : String} {text text' : List Char}
    (P : Pairing ⟨name, text⟩ ⟨name', text'⟩) (hlength : text.length ≤ text'.length)
    (hstart : P.reads (ParseState.start text).reading (ParseState.start text').reading) :
    P.States (statementsOf name text).2 (statementsOf name' text').2 ∧
      List.Forall₂ (Statement.Alike P.toLikeness) (statementsOf name text).1
        (statementsOf name' text').1 := by
  have hdepth := Productions.paired_ofDepth P (Nat.succ_le_succ hlength)
  have hlist : Parse.Paired P ((Productions.ofDepth (text.length + 1)).statementList false)
      ((Productions.ofDepth (text'.length + 1)).statementList false) := inferInstance
  exact hlist.goes (ParseState.start text) (ParseState.start text')
    ⟨hstart, .nil, .nil, P.modules_self _, rfl⟩ trivial (statementsOf_progresses name text).1

end SourceFile

end ApiSurface
