import ApiSurface.Grammar.File
import ApiSurface.Proofs.QuietParsing
/-!
The productions that declare nothing: all but declarations, and the statements and bodies that hold
them. An import is the only one of them that notes something of the file.
-/
namespace ApiSurface

namespace Productions

open Parse

/-- Types and expressions declare nothing. -/
class Quiet (g : Productions) : Prop where
  type : Parse.Quiet g.type
  operandType : Parse.Quiet g.operandType
  expression : Parse.Quiet g.expression
  operand : Parse.Quiet g.operand

namespace Quiet

variable {α : Type} (g : Productions) [hg : Quiet g]

open Parse.Quiet (bind)

-- a production of many parts has an instance of many parts
set_option synthInstance.maxSize 10000

instance : Parse.Quiet g.type := hg.type

instance : Parse.Quiet g.operandType := hg.operandType

instance : Parse.Quiet g.expression := hg.expression

instance : Parse.Quiet g.operand := hg.operand

instance : Parse.Quiet g.freeType := by
  unfold freeType
  infer_instance

instance (kind : TokenKind) : Parse.Quiet (g.typeAfter kind) := by
  unfold typeAfter
  infer_instance

instance : Parse.Quiet g.initializer := by
  unfold initializer
  infer_instance

/-! ### Signatures -/

instance : Parse.Quiet g.typeArguments := by
  unfold typeArguments
  infer_instance

instance : Parse.Quiet g.typeArgumentsOnLine := by
  unfold typeArgumentsOnLine
  infer_instance

instance : Parse.Quiet g.typeParameter := by
  unfold typeParameter
  infer_instance

instance : Parse.Quiet g.typeParameters := by
  unfold typeParameters
  infer_instance

instance : Parse.Quiet g.decorators := by
  unfold decorators
  infer_instance

instance (words : List (String × Modifier)) (mayFollow : TokenKind → Bool) :
    Parse.Quiet (modifiersOf words mayFollow) := by
  unfold modifiersOf
  refine .iterate (fun found => bind inferInstance fun t => ?_) []
  split <;> infer_instance

instance : Parse.Quiet g.parameter := by
  unfold parameter
  infer_instance

instance : Parse.Quiet g.parameters := by
  unfold parameters
  infer_instance

instance : Parse.Quiet g.resultType := by
  unfold resultType
  infer_instance

instance : Parse.Quiet g.signature := by
  unfold signature
  infer_instance

instance : Parse.Quiet g.arrowSignature := by
  unfold arrowSignature
  infer_instance

instance : Parse.Quiet isAtIndexSignature := by
  unfold isAtIndexSignature
  infer_instance

instance : Parse.Quiet g.indexSignature := by
  unfold indexSignature
  infer_instance

instance : Parse.Quiet propertyName := by
  unfold propertyName
  refine bind inferInstance fun t => ?_
  split <;> infer_instance

/-! ### Types -/

instance (word : String) : Parse.Quiet (isAtMemberModifier word) := by
  unfold isAtMemberModifier
  infer_instance

instance : Parse.Quiet g.accessorMember := by
  unfold accessorMember
  infer_instance

instance : Parse.Quiet g.typeMemberShape := by
  unfold typeMemberShape
  refine bind inferInstance fun t => ?_
  split <;> infer_instance

instance : Parse.Quiet g.typeMember := by
  unfold typeMember
  infer_instance

instance : Parse.Quiet g.typeMembers := by
  unfold typeMembers
  infer_instance

instance (start : ℕ) (value : LiteralType) : Parse.Quiet (literalType start value) := by
  unfold literalType
  infer_instance

instance (start : ℕ) (isTypeof : Bool) : Parse.Quiet (g.moduleType start isTypeof) := by
  unfold Productions.moduleType
  dsimp only
  infer_instance

instance : Parse.Quiet g.wordType := by
  unfold wordType
  infer_instance

instance : Parse.Quiet g.tupleItem := by
  unfold tupleItem
  infer_instance

instance : Parse.Quiet g.tupleType := by
  unfold tupleType
  infer_instance

instance : Parse.Quiet isAtMappedType := by
  unfold isAtMappedType
  infer_instance

instance (present expected : Parse Bool) [Parse.Quiet present] [Parse.Quiet expected] :
    Parse.Quiet (mappedModifier present expected) := by
  unfold mappedModifier
  infer_instance

instance : Parse.Quiet g.mappedType := by
  unfold mappedType
  infer_instance

instance : Parse.Quiet g.standingType := by
  unfold standingType
  refine bind inferInstance fun t => ?_
  split <;> infer_instance

instance : Parse.Quiet g.suffixedType := by
  unfold suffixedType
  infer_instance

instance : Parse.Quiet operandFollows := by
  unfold operandFollows
  infer_instance

instance : Parse.Quiet typeOperator? := by
  unfold typeOperator?
  infer_instance

instance : Parse.Quiet g.inferBound := by
  unfold inferBound
  infer_instance

instance : Parse.Quiet g.operatedType := by
  unfold operatedType
  dsimp only
  repeat' first | infer_instance | refine bind inferInstance fun _ => ?_ | split

instance (sign : TokenKind) (part : Parse TypeExpr) (make : List TypeExpr → TypeShape)
    [Parse.Quiet part] : Parse.Quiet (signedList sign part make) := by
  unfold signedList
  infer_instance

instance : Parse.Quiet g.intersectionType := by
  unfold intersectionType
  infer_instance

instance : Parse.Quiet g.unionType := by
  unfold unionType
  infer_instance

instance : Parse.Quiet isAtFunctionType := by
  unfold isAtFunctionType
  infer_instance

instance : Parse.Quiet g.branches := by
  unfold branches
  infer_instance

instance : Parse.Quiet g.typeForm := by
  unfold typeForm
  infer_instance

instance : Parse.Quiet g.typeProduction := by
  unfold typeProduction
  infer_instance

/-! ### Expressions -/

instance (start : ℕ) (shape : ExprShape) : Parse.Quiet (exprFrom start shape) := by
  unfold exprFrom
  infer_instance

instance : Parse.Quiet isAtArrowParameters := by
  unfold isAtArrowParameters
  infer_instance

instance : Parse.Quiet g.arrowHead := by
  unfold arrowHead
  infer_instance

instance : Parse.Quiet g.arrowForm := by
  unfold arrowForm
  dsimp only
  repeat' first | infer_instance | refine bind inferInstance fun _ => ?_ | split

instance : Parse.Quiet g.arrowFunction := by
  unfold arrowFunction
  infer_instance

instance : Parse.Quiet g.arrayLiteral := by
  unfold arrayLiteral
  dsimp only
  infer_instance

instance : Parse.Quiet g.method := by
  unfold method
  infer_instance

instance : Parse.Quiet g.objectItem := by
  unfold objectItem
  infer_instance

instance : Parse.Quiet g.objectLiteral := by
  unfold objectLiteral
  infer_instance

instance : Parse.Quiet g.wordExpression := by
  unfold wordExpression
  refine bind inferInstance fun start => bind inferInstance fun t => ?_
  dsimp only
  split <;> infer_instance

instance : Parse.Quiet g.primary := by
  unfold primary
  refine bind inferInstance fun t => ?_
  split <;> infer_instance

instance : Parse.Quiet g.isAtGenericCall := by
  unfold isAtGenericCall
  infer_instance

instance (start : ℕ) (e : Expr) (optional : Bool) :
    Parse.Quiet (memberAccess start e optional) := by
  unfold memberAccess
  dsimp only
  refine bind inferInstance fun b => ?_
  split
  · refine bind inferInstance fun name => ?_
    split <;> infer_instance
  · infer_instance

instance (start : ℕ) (e : Expr) : Parse.Quiet (g.suffixStep start e) := by
  unfold suffixStep
  refine bind inferInstance fun t => ?_
  split <;> infer_instance

instance : Parse.Quiet g.suffixed := by
  unfold suffixed
  infer_instance

instance : Parse.Quiet g.operandProduction := by
  unfold operandProduction
  refine bind inferInstance fun start => bind inferInstance fun t => ?_
  split <;> infer_instance

instance (start : ℕ) (e : Expr) : Parse.Quiet (g.assertions start e) := by
  unfold assertions
  infer_instance

instance : Parse.Quiet g.expressionForm := by
  unfold expressionForm
  refine bind inferInstance fun start => bind inferInstance fun arrow? => ?_
  split <;> infer_instance

instance : Parse.Quiet g.expressionProduction := by
  unfold expressionProduction
  infer_instance

/-! ### Members of classes -/

instance : Parse.Quiet g.classAccessor := by
  unfold classAccessor
  infer_instance

instance : Parse.Quiet g.namedMember := by
  unfold namedMember
  infer_instance

instance : Parse.Quiet g.classMemberShape := by
  unfold classMemberShape
  infer_instance

instance : Parse.Quiet g.classMember := by
  unfold classMember
  infer_instance

instance : Parse.Quiet g.classMembers := by
  unfold classMembers
  infer_instance

/-! ### Parts of declarations -/

instance : Parse.Quiet skipHeritage := by
  unfold skipHeritage
  infer_instance

instance : Parse.Quiet g.heritageType := by
  unfold heritageType
  infer_instance

instance : Parse.Quiet g.heritageList := by
  unfold heritageList
  infer_instance

instance : Parse.Quiet isBeforeModuleName := by
  unfold isBeforeModuleName
  infer_instance

instance : Still isBeforeModuleName := .bind inferInstance fun _ => inferInstance

instance : Parse.Quiet declarationModifiers := by
  unfold declarationModifiers
  refine .iterate (fun found => bind inferInstance fun t => ?_) []
  dsimp only
  split <;> infer_instance

/-! ### Imports and exports -/

instance : Passing markModule := by
  unfold markModule
  have hmark : Passing (modify ({ · with isModule := true }) : Parse Unit) :=
    ⟨fun _ _ h => .of_eq h rfl rfl rfl⟩
  infer_instance

instance : Parse.Quiet skipAttributes := by
  unfold skipAttributes
  infer_instance

instance : Parse.Quiet isAtTypeOnlyImport := by
  unfold isAtTypeOnlyImport
  infer_instance

instance : Parse.Quiet isAtTypeOnlySpecifier := by
  unfold isAtTypeOnlySpecifier
  infer_instance

instance : Parse.Quiet importSpecifier := by
  unfold importSpecifier
  infer_instance

instance (start : ℕ) (typeOnly : Bool) (default nameSpace : Option Ident)
    (named : List ImportSpecifier) :
    Parse.Quiet (importEnd start typeOnly default nameSpace named) := by
  unfold importEnd
  infer_instance

instance (start : ℕ) (name : Ident) (isExport : Bool) :
    Parse.Quiet (importEquals start name isExport) := by
  unfold importEquals
  infer_instance

instance (start : ℕ) (typeOnly : Bool) (default : Option Ident) :
    Parse.Quiet (importNames start typeOnly default) := by
  unfold importNames
  infer_instance

instance (start : ℕ) (isExport : Bool) : Passing (importStatement start isExport) := by
  unfold importStatement
  infer_instance

instance : Parse.Quiet exportSpecifier := by
  unfold exportSpecifier
  infer_instance

instance (start : ℕ) (typeOnly : Bool) : Parse.Quiet (exportList start typeOnly) := by
  unfold exportList
  infer_instance

instance (start : ℕ) : Parse.Quiet (exportAll start) := by
  unfold exportAll
  infer_instance

instance : Parse.Quiet isAtWholeName := by
  unfold isAtWholeName
  infer_instance

instance (start : ℕ) (isEquals : Bool) : Parse.Quiet (exportAssignment start isEquals) := by
  unfold exportAssignment
  infer_instance

instance (start : ℕ) : Parse.Quiet (unknownStatement start) := by
  unfold unknownStatement
  infer_instance

end Quiet

instance {α : Type} (p : Parse α) [Parse.Quiet p] : Parse.Quiet (beyond p) := by
  unfold beyond
  infer_instance

instance : Quiet exhausted where
  type := by
    unfold exhausted
    infer_instance
  operandType := by
    unfold exhausted
    infer_instance
  expression := by
    unfold exhausted
    infer_instance
  operand := by
    unfold exhausted
    infer_instance

instance (g : Productions) [Quiet g] : Quiet (around g) where
  type := inferInstanceAs (Parse.Quiet g.typeProduction)
  operandType := inferInstanceAs (Parse.Quiet g.operatedType)
  expression := inferInstanceAs (Parse.Quiet g.expressionProduction)
  operand := inferInstanceAs (Parse.Quiet g.operandProduction)

instance (n : ℕ) : Quiet (ofDepth n) := by
  induction n with
  | zero => exact inferInstanceAs (Quiet exhausted)
  | succ n ih => exact inferInstanceAs (Quiet (around (ofDepth n)))

end Productions

end ApiSurface
