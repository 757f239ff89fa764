import ApiSurface.Syntax.SourceFile
/-!
The types written in a declaration, the outer ones first. Initializers, the keys of index
signatures, the bodies of modules and the members of enums are not looked into.
-/
namespace ApiSurface

mutual

/-- A type and the types inside it. -/
def TypeExpr.written : TypeExpr → List TypeExpr
  | ⟨span, shape⟩ => ⟨span, shape⟩ :: shape.written

/-- The types inside a type. -/
def TypeShape.written : TypeShape → List TypeExpr
  | .reference _ args | .query _ args | .moduleType _ _ args _ => writtenInAll args
  | .array inner | .parenthesized inner | .operator _ inner => inner.written
  | .union parts | .intersection parts => writtenInAll parts
  | .infer _ bound => writtenInOption bound
  | .tuple items => writtenInItems items
  | .object members => writtenInMembers members
  | .indexed object index => object.written ++ index.written
  | .conditional check bound whenTrue whenFalse =>
    check.written ++ bound.written ++ writtenInOption whenTrue ++ writtenInOption whenFalse
  | .mapped _ _ keys rename _ value =>
    keys.written ++ writtenInOption rename ++ writtenInOption value
  | .function signature | .constructor signature _ => signature.written
  | .predicate _ _ type => writtenInOption type
  | .keyword _ | .literal _ | .template | .unsupported => []

/-- The types in a list of types. -/
def writtenInAll : List TypeExpr → List TypeExpr
  | [] => []
  | t :: ts => t.written ++ writtenInAll ts

/-- The types in a type that may be missing. -/
def writtenInOption : Option TypeExpr → List TypeExpr
  | none => []
  | some t => t.written

/-- The types in the elements of a tuple. -/
def writtenInItems : List TupleItem → List TypeExpr
  | [] => []
  | ⟨_, _, _, _, type⟩ :: items => type.written ++ writtenInItems items

/-- The types in members. -/
def writtenInMembers : List TypeMember → List TypeExpr
  | [] => []
  | ⟨_, _, shape⟩ :: members => shape.written ++ writtenInMembers members

/-- The types in a member. -/
def TypeMemberShape.written : TypeMemberShape → List TypeExpr
  | .property _ _ _ type | .index _ type _ | .getter _ type => writtenInOption type
  | .method _ _ signature | .call signature | .construct signature => signature.written
  | .setter _ none => []
  | .setter _ (some ⟨_, _, _, _, _, type, _⟩) => writtenInOption type

/-- The types in a signature. -/
def Signature.written : Signature → List TypeExpr
  | ⟨typeParams, params, returns⟩ =>
    writtenInTypeParams typeParams ++ writtenInParams params ++ writtenInOption returns

/-- The types in type parameters. -/
def writtenInTypeParams : List TypeParam → List TypeExpr
  | [] => []
  | ⟨_, bound, fallback⟩ :: params =>
    writtenInOption bound ++ writtenInOption fallback ++ writtenInTypeParams params

/-- The types in parameters. -/
def writtenInParams : List Param → List TypeExpr
  | [] => []
  | ⟨_, _, _, _, _, type, _⟩ :: params => writtenInOption type ++ writtenInParams params

end

/-- The types in a member of a class. -/
def ClassMemberShape.written : ClassMemberShape → List TypeExpr
  | .property _ _ type _ | .getter _ type _ | .index _ type => writtenInOption type
  | .method _ _ signature _ | .constructor signature _ => signature.written
  | .setter _ param => writtenInOption (param.bind (·.type))
  | .unknown => []

/-- The types in a declaration. -/
def Declaration.written (d : Declaration) : List TypeExpr :=
  match d.shape with
  | .function signature _ => signature.written
  | .variable _ type _ => writtenInOption type
  | .typeAlias typeParams type => writtenInTypeParams typeParams ++ type.written
  | .interface typeParams extends_ members =>
    writtenInTypeParams typeParams ++ writtenInAll extends_ ++ writtenInMembers members
  | .class typeParams extends_ implements members =>
    writtenInTypeParams typeParams ++ writtenInOption extends_ ++ writtenInAll implements ++
      members.flatMap (·.shape.written)
  | .enum _ | .enumMember _ | .module .. => []

end ApiSurface
