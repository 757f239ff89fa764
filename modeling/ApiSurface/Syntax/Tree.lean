import ApiSurface.Syntax.Name
/-!
Types, members, signatures and initializers as trees. The body of a function is kept as a summary
only, and of expressions only the forms that say something about a type.
-/
namespace ApiSurface

/-- The body of a function: where it stands and whether it returns a value. -/
structure FunctionBody where
  span : Span
  returnsValue : Bool
  deriving DecidableEq, Repr, Inhabited

/-- Operators before a type. -/
inductive TypeOperator where
  | keyof
  | readonly
  | unique
  deriving DecidableEq, Repr, Inhabited

/-- How a mapped type sets a modifier: by writing it, or with a sign before it. -/
inductive MappedModifier where
  | present
  | plus
  | minus
  deriving DecidableEq, Repr, Inhabited

/-- A literal used as a type. -/
inductive LiteralType where
  | string (value : String)
  | number (value : Float)
  | bigInt (digits : String)
  deriving Repr, Inhabited

mutual

/-- A type at its place in the text. -/
structure TypeExpr where
  span : Span
  shape : TypeShape

/-- The forms of type. -/
inductive TypeShape where
  | keyword (word : String)
  | reference (name : EntityName) (args : List TypeExpr)
  | query (name : EntityName) (args : List TypeExpr)
  | array (item : TypeExpr)
  | operator (op : TypeOperator) (operand : TypeExpr)
  | union (parts : List TypeExpr)
  | intersection (parts : List TypeExpr)
  | infer (name : Ident) (bound : Option TypeExpr)
  | parenthesized (inner : TypeExpr)
  | tuple (items : List TupleItem)
  | object (members : List TypeMember)
  | indexed (object index : TypeExpr)
  | conditional (check bound : TypeExpr) (whenTrue whenFalse : Option TypeExpr)
  | literal (value : LiteralType)
  | mapped (readonly : Option MappedModifier) (param : Ident) (keys : TypeExpr)
      (rename : Option TypeExpr) (optional : Option MappedModifier) (value : Option TypeExpr)
  | function (signature : Signature)
  | constructor (signature : Signature) (isAbstract : Bool)
  | predicate (asserts : Bool) (param : Ident) (type : Option TypeExpr)
  | moduleType (specifier : String) (qualifier : Option EntityName) (args : List TypeExpr)
      (isTypeof : Bool)
  | template
  | unsupported

/-- An element of a tuple type. -/
structure TupleItem where
  span : Span
  label : Option Ident
  optional : Bool
  rest : Bool
  type : TypeExpr

/-- A member of an interface or of an object type. -/
structure TypeMember where
  span : Span
  doc : Option String
  shape : TypeMemberShape

/-- The forms of member. -/
inductive TypeMemberShape where
  | property (name : PropertyName) (optional readonly : Bool) (type : Option TypeExpr)
  | method (name : PropertyName) (optional : Bool) (signature : Signature)
  | call (signature : Signature)
  | construct (signature : Signature)
  | index (params : List Param) (type : Option TypeExpr) (readonly : Bool)
  | getter (name : PropertyName) (type : Option TypeExpr)
  | setter (name : PropertyName) (param : Option Param)

/-- Type parameters, parameters and the written result of something callable. -/
structure Signature where
  typeParams : List TypeParam
  params : List Param
  returns : Option TypeExpr

/-- A type parameter. -/
structure TypeParam where
  name : Ident
  bound : Option TypeExpr
  fallback : Option TypeExpr

/-- A parameter. The name of a destructured one is its pattern as written. -/
structure Param where
  name : Ident
  span : Span
  modifiers : Modifiers
  rest : Bool
  optional : Bool
  type : Option TypeExpr
  initial : Option Expr

/-- An initializer or a part of one. -/
structure Expr where
  span : Span
  shape : ExprShape

/-- The forms of expression that say something about a type. -/
inductive ExprShape where
  | string (value : String)
  | number (value : Float)
  | bigInt (digits : String)
  | template (substitutes : Bool)
  | true
  | false
  | null
  | entity (name : EntityName)
  | array (items : List Expr)
  | object (items : List ObjectItem)
  | new (callee : Option EntityName)
  | asserted (value : Expr) (type : TypeExpr)
  | asConst (value : Expr)
  | function (signature : Signature) (body : Option FunctionBody) (result : Option Expr)
      (isAsync : Bool)
  | unary (op : String) (operand : Expr)
  | unknown

/-- An entry of an object literal. -/
inductive ObjectItem where
  | property (name : PropertyName) (value : Expr)
  | shorthand (name : Ident)
  | method (name : PropertyName) (signature : Signature)
  | spread (span : Span)

end

instance : Inhabited TypeExpr := ⟨⟨default, .unsupported⟩⟩

instance : Inhabited Expr := ⟨⟨default, .unknown⟩⟩

instance : Inhabited Signature := ⟨⟨[], [], none⟩⟩

end ApiSurface
