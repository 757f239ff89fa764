import ApiSurface.Syntax.SourceFile
/-!
Types of declarations without a written one. Only what an initializer shows by itself is inferred:
literals, arrays, objects, new instances, assertions, functions, and names of other declarations.
Everything else is `any`.
-/
namespace ApiSurface

/-- Whether a literal keeps its own type, as for constants and read-only properties, or widens to
the type of all its kind. -/
inductive Widening where
  | literal
  | widened
  deriving DecidableEq, Repr, Inhabited

mutual

/-- A type that an initializer shows. -/
inductive InferredType where
  | intrinsic (name : String)
  | string (value : String)
  | number (value : Float)
  | bigInt (digits : String)
  | boolean (value : Bool)
  | array (item : InferredType)
  | tuple (readonly : Bool) (items : List InferredType)
  | union (parts : List InferredType)
  | object (readonly : Bool) (members : List InferredMember)
  /-- The type of a declared value, by its dotted name. -/
  | query (path : List String)
  /-- The type of instances of a class, by its dotted name. -/
  | instance (path : List String)
  /-- A type that is written in the source. -/
  | written (type : TypeExpr)
  /-- A type of the standard library. -/
  | global (name : String) (args : List InferredType)
  | function (signature : InferredSignature)

/-- A member of an inferred object type. -/
inductive InferredMember where
  | property (name : String) (type : InferredType)
  | method (name : String) (signature : InferredSignature)

/-- A signature, with a result type if none is written. -/
inductive InferredSignature where
  | mk (signature : Signature) (returns : Option InferredType)

end

namespace InferredType

instance : Inhabited InferredType := ⟨.intrinsic "any"⟩

/-- The type of what cannot be read off. -/
def any : InferredType := intrinsic "any"

/-- Whether two types are the same, for primitives, literals and arrays of them. -/
def sameAs : InferredType → InferredType → Bool
  | intrinsic a, intrinsic b => a == b
  | string a, string b => a == b
  | number a, number b => a == b
  | bigInt a, bigInt b => a == b
  | boolean a, boolean b => a == b
  | array a, array b => sameAs a b
  | _, _ => false

/-- The types without those that are the same as an earlier one. -/
def distinct (types : List InferredType) : List InferredType :=
  types.foldl (fun kept t => if kept.any (sameAs · t) then kept else kept ++ [t]) []

/-- The union of the types of some elements; `any` for none. -/
def unionOf (types : List InferredType) : InferredType :=
  match distinct types with
  | [] => any
  | [t] => t
  | ts => union ts

end InferredType

namespace Expr

open InferredType

/-- What a function without a written result type returns, where `result` is the type of its
arrow's expression if it has one. -/
def returned (body : Option FunctionBody) (result : Option InferredType) (isAsync : Bool) :
    InferredType :=
  let type := match result, body with
    | some t, _ => t
    | none, some b => if b.returnsValue then any else intrinsic "void"
    | none, none => any
  if isAsync then global "Promise" [type] else type

/-- A literal number behind a sign, where literals are kept. -/
def signedLiteral? (op : String) (operand : Expr) : Option Float :=
  match op, operand.shape with
  | "-", .number v => some (-v)
  | "+", .number v => some v
  | _, _ => none

/-- The type of an expression behind an operator. -/
def operated (op : String) (operand : Expr) (w : Widening) : InferredType :=
  match w, signedLiteral? op operand with
  | .literal, some v => number v
  | _, _ =>
    match op with
    | "-" => match operand.shape with
      | .bigInt _ => intrinsic "bigint"
      | _ => intrinsic "number"
    | "+" | "~" => intrinsic "number"
    | "!" => intrinsic "boolean"
    | "typeof" => intrinsic "string"
    | "void" => intrinsic "undefined"
    | _ => any

/-- The type of a name. -/
def named (name : EntityName) : InferredType :=
  match name.text with
  | "undefined" => intrinsic "undefined"
  | "NaN" | "Infinity" => intrinsic "number"
  | _ => query name.texts

mutual

/-- The type of an expression. -/
def infer (w : Widening) : Expr → InferredType
  | ⟨_, shape⟩ => inferShape w shape

/-- The type of a form of expression. -/
def inferShape (w : Widening) : ExprShape → InferredType
  | .string value => if w = .literal then string value else intrinsic "string"
  | .template _ => intrinsic "string"
  | .number value => if w = .literal then number value else intrinsic "number"
  | .bigInt digits => if w = .literal then bigInt digits else intrinsic "bigint"
  | .true => if w = .literal then boolean true else intrinsic "boolean"
  | .false => if w = .literal then boolean false else intrinsic "boolean"
  | .null => intrinsic "null"
  | .entity name => named name
  | .array items => array (unionOf (inferAll items))
  | .object items => object false (inferItems .widened items)
  | .new (some callee) => InferredType.instance callee.texts
  | .new none => any
  | .asserted _ type => written type
  | .asConst value => inferConst value
  | .function signature body result isAsync =>
    function (.mk signature (if signature.returns.isSome then none
      else some (returned body (inferOption result) isAsync)))
  | .unary op operand => operated op operand w
  | .unknown => any

/-- The type of an expression whose literals are kept and whose containers are read-only. -/
def inferConst : Expr → InferredType
  | ⟨_, .array items⟩ => tuple true (inferConstAll items)
  | ⟨_, .object items⟩ => object true (inferConstItems items)
  | ⟨_, shape⟩ => inferShape .literal shape

/-- The widened types of some expressions. -/
def inferAll : List Expr → List InferredType
  | [] => []
  | e :: es => infer .widened e :: inferAll es

/-- The widened type of an expression that may be missing. -/
def inferOption : Option Expr → Option InferredType
  | none => none
  | some e => some (infer .widened e)

/-- The constant types of some expressions. -/
def inferConstAll : List Expr → List InferredType
  | [] => []
  | e :: es => inferConst e :: inferConstAll es

/-- The members that the entries of an object literal show. A spread entry shows none. -/
def inferItems (w : Widening) : List ObjectItem → List InferredMember
  | [] => []
  | .property name value :: items => .property name.text (infer w value) :: inferItems w items
  | .shorthand name :: items => .property name.text (query [name.text]) :: inferItems w items
  | .method name signature :: items =>
    .method name.text (.mk signature (if signature.returns.isSome then none else some any)) ::
      inferItems w items
  | .spread _ :: items => inferItems w items

/-- The members that the entries of a constant object literal show. -/
def inferConstItems : List ObjectItem → List InferredMember
  | [] => []
  | .property name value :: items => .property name.text (inferConst value) :: inferConstItems items
  | .shorthand name :: items => .property name.text (query [name.text]) :: inferConstItems items
  | .method name signature :: items =>
    .method name.text (.mk signature (if signature.returns.isSome then none else some any)) ::
      inferConstItems items
  | .spread _ :: items => inferConstItems items

end

/-- The type of an initializer that may be missing. -/
def inferInitial (w : Widening) (initial : Option Expr) : InferredType :=
  initial.elim any (infer w)

end Expr

/-- The result type of a function with a body, if none is written. -/
def Signature.inferReturn (s : Signature) (body : Option FunctionBody) (isAsync : Bool) :
    Option InferredType :=
  if s.returns.isSome then none else some (Expr.returned body none isAsync)

/-- The type of a variable: the written one, or that of its initializer. -/
def inferVariable (kind : VariableKind) (type : Option TypeExpr) (initial : Option Expr) :
    InferredType :=
  match type with
  | some t => .written t
  | none => Expr.inferInitial (if kind = .const then .literal else .widened) initial

/-- The type of a property of a class from its initializer. -/
def inferProperty (initial : Option Expr) (readonly : Bool) : InferredType :=
  Expr.inferInitial (if readonly then .literal else .widened) initial

/-- The type of a parameter: the written one, an array for a rest parameter, or that of its
initializer. -/
def Param.infer (p : Param) : InferredType :=
  match p.type with
  | some t => .written t
  | none => if p.rest then .array .any else Expr.inferInitial .widened p.initial

/-! ### Values of enum members -/

/-- The constant value of an enum member. -/
inductive EnumValue where
  | string (value : String)
  | number (value : Float)
  deriving Repr, Inhabited

/-- A value behind a sign. -/
def EnumValue.signed? (op : String) : EnumValue → Option EnumValue
  | number v => if op = "-" then some (.number (-v)) else if op = "+" then some (.number v) else none
  | string _ => none

mutual

/-- The value of an initializer, where `known` holds the names and values of the members before.
A name stands for the first of them that has its last part as its name. -/
def Expr.constant? (known : List (String × Option EnumValue)) : Expr → Option EnumValue
  | ⟨_, shape⟩ => constantShape? known shape

/-- The value of a form of expression. -/
def constantShape? (known : List (String × Option EnumValue)) : ExprShape → Option EnumValue
  | .string value => some (.string value)
  | .number value => some (.number value)
  | .unary op operand => (operand.constant? known).bind (EnumValue.signed? op)
  | .entity name => (known.lookup name.last.text).join
  | _ => none

end

/-- The value that a member without an initializer has after another one. -/
def EnumValue.successor? : Option EnumValue → Option EnumValue
  | some (.number v) => some (.number (v + 1.0))
  | _ => none

/-- The values of members given by name and initializer, after those that are `known`. -/
def enumValuesAfter (known : List (String × Option EnumValue)) (next : Option EnumValue) :
    List (String × Option Expr) → List (Option EnumValue)
  | [] => []
  | (name, initial) :: members =>
    let value := match initial with
      | none => next
      | some e => e.constant? known
    value :: enumValuesAfter (known ++ [(name, value)]) (EnumValue.successor? value) members

/-- The values of an enum's members in order. Counting starts at zero and goes on after each
number. -/
def enumValues (members : List (String × Option Expr)) : List (Option EnumValue) :=
  enumValuesAfter [] (some (.number 0.0)) members

/-- The name and initializer of an enum member. -/
def SourceFile.enumMember (f : SourceFile) (i : DeclIndex) : String × Option Expr :=
  match f.declaration? i with
  | some d => (d.name.text, match d.shape with
    | .enumMember initial => initial
    | _ => none)
  | none => ("", none)

/-- The values of an enum's members, given by their indices. -/
def SourceFile.enumValues (f : SourceFile) (members : List DeclIndex) : List (Option EnumValue) :=
  ApiSurface.enumValues (members.map f.enumMember)

end ApiSurface
